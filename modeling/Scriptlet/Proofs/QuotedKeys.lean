import Scriptlet.Proofs.ScriptRoundTrip
import Scriptlet.Proofs.ScriptText

/-! Keys in quotes. A string can stand for the name of a property exactly if it is a name, and then the
quotes change nothing. Any other string is refused where it stands. -/
namespace Scriptlet

open SExpr (scriptText)

def entryOf (key : String) : String := "\x7b " ++ key ++ ": 1 \x7d"

def entryRest : List Piece := [.mark .colon, .blank, .number 1, .blank, .mark .rbrace]

def IsOneName (s : String) : Prop :=
  ∃ t stop, tokenize s = .ok ⟨[t], stop⟩ ∧ t.kind = .ident ∧ t.value = s

theorem oneNameIff (s : String) : IsOneName s ↔ Parse.isKey s = true := by
  constructor
  · rintro ⟨t, stop, tokens, kind, value⟩
    have shaped := (tokenizeSound tokens).shaped t List.mem_cons_self
    exact (Parse.isKeyIff s).mpr (value ▸ Parse.nameOfIdent shaped kind)
  · intro key
    have tokens := Token.tokenizeLexes (Token.nameLexes key .nil)
    rw [String.ofList_toList] at tokens
    exact ⟨_, _, tokens, rfl, rfl⟩

inductive OneEntry (key : Token) : List Token → Prop where
  | mk {o colon one close} (opening : o.kind = .lbrace) (mark : colon.kind = .colon)
      (number : one.kind = .number) (value : one.value = "1") (closing : close.kind = .rbrace) :
      OneEntry key [o, key, colon, one, close]

theorem Means.oneEntry {more : List Token} (means : Means entryRest more) {o : Token} (opening : o.kind = .lbrace)
    (key : Token) : OneEntry key (o :: key :: more) := by
  obtain ⟨colon, _, rfl, mark, _, means⟩ := means.uncons rfl
  obtain ⟨one, _, rfl, number, value, means⟩ := means.blank.uncons rfl
  obtain ⟨close, _, rfl, closing, _, means⟩ := means.blank.uncons rfl
  obtain rfl := means.nil
  exact .mk opening mark number value closing

namespace Token

theorem entryRestRecovers (last : Option Kind) :
    Recovers ⟨[.brace], last⟩ entryRest [] ⟨[], some .rbrace⟩ := by
  refine .sign (by decide) (fun joined => by cases joined) (.blank (.number (.cons (by decide)) (.blank ?_)))
  exact .closes .brace .done

theorem tokenizeEntry {key : String} {kind : Kind} {value : List Char}
    (lexes : Lexes key.toList kind value (Piece.textAll entryRest)) (free : Bracket.isMark kind = false) :
    ∃ body stop, tokenize (entryOf key) = .ok ⟨body, stop⟩ ∧
      OneEntry ⟨kind, String.ofList value, key, 2, ⟨1, 3⟩⟩ body := by
  have text : (entryOf key).toList = ['\x7b'] ++ ' ' :: (key.toList ++ Piece.textAll entryRest) := by
    simp only [entryOf, String.toList_append]
    rfl
  have opening : Lexes ['\x7b'] .lbrace ['\x7b'] (' ' :: (key.toList ++ Piece.textAll entryRest)) :=
    markLexes (by decide) (fun joined => by cases joined)
  let start := Scanner.start (entryOf key).toList
  let opened := start.passWord ⟨.lbrace, ['\x7b'], ['\x7b'], ' ' :: (key.toList ++ Piece.textAll entryRest)⟩
  let before := opened.pass [' '] (key.toList ++ Piece.textAll entryRest)
  let named := before.passWord ⟨kind, value, key.toList, Piece.textAll entryRest⟩
  have mode : named.mode = ⟨[.brace], some kind⟩ := by
    show Mode.mk (Bracket.track [.brace] kind) (some kind) = _
    rw [trackFree _ free]
  obtain ⟨more, final, path, _, empty, means⟩ :=
    entryRestRecovers (some kind) named mode (List.append_nil _).symm
  have whole : start.Path _ final :=
    .token (opening.step text) (.skip (Scanner.stepBlank rfl rfl) (.token (lexes.step rfl) path))
  refine ⟨_, _, tokenizePath whole empty, ?_⟩
  have found : before.wordToken ⟨kind, value, key.toList, Piece.textAll entryRest⟩ =
      ⟨kind, String.ofList value, key, 2, ⟨1, 3⟩⟩ := by
    show Token.mk _ _ (String.ofList key.toList) _ _ = _
    rw [String.ofList_toList]
    rfl
  rw [found]
  exact means.oneEntry rfl _

def quotedKey (s : String) : Token := ⟨.string, s, scriptText s, 2, ⟨1, 3⟩⟩

theorem tokenizeQuoted (s : String) :
    ∃ body stop, tokenize (entryOf (scriptText s)) = .ok ⟨body, stop⟩ ∧ OneEntry (quotedKey s) body := by
  have lexes : Lexes (scriptText s).toList .string s.toList (Piece.textAll entryRest) := by
    rw [scriptText, String.toList_ofList]
    exact stringLexes _ _
  have found := tokenizeEntry lexes rfl
  rw [String.ofList_toList] at found
  exact found

theorem tokenizeBare {s : String} (key : Parse.isKey s = true) :
    ∃ body stop, tokenize (entryOf s) = .ok ⟨body, stop⟩ ∧ OneEntry ⟨.ident, s, s, 2, ⟨1, 3⟩⟩ body := by
  have found := tokenizeEntry (nameLexes key (.cons (by decide))) rfl
  rw [String.ofList_toList] at found
  exact found

end Token

namespace Parse

def entryTree (outer inner : Place) (key : Token) : Node :=
  .object outer [.property key.place key.value false [] (.literal inner .number (.int 1))]

variable {key : Token} {body : List Token}

/- Two levels of the budget go to the object, and two to the number in it. -/
theorem entryAccepted (entry : OneEntry key body) (word : IsKey key) (depth : Nat) :
    ∃ outer inner, program (depth + 4) body = .ok (entryTree outer inner key, []) := by
  obtain ⟨opening, mark, number, value, closing⟩ := entry
  rename_i o colon one close
  have none : Newlines [] := List.forall_mem_nil _
  have literal : Finds depth (.primary (.literal one.place .number (.int 1))) [one] [close] :=
    numberFinds number (numberOfAtom (by rw [value]; rfl) (fun x same => by cases same) _)
  have inner := primaryFinds literal (by simp [headKindCons, number]) (.cons (by simp [closing]))
  have entries := lastEntryFinds closing none (plainFinds word mark inner)
  have object := objectFinds opening none entries
  have whole := primaryFinds object (by simp [headKindCons, opening]) (.newlines none)
  exact ⟨o.place, one.place, programOfExpression none none (by simp [headKindCons, opening]) whole⟩

theorem propertyRefused (string : key.kind = .string) (noKey : ¬ isKey key.value = true) (expr : Parser Node)
    (rest : List Token) : property expr (key :: rest) = .error ⟨.invalidKey key.raw, key :: rest⟩ := by
  unfold property
  rw [bindStep (peekApply _)]
  simp only [List.head?_cons]
  rw [if_neg (by simp [string]), if_pos ⟨string, noKey⟩]
  rfl

theorem objectFails {expr : Parser Node} {o : Token} {s : List Token} {f : Failure} (opening : o.kind = .lbrace)
    (starts : startsExpression (headKind s) = true) (failed : property expr s = .error f) :
    primary expr (o :: s) = .error f := by
  have first : expect .lbrace (o :: s) = .ok (o, s) := expectAsOk.mpr ⟨rfl, opening⟩
  have stay : skipNewlines s = .ok ((), s) :=
    skipNewlinesAppend (List.forall_mem_nil _) (headNot starts (by rfl))
  have turn : propertyTurn expr s = .error f := by
    unfold propertyTurn
    rw [bindStep (nextKindApply _), if_neg (headNot starts (by rfl))]
    exact bindFails failed
  unfold primary
  rw [bindStep (aheadApply _)]
  simp only [opening, object]
  rw [bindStep first, bindStep stay]
  exact bindFails (Reader.collectError.mpr ⟨[], _, .none, turn⟩)

theorem entryRefused (entry : OneEntry key body) (string : key.kind = .string) (noKey : ¬ isKey key.value = true)
    (depth : Nat) : ∃ rest, program (depth + 2) body = .error ⟨.invalidKey key.raw, key :: rest⟩ := by
  obtain ⟨opening⟩ := entry
  rename_i o colon one close _ _ _ _
  have refused := propertyRefused string noKey (expression depth) [colon, one, close]
  have object := objectFails opening (by rw [headKindCons, string]; rfl) refused
  have whole := expressionOfPrimary (by simp [opening]) object
  exact ⟨_, programOfFailure (by simp [opening]) whole (by simp)⟩

theorem quotedRefused {s : String} (noKey : ¬ isKey s = true) (depth : Nat) :
    ∃ e, parse (depth + 2) (entryOf (scriptText s)) = .error (.parse e) ∧ e.cause = .invalidKey (scriptText s) ∧
      e.found = Token.quotedKey s ∧ e.source = entryOf (scriptText s) := by
  obtain ⟨body, stop, tokens, entry⟩ := Token.tokenizeQuoted s
  obtain ⟨rest, failed⟩ := entryRefused entry rfl noKey depth
  let e : Error := ⟨.invalidKey (scriptText s), Token.quotedKey s, entryOf (scriptText s)⟩
  refine ⟨e, exceptBindError.mpr (Or.inr ⟨_, tokens, ?_⟩), rfl, rfl, rfl⟩
  simp only [Token.Stream.parse, failed]
  rfl

theorem entryParsed {source : String} {stop : Token} (tokens : tokenize source = .ok ⟨body, stop⟩)
    (entry : OneEntry key body) (word : IsKey key) (depth : Nat) :
    ∃ outer inner, parse (depth + 4) source = .ok (entryTree outer inner key) := by
  obtain ⟨outer, inner, found⟩ := entryAccepted entry word depth
  exact ⟨outer, inner, (parseOk tokens _ _).mpr ⟨_, found⟩⟩

theorem entryTreesSame {a b : Token} (value : a.value = b.value) (outer inner outer' inner' : Place) :
    (entryTree outer inner a).same (entryTree outer' inner' b) = true ∧
      ∀ limit, (entryTree outer inner a).compare (limit + 4) (entryTree outer' inner' b) = some true := by
  have one : (SExpr.int 1).same (.int 1) = true := by decide +kernel
  constructor
  · simp [entryTree, Node.same, Node.sameAll, value, one]
  · simp [entryTree, Node.compare, compareLists, compareAll, value, SExpr.compare,
      one, andM, toBool]

def definition (name : String) : SExpr := .list [.sym "define", .sym name, .int 1]

theorem entryCompiled {nesting : Nat} {source : String} {outer inner : Place}
    (parsed : parse nesting source = .ok (entryTree outer inner key)) (lowering : Nat) :
    compile nesting (lowering + 3) source = .ok (definition key.value) := by
  unfold compile
  rw [parsed]
  rfl

theorem definitionTravels {nesting lowering : Nat} {source name : String}
    (ok : compile nesting lowering source = .ok (definition name)) (depth : Nat) :
    (∃ text, Wire.write (depth + 2) (definition name) = .ok text) ∧
      ∃ j, Json.encode (depth + 2) (definition name) = .ok j := by
  obtain ⟨stream, _, carries⟩ := compiledCarries ok
  have clean : ¬ HoldsSentinel stream.body := by
    rw [carries.markedIff]
    rintro ⟨a, inside, text, rfl, _⟩
    simp [definition, SExpr.atoms, SExpr.atomsAll] at inside
  have enough : (definition name).height ≤ depth + 2 := by
    simp [definition, SExpr.height, SExpr.heightAll]
  obtain ⟨text, written⟩ := carries.written Wire.charsDescends wireRefuses enough clean
  refine ⟨⟨String.ofList text, ?_⟩, carries.written Json.encodeDescends jsonRefuses enough clean⟩
  rw [Wire.write, written]
  rfl

theorem quotedKeysAgree (s : String) (nesting : Nat) :
    ((∃ tree, parse (nesting + 4) (entryOf (scriptText s)) = .ok tree) ↔ IsOneName s) ∧
    (IsOneName s → ∃ quoted bare, parse (nesting + 4) (entryOf (scriptText s)) = .ok quoted ∧
      parse (nesting + 4) (entryOf s) = .ok bare ∧
      quoted.same bare = true ∧ (∀ limit, quoted.compare (limit + 4) bare = some true) ∧
      (∀ lowering, compile (nesting + 4) (lowering + 3) (entryOf (scriptText s)) = .ok (definition s) ∧
        compile (nesting + 4) (lowering + 3) (entryOf s) = .ok (definition s)) ∧
      ∀ depth, (∃ text, Wire.write (depth + 2) (definition s) = .ok text) ∧
        ∃ j, Json.encode (depth + 2) (definition s) = .ok j) ∧
    (¬ IsOneName s → ∃ e, parse (nesting + 2) (entryOf (scriptText s)) = .error (.parse e) ∧
      e.cause = .invalidKey (scriptText s) ∧ e.diagnostic.text = "Invalid property name " ++ scriptText s ∧
      e.diagnostic.offset = 2 ∧ e.diagnostic.source = entryOf (scriptText s)) := by
  rw [oneNameIff]
  have accepted (isKey : isKey s = true) :
      ∃ outer inner, parse (nesting + 4) (entryOf (scriptText s)) =
        .ok (entryTree outer inner (Token.quotedKey s)) := by
    obtain ⟨body, stop, tokens, entry⟩ := Token.tokenizeQuoted s
    exact entryParsed tokens entry (Or.inr ⟨rfl, isKey⟩) nesting
  refine ⟨⟨fun ⟨tree, ok⟩ => ?_, fun isKey => ?_⟩, fun isKey => ?_, fun noKey => ?_⟩
  · by_contra noKey
    obtain ⟨e, failed, _⟩ := quotedRefused noKey (nesting + 2)
    rw [failed] at ok
    cases ok
  · obtain ⟨_, _, parsed⟩ := accepted isKey
    exact ⟨_, parsed⟩
  · obtain ⟨outer, inner, parsed⟩ := accepted isKey
    obtain ⟨body, stop, tokens, entry⟩ := Token.tokenizeBare isKey
    obtain ⟨outer', inner', parsed'⟩ := entryParsed tokens entry (Or.inl rfl) nesting
    obtain ⟨same, compared⟩ := entryTreesSame rfl outer inner outer' inner'
    exact ⟨_, _, parsed, parsed', same, compared,
      fun lowering => ⟨entryCompiled parsed lowering, entryCompiled parsed' lowering⟩,
      definitionTravels (entryCompiled parsed 0)⟩
  · obtain ⟨e, failed, cause, found, source⟩ := quotedRefused noKey nesting
    refine ⟨e, failed, cause, ?_, ?_, source⟩
    · rw [Error.diagnostic, cause]
      rfl
    · rw [Error.diagnostic, found]
      rfl

theorem quotedKeysAgreeNull :
    (IsOneName "null1" ∧ compile 4 3 (entryOf "\"null1\"") = .ok (definition "null1")) ∧
    ¬ IsOneName "null" ∧ ∃ e, parse 2 (entryOf "\"null\"") = .error (.parse e) ∧ e.diagnostic.offset = 2 := by
  have good : IsOneName "null1" := (oneNameIff _).mpr (by decide)
  have bad : ¬ IsOneName "null" := mt (oneNameIff _).mp (by decide)
  obtain ⟨_, _, _, _, _, _, compiled, _⟩ := (quotedKeysAgree "null1" 0).2.1 good
  obtain ⟨e, failed, _, _, offset, _⟩ := (quotedKeysAgree "null" 0).2.2 bad
  exact ⟨⟨good, (compiled 0).1⟩, bad, e, failed, offset⟩

end Parse

end Scriptlet
