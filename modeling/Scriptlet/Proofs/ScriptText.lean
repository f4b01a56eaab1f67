import Scriptlet.Proofs.Layout
import Scriptlet.Proofs.Places
import Scriptlet.Proofs.Precedence
import Scriptlet.Proofs.Transports

/-! The script text of a value. A string in it is one token of a script, and the text as a whole tells
which value it belongs to. -/
namespace Scriptlet

namespace SExpr

def replaced (c : Char) (text : List Char) : List Char → List Char :=
  List.flatMap fun d => if d = c then text else [d]

/- The marks of a string one after another, the backslash first, so that none is put in twice. -/
def escapedInTurn (s : List Char) : List Char :=
  replaced '\t' ['\\', 't'] (replaced '\n' ['\\', 'n'] (replaced '"' ['\\', '"'] (replaced '\\' ['\\', '\\'] s)))

theorem escapedAtOnce (s : List Char) : escapedInTurn s = s.flatMap scriptChar := by
  unfold escapedInTurn replaced
  simp only [List.flatMap_assoc]
  refine congrArg (s.flatMap ·) (funext fun c => ?_)
  by_cases backslash : c = '\\'
  · subst backslash
    rfl
  by_cases mark : c = '"'
  · subst mark
    rfl
  by_cases line : c = '\n'
  · subst line
    rfl
  by_cases tab : c = '\t'
  · subst tab
    rfl
  simp [scriptChar, backslash, mark, line, tab]

def scriptText (s : String) : String := String.ofList (scriptString s.toList)

end SExpr

open SExpr (scriptText escapedInTurn)

theorem Place.endingOneLine {text : List Char} (oneLine : '\n' ∉ text) :
    Place.ending text = ⟨1, text.length + 1⟩ := by
  have all : ∀ c ∈ text.reverse, decide (c ≠ '\n') = true := by
    intro c member
    rw [decide_eq_true_eq]
    intro same
    exact oneLine (same ▸ List.mem_reverse.mp member)
  unfold Place.ending
  rw [List.count_eq_zero_of_not_mem oneLine, List.takeWhile_eq_self_iff.mpr all, List.length_reverse]
  rfl

namespace Token

theorem tokenizeWord {text value : List Char} {kind : Kind} (lexes : Lexes text kind value [])
    (oneLine : '\n' ∉ text) :
    tokenize (String.ofList text) =
      .ok ⟨[⟨kind, String.ofList value, String.ofList text, 0, ⟨1, 1⟩⟩],
        ⟨.eof, "", "", text.length, ⟨1, text.length + 1⟩⟩⟩ := by
  have offset : (Position.start.after text).offset = text.length := by
    rw [← Nat.zero_add text.length]
    exact Position.afterOffset _ _
  rw [tokenizeLexes lexes, offset, Position.afterPlace, Place.endingOneLine oneLine]

end Token

namespace SExpr
open Wire (Encodes Ends)

structure Legible (v : SExpr) : Prop where
  floats : ∀ x, .float x ∈ v.atoms → x.isFinite = true
  symbols : ∀ name, .sym name ∈ v.atoms → Wire.symbolFault? name = none ∧ '"' ∉ name.toList

theorem Legible.item {items : List SExpr} (legible : (list items).Legible) {v : SExpr} (member : v ∈ items) :
    v.Legible :=
  ⟨fun x inside => legible.floats x (atomsOfMember member inside),
    fun name inside => legible.symbols name (atomsOfMember member inside)⟩

inductive Written : SExpr → List Char → Prop where
  | word {v text} (word : Encodes (.word v) text) (bare : '"' ∉ text) : Written v text
  | string {s} : Written (.str s) (scriptString s.toList)
  | list {items parts} (each : List.Forall₂ (fun v part => ∃ depth, v.script depth = .ok part) items parts) :
      Written (.list items) ('(' :: [' '].intercalate parts ++ [')'])

theorem numeralBare {w : Numeral.Written} (valid : w.Valid) : '"' ∉ w.text := by
  intro member
  rcases Numeral.Written.textChars valid member with digit | mark
  · exact absurd digit (by decide)
  · exact absurd mark (by decide)

theorem scriptWritten {v : SExpr} (legible : v.Legible) {depth : Nat} {text : List Char}
    (ok : v.script depth = .ok text) : Written v text := by
  obtain _ | depth := depth
  · cases ok
  cases v with
  | null =>
    cases ok
    exact .word (.word (by simp) (Wire.allFree rfl) (.literal .null)) (by decide)
  | bool b =>
    cases ok
    cases b with
    | true => exact .word (.word (by simp) (Wire.allFree rfl) (.literal .truth)) (by decide)
    | false => exact .word (.word (by simp) (Wire.allFree rfl) (.literal .falsity)) (by decide)
  | int n =>
    simp only [script, intChars] at ok
    split at ok
    · rename_i digits found
      cases ok
      obtain ⟨w, valid, rfl, whole, value⟩ := Numeral.ofIntWritten found
      exact .word (Wire.numeralEncodes valid (by simp [whole, value])) (numeralBare valid)
    · cases ok
  | float x =>
    cases ok
    obtain ⟨w, valid, same, notWhole, value⟩ := Binary64.charsWritten (legible.floats x (by simp [atoms]))
    rw [← same]
    exact .word (Wire.numeralEncodes valid (by simp [notWhole, value])) (numeralBare valid)
  | str s =>
    cases ok
    exact .string
  | sym name =>
    cases ok
    obtain ⟨fine, bare⟩ := legible.symbols name (by simp [atoms])
    exact .word (Wire.symbolEncodes fine) bare
  | list items =>
    obtain ⟨parts, each, same⟩ := exceptBindOk.mp ok
    cases same
    exact .list ((mapMOk.mp each).imp fun _ _ ok => ⟨depth, ok⟩)
  | «foreign» value => cases ok

/- A text of a value that is the text of no other value, whatever may follow the two. -/
def Tells (v : SExpr) (a : List Char) : Prop :=
  ∀ w b x y, Written w b → w.Legible → Ends x → Ends y → a ++ x = b ++ y → v = w ∧ x = y

theorem wordStart {v : SExpr} {text : List Char} (word : Encodes (.word v) text) (bare : '"' ∉ text) :
    ∃ c rest, text = c :: rest ∧ c ≠ '(' ∧ c ≠ ')' ∧ c ≠ '"' := by
  cases word with
  | word nonempty free means =>
    obtain ⟨c, rest, rfl⟩ := List.exists_cons_of_ne_nil nonempty
    obtain ⟨_, opens, closes, _⟩ := free c List.mem_cons_self
    exact ⟨c, rest, rfl, opens, closes, fun same => bare (same ▸ List.mem_cons_self)⟩

theorem Written.start {v : SExpr} {text : List Char} (written : Written v text) :
    ∃ c rest, text = c :: rest ∧ c ≠ ')' := by
  cases written with
  | word word bare =>
    obtain ⟨c, rest, same, _, closes, _⟩ := wordStart word bare
    exact ⟨c, rest, same, closes⟩
  | string => exact ⟨'"', _, rfl, by decide⟩
  | list => exact ⟨'(', _, rfl, by decide⟩

theorem wordTells {v : SExpr} {text : List Char} (word : Encodes (.word v) text) (bare : '"' ∉ text) :
    Tells v text := by
  obtain ⟨c, rest, rfl, opens, _, mark⟩ := wordStart word bare
  intro w b x y written _ ends ends' same
  cases written with
  | word word' _ =>
    cases word with
    | word nonempty free means => cases word' with
      | word nonempty' free' means' =>
        have read := Wire.wordReads nonempty free means 0 ends
        rw [same, Wire.wordReads nonempty' free' means' 0 ends'] at read
        cases read
        exact ⟨rfl, rfl⟩
  | string => exact absurd (List.cons.inj same).1 mark
  | list => exact absurd (List.cons.inj same).1 opens

theorem stringTells (s : String) : Tells (.str s) (scriptString s.toList) := by
  intro w b x y written _ _ _ same
  have read : ∀ (s : String) after, Token.splitString '"' [] ((scriptString s.toList ++ after).tail) =
      .ok (s.toList, s.toList.flatMap scriptChar ++ ['"'], after) := by
    intro s after
    rw [scriptString, List.cons_append, List.cons_append, List.tail_cons, List.append_assoc]
    exact Token.splitScript [] s.toList after
  cases written with
  | word word bare =>
    obtain ⟨c, rest, rfl, _, _, mark⟩ := wordStart word bare
    exact absurd (List.cons.inj same).1.symm mark
  | @string t =>
    have first := read s x
    rw [same, read t y] at first
    simp only [Except.ok.injEq, Prod.mk.injEq, String.toList_inj] at first
    exact ⟨congrArg _ first.1.symm, first.2.2.symm⟩
  | list => exact absurd (List.cons.inj same).1 (by decide)

theorem endsItems (parts : List (List Char)) (rest : List Char) :
    Ends (parts.flatMap (' ' :: ·) ++ ')' :: rest) := by
  cases parts with
  | nil => exact Wire.endsReserved rfl rest
  | cons part more => exact Wire.endsReserved rfl _

theorem itemsTell {items : List SExpr} {parts : List (List Char)} (tell : List.Forall₂ Tells items parts)
    {items' : List SExpr} {parts' : List (List Char)} (legible : ∀ w ∈ items', w.Legible)
    (each : List.Forall₂ (fun w part => ∃ depth, w.script depth = .ok part) items' parts') {x y : List Char}
    (same : parts.flatMap (' ' :: ·) ++ ')' :: x = parts'.flatMap (' ' :: ·) ++ ')' :: y) :
    items = items' ∧ x = y := by
  induction tell generalizing items' parts' with
  | nil => cases each with
    | nil => exact ⟨rfl, (List.cons.inj same).2⟩
    | cons _ _ => exact absurd (List.cons.inj same).1 (by decide)
  | cons head _ ih => cases each with
    | nil => exact absurd (List.cons.inj same).1 (by decide)
    | cons head' tail' =>
      obtain ⟨first, others⟩ := List.forall_mem_cons.mp legible
      obtain ⟨depth, ok⟩ := head'
      simp only [List.flatMap_cons, List.cons_append, List.append_assoc, List.cons.injEq, true_and] at same
      obtain ⟨rfl, left⟩ := head _ _ _ _ (scriptWritten first ok) first (endsItems _ _) (endsItems _ _) same
      obtain ⟨rfl, rest⟩ := ih others tail' left
      exact ⟨rfl, rest⟩

theorem listTells {items : List SExpr} {parts : List (List Char)} (legible : (list items).Legible)
    (each : List.Forall₂ (fun v part => ∃ depth, v.script depth = .ok part) items parts)
    (tell : List.Forall₂ Tells items parts) : Tells (.list items) ('(' :: [' '].intercalate parts ++ [')']) := by
  intro w b x y written legible' _ _ same
  -- An item never starts like the end of a list, so only lists of one length agree.
  have start : ∀ {v : SExpr} {part rest after : List Char}, v.Legible → (∃ depth, v.script depth = .ok part) →
      part ++ rest ≠ ')' :: after := by
    intro v part rest after fine ⟨_, ok⟩ closes
    obtain ⟨c, more, rfl, other⟩ := (scriptWritten fine ok).start
    exact other (List.cons.inj closes).1
  cases written with
  | word word bare =>
    obtain ⟨c, rest, rfl, opens, _⟩ := wordStart word bare
    exact absurd (List.cons.inj same).1.symm opens
  | string => exact absurd (List.cons.inj same).1 (by decide)
  | @list items' parts' each' =>
    have inside : ∀ w ∈ items', w.Legible := fun w member => legible'.item member
    simp only [List.cons_append, List.append_assoc, List.cons.injEq, true_and, List.nil_append] at same
    cases tell with
    | nil => cases each' with
      | nil => exact ⟨rfl, (List.cons.inj same).2⟩
      | cons head _ =>
        rw [Wire.intercalateCons, List.append_assoc] at same
        exact absurd same.symm (start (inside _ List.mem_cons_self) head)
    | cons head tail =>
      rw [Wire.intercalateCons, List.append_assoc] at same
      cases each' with
      | nil =>
        obtain _ | ⟨first, _⟩ := each
        exact absurd same (start (legible.item List.mem_cons_self) first)
      | cons head' tail' =>
        rw [Wire.intercalateCons, List.append_assoc] at same
        have spaced := congrArg (' ' :: ·) same
        simp only [← List.append_assoc] at spaced
        obtain ⟨items, rest⟩ := itemsTell (.cons head tail) inside (.cons head' tail') spaced
        exact ⟨congrArg _ items, rest⟩

theorem scriptTells {depth : Nat} {v : SExpr} (legible : v.Legible) {text : List Char}
    (ok : v.script depth = .ok text) : Tells v text := by
  induction depth generalizing v text with
  | zero => cases ok
  | succ depth ih =>
    obtain ⟨items, rfl⟩ | atom := listOrAtom v
    · obtain ⟨parts, all, same⟩ := exceptBindOk.mp ok
      cases same
      have each : List.Forall₂ (fun v part => v ∈ items ∧ v.script depth = .ok part) items parts :=
        (List.forall₂_and_left _ _).mpr ⟨fun _ member => member, mapMOk.mp all⟩
      exact listTells legible (each.imp fun _ _ both => ⟨depth, both.2⟩)
        (each.imp fun _ _ both => ih (legible.item both.1) both.2)
    · cases scriptWritten legible ok with
      | word word bare => exact wordTells word bare
      | string => exact stringTells _
      | list => exact absurd rfl (atom _)

theorem scriptUnique {v w : SExpr} (legible : v.Legible) (legible' : w.Legible) {depth depth' : Nat}
    {text : List Char} (ok : v.script depth = .ok text) (ok' : w.script depth' = .ok text) : v = w := by
  have ends : Ends [] := fun _ member => (nomatch member)
  exact (scriptTells legible ok _ _ _ _ (scriptWritten legible' ok') legible' ends ends rfl).1

theorem toScriptOk {depth : Nat} {v : SExpr} {text : String} (ok : v.toScript depth = .ok text) :
    v.script depth = .ok text.toList := by
  obtain ⟨letters, written, rfl⟩ := exceptMapOk.mp ok
  rw [written, String.toList_ofList]

end SExpr

namespace Parse

theorem writtenStringIsOneToken (s : String) :
    (∀ depth, (SExpr.str s).toScript (depth + 1) = .ok (scriptText s)) ∧
      (scriptText s).toList = '"' :: escapedInTurn s.toList ++ ['"'] ∧
      tokenize (scriptText s) = .ok ⟨[⟨.string, s, scriptText s, 0, ⟨1, 1⟩⟩],
        ⟨.eof, "", "", (scriptText s).length, ⟨1, (scriptText s).length + 1⟩⟩⟩ ∧
      ∀ nesting lowering,
        compile (nesting + 2) (lowering + 1) (scriptText s) = .ok (.list [.sym "quote", .str s]) := by
  have lexes := Token.stringLexes s.toList []
  have oneLine : '\n' ∉ SExpr.scriptString s.toList := by
    obtain ⟨c, rest, _, found, _⟩ := lexes
    exact Token.lexemeOneLine found
  have tokens := Token.tokenizeWord lexes oneLine
  rw [String.ofList_toList, ← String.length_ofList] at tokens
  let t : Token := ⟨.string, s, scriptText s, 0, ⟨1, 1⟩⟩
  let tree : Node := .literal ⟨1, 1⟩ .string (.str s)
  have parsed (nesting : Nat) : parse (nesting + 2) (scriptText s) = .ok tree := by
    have found := programReference (List.forall_mem_nil _) (List.forall_mem_nil _) ⟨t, tree, rfl⟩ [] nesting
    rw [referenceNil] at found
    exact (parseOk tokens _ tree).mpr ⟨[], found⟩
  refine ⟨fun depth => rfl, ?_, tokens, fun nesting lowering => ?_⟩
  · rw [SExpr.escapedAtOnce, scriptText, String.toList_ofList]
    rfl
  · unfold compile
    rw [parsed]
    rfl

theorem nameBare {name : String} (word : Node.IsName name) : '"' ∉ name.toList := by
  intro inside
  exact absurd (nameChars word _ inside) (by decide)

theorem compiledLegible {nesting lowering : Nat} {source : String} {v : SExpr}
    (ok : compile nesting lowering source = .ok v) : v.Legible := by
  obtain ⟨_, _, carries⟩ := compiledCarries ok
  have table : ∀ text ∈ vocabulary, '"' ∉ text.toList := by decide
  refine ⟨fun x inside => (carries.atoms _ inside).finite rfl, fun name inside => ?_⟩
  have compiled := carries.atoms _ inside
  refine ⟨(compiledSymbol compiled).1, ?_⟩
  cases compiled with
  | leaf leaf _ =>
    cases leaf with
    | number unsigned => cases unsigned
    | name word => exact nameBare word
  | word known => exact table name known

theorem scriptTextTellsValue :
    (∀ v w : SExpr, v.Legible → w.Legible →
      (∀ depth depth' text, v.toScript depth = .ok text → w.toScript depth' = .ok text → v = w) ∧
      ∀ depth depth' text, v.script depth = .ok text → w.script depth' = .ok text → v = w) ∧
    ∀ nesting lowering source v, compile nesting lowering source = .ok v → v.Legible := by
  refine ⟨fun v w legible legible' => ⟨fun depth depth' text ok ok' => ?_, fun depth depth' text ok ok' => ?_⟩, ?_⟩
  · exact SExpr.scriptUnique legible legible' (SExpr.toScriptOk ok) (SExpr.toScriptOk ok')
  · exact SExpr.scriptUnique legible legible' ok ok'
  · exact fun nesting lowering source v ok => compiledLegible ok

def noteSource : String := "f('a (b \"c\\\\n\\n', [1.50, -x1])"

def noteAgain : String := "f(// twice\n \"a (b \\\"c\\\\n\\n\", [1.5, -\n(x1)],)"

def noteText : String := "(f (quote \"a (b \\\"c\\\\n\\n\") (list 1.5 (- 0 x1)))"

theorem scriptTextTellsNote : ∃ v w, compile 9 9 noteSource = .ok v ∧ compile 9 9 noteAgain = .ok w ∧
    v.toScript 4 = .ok noteText ∧ w.toScript 5 = .ok noteText ∧ v = w := by
  have first : (compile 9 9 noteSource).toOption.any (fun v => v.toScript 4 = .ok noteText) = true := by
    decide +kernel
  have second : (compile 9 9 noteAgain).toOption.any (fun v => v.toScript 5 = .ok noteText) = true := by
    decide +kernel
  obtain ⟨v, ok, text⟩ := okOfAny first
  obtain ⟨w, ok', text'⟩ := okOfAny second
  obtain ⟨unique, legible⟩ := scriptTextTellsValue
  have same := (unique v w (legible 9 9 _ v ok) (legible 9 9 _ w ok')).1 4 5 noteText
    (of_decide_eq_true text) (of_decide_eq_true text')
  exact ⟨v, w, ok, ok', of_decide_eq_true text, of_decide_eq_true text', same⟩

end Parse

end Scriptlet
