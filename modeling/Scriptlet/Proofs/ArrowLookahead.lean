import Scriptlet.Proofs.Acceptance
import Scriptlet.Proofs.Brackets

/-! In front of a round bracket the parser looks for an arrow behind the bracket that closes it, whatever
stands between the two. A parser that looks at the names and commas themselves reads the same trees: where
the two decide differently, one has failed and the other stands in front of an arrow that nothing can
read. -/
namespace Scriptlet.Parse
open Token (Kind)
open Ebnf (Matches Pattern)

/- A parser that asks `commits` about the tokens after a round bracket. Where it says yes, parameters and
an arrow are read, and else an expression and the closing bracket. -/
namespace Guided

variable (commits : List Token → Bool)

def primary (expr : Parser Node) : Parser Node := do
  match ← Reader.ahead with
  | [] => Parse.primary expr
  | token :: rest =>
    if token.kind = .lparen then
      if commits rest then
        let names ← params
        arrow expr names token.place
      else
        Reader.drop
        let inner ← expr
        let _ ← expect .rparen
        pure inner
    else Parse.primary expr

def suffixed (expr : Parser Node) : Parser Node := do
  let target ← primary commits expr
  let suffixes ← Reader.collect (suffixTurn expr)
  pure (suffixes.foldl Suffix.apply target)

def signed (operand expr : Parser Node) : Parser Node := do
  match ← Reader.peek with
  | some op =>
    if op.kind = .notOp ∨ op.kind = .minus then
      Reader.drop
      let x ← operand
      pure (.unary op.place op.value x)
    else suffixed commits expr
  | none => suffixed commits expr

mutual

def expression : Nat → Parser Node
  | 0 => fail .exhausted
  | depth + 1 => choice (unary depth) (expression depth)

def unary : Nat → Parser Node
  | 0 => fail .exhausted
  | depth + 1 => signed commits (unary depth) (expression depth)

end

def program (depth : Nat) : Parser Node := do
  skipNewlines
  let tree ← fun tokens => match expression commits depth tokens with
    | .error ⟨.exhausted, rest⟩ => .error ⟨.tooDeep, rest⟩
    | result => result
  skipNewlines
  if (← nextKind) = .eof then pure tree else unexpected "end of input"

def parse (depth : Nat) (source : String) : Except CompileError Node := do
  let stream ← tokenize source
  match program commits depth stream.body with
  | .ok (tree, _) => .ok tree
  | .error failure => .error (.parse (failure.toError source stream.stop))

theorem primaryAhead : primary (arrowAhead 0) = Parse.primary := by
  funext expr s
  unfold primary Parse.primary
  rw [bindStep (aheadApply s), bindStep (aheadApply s)]
  cases s with
  | nil => rfl
  | cons token rest =>
    by_cases opening : token.kind = .lparen
    · simp only [opening, if_true]
    · simp only [opening, if_false]
      rw [bindStep (aheadApply _)]

theorem signedAhead : signed (arrowAhead 0) = Parse.signed := by
  have same : suffixed (arrowAhead 0) = Parse.suffixed := by
    unfold suffixed Parse.suffixed
    rw [primaryAhead]
  unfold signed Parse.signed
  exact same ▸ rfl

theorem budgetAhead (depth : Nat) :
    expression (arrowAhead 0) depth = Parse.expression depth ∧
      unary (arrowAhead 0) depth = Parse.unary depth := by
  induction depth with
  | zero => exact ⟨rfl, rfl⟩
  | succ depth ih =>
    constructor
    · rw [expression, Parse.expression, ih.1, ih.2]
    · rw [unary, Parse.unary, ih.1, ih.2, signedAhead]

theorem programScript (depth : Nat) : program commits depth = script (expression commits depth) := scriptTold _

theorem parseAhead (depth : Nat) (source : String) :
    parse (arrowAhead 0) depth source = Scriptlet.parse depth source := by
  have same : program (arrowAhead 0) depth = Parse.program depth := by
    rw [programScript, Parse.programScript, (budgetAhead depth).1]
  unfold parse Scriptlet.parse Token.Stream.parse
  exact same ▸ rfl

end Guided

/- Whether names with commas between them come next, then the closing bracket and an arrow. A comma may
follow the last name. `nameNext` says whether a name can stand first. -/
def namesThenArrow (nameNext : Bool) : List Token → Bool
  | [] => false
  | token :: rest => match token.kind with
    | .rparen => headKind rest = .arrow
    | .ident => nameNext && namesThenArrow false rest
    | .comma => !nameNext && namesThenArrow true rest
    | _ => false

section Names
variable {s rest : List Token}

theorem readNamesThenArrow {names used : List Token} (reads : Reads (.names names) used rest)
    (arrow : headKind rest = .arrow) : namesThenArrow true (used ++ rest) = true := by
  generalize shape : Phrase.names names = phrase at reads
  induction reads generalizing names with
  | noName close => simp [namesThenArrow, close, arrow]
  | lastName close word => simp [namesThenArrow, close, word, arrow]
  | oneName comma word _ ih => simp [namesThenArrow, comma, word, ih arrow rfl]
  | _ => cases shape

theorem namesThenArrowReads {nameNext : Bool} (found : namesThenArrow nameNext s = true) :
    ∃ names used mark more, s = used ++ mark :: more ∧ mark.kind = .arrow ∧
      if nameNext then ∀ rest, Reads (.names names) used rest
      else ∀ rest t, t.kind = .ident → Reads (.names (t :: names)) (t :: used) rest := by
  induction s generalizing nameNext with
  | nil => cases found
  | cons token s ih =>
    unfold namesThenArrow at found
    split at found
    · rename_i close
      obtain ⟨mark, more, rfl, arrow⟩ := headKindSome (of_decide_eq_true found) (by decide)
      refine ⟨[], [token], mark, more, rfl, arrow, ?_⟩
      cases nameNext with
      | true => exact fun rest => .noName close
      | false => exact fun rest t word => .lastName close word
    · rename_i word
      obtain ⟨rfl, later⟩ := Bool.and_eq_true_iff.mp found
      obtain ⟨names, used, mark, more, rfl, arrow, reads⟩ := ih later
      exact ⟨token :: names, token :: used, mark, more, rfl, arrow, fun rest => reads rest token word⟩
    · rename_i comma
      obtain ⟨noName, later⟩ := Bool.and_eq_true_iff.mp found
      obtain rfl : nameNext = false := by simpa using noName
      obtain ⟨names, used, mark, more, rfl, arrow, reads⟩ := ih later
      exact ⟨names, token :: used, mark, more, rfl, arrow,
        fun rest t word => .oneName comma word (reads rest)⟩
    · cases found

theorem namesThenArrowAhead {nameNext : Bool} (found : namesThenArrow nameNext s = true) :
    arrowAhead 0 s = true := by
  induction s generalizing nameNext with
  | nil => cases found
  | cons token s ih =>
    unfold namesThenArrow at found
    split at found
    · rename_i close
      obtain ⟨mark, more, rfl, arrow⟩ := headKindSome (of_decide_eq_true found) (by decide)
      simp [arrowAhead, close, arrow]
    · rename_i word
      simpa [arrowAhead, word] using ih (Bool.and_eq_true_iff.mp found).2
    · rename_i comma
      simpa [arrowAhead, comma] using ih (Bool.and_eq_true_iff.mp found).2
    · cases found

theorem paramsThenArrow {o : Token} {names : List String} (ok : params (o :: s) = .ok (names, rest))
    (arrow : headKind rest = .arrow) : namesThenArrow true s = true := by
  obtain ⟨_, found, used, shape, _, _, reads⟩ := paramsRead ok
  obtain ⟨rfl, rfl⟩ := List.cons.inj shape
  exact readNamesThenArrow reads arrow

theorem kindMatched {k : Kind} (derived : Matches (Ebnf.kind k) s) : ∃ t, s = [t] ∧ t.kind = k := by
  cases derived with
  | token passes => exact ⟨_, rfl, passes⟩

theorem seqMatched {p q : Pattern} (derived : Matches (p ++ q) s) :
    ∃ a b, s = a ++ b ∧ Matches p a ∧ Matches q b := by
  cases derived with
  | seq first second => exact ⟨_, _, rfl, first, second⟩

theorem optMatched {p : Pattern} (derived : Matches (Ebnf.opt p) s) : s = [] ∨ Matches p s := by
  cases derived with
  | left inner => exact Or.inr inner
  | right none =>
    cases none
    exact Or.inl rfl

theorem moreNames {p : Pattern} (derived : Matches p s)
    (shape : p = .star (Ebnf.kind .comma ++ Ebnf.kind .ident)) (next : namesThenArrow false rest = true) :
    namesThenArrow false (s ++ rest) = true := by
  induction derived with
  | done => exact next
  | again first _ _ ih =>
    cases shape
    obtain ⟨_, _, rfl, mark, name⟩ := seqMatched first
    obtain ⟨c, rfl, comma⟩ := kindMatched mark
    obtain ⟨t, rfl, word⟩ := kindMatched name
    simp [namesThenArrow, comma, word, ih rfl]
  | _ => cases shape

theorem listThenArrow (derived : Matches (Ebnf.opt (Ebnf.commaList (Ebnf.kind .ident))) s)
    (close : ∀ nameNext, namesThenArrow nameNext rest = true) : namesThenArrow true (s ++ rest) = true := by
  rcases optMatched derived with rfl | list
  · exact close true
  · obtain ⟨_, tail, rfl, first, more⟩ := seqMatched list
    obtain ⟨t, rfl, word⟩ := kindMatched first
    obtain ⟨others, last, rfl, star, mark⟩ := seqMatched more
    have after : namesThenArrow false (last ++ rest) = true := by
      rcases optMatched mark with rfl | one
      · exact close false
      · obtain ⟨c, rfl, comma⟩ := kindMatched one
        simp [namesThenArrow, comma, close]
    simpa [namesThenArrow, word] using moreNames star rfl after

end Names

theorem namesThenArrowIff (o : Token) (s : List Token) :
    (o.kind = .lparen ∧ namesThenArrow true s = true) ↔
      ∃ used rest, o :: s = used ++ rest ∧ Matches (.rule .params ++ Ebnf.kind .arrow) used := by
  constructor
  · rintro ⟨opening, found⟩
    obtain ⟨names, used, mark, more, rfl, arrow, reads⟩ := namesThenArrowReads found
    have params : Matches (.rule .params) (o :: used) := .rule (matchCons opening (readsDerives (reads [])))
    exact ⟨o :: used ++ [mark], more, by simp, .seq params (matchKind arrow)⟩
  · rintro ⟨used, rest, shape, derived⟩
    obtain ⟨_, _, rfl, params, last⟩ := seqMatched derived
    obtain ⟨mark, rfl, arrow⟩ := kindMatched last
    cases params with
    | rule inner =>
      obtain ⟨_, _, rfl, first, tail⟩ := seqMatched inner
      obtain ⟨_, rfl, opening⟩ := kindMatched first
      obtain ⟨names, _, rfl, list, closing⟩ := seqMatched tail
      obtain ⟨c, rfl, close⟩ := kindMatched closing
      obtain ⟨rfl, rfl⟩ : o = _ ∧ s = names ++ c :: mark :: rest := by simpa using shape
      exact ⟨opening, listThenArrow list fun _ => by simp [namesThenArrow, close, headKindCons, arrow]⟩

/- Where the parser fails, the second one is lost: it fails too, or it stops in front of an arrow. -/
def Bond.lookahead : Bond := .exact fun _ r => Lost r

instance : Bond.lookahead.Lawful :=
  exactLawful (fun _ _ ok => (nomatch ok)) fun _ s _ lost after => after (lost s rfl)

theorem lookaheadKeeps : Congruent .lookahead Eq := exactCongruent

section Rules
variable {expr expr' : Parser Node} (parts : Parts .lookahead Eq expr expr')
include parts

theorem groupLost (sound : Sound expr .expression) {token : Token} {rest : List Token}
    (ahead : arrowAhead 0 rest = true) :
    Lost (left ((do Reader.drop; let inner ← expr'; let _ ← expect .rparen; pure inner : Parser Node)
      (token :: rest))) := by
  refine lostOk fun x after ok => ?_
  obtain ⟨_, _, ⟨⟩, ok⟩ := Reader.bindOk.mp ok
  obtain ⟨inner, middle, read, next⟩ := Reader.bindOk.mp ok
  obtain ⟨c, _, closed, last⟩ := Reader.bindOk.mp next
  cases last
  obtain ⟨rfl, closing⟩ := expectAsOk.mp closed
  have found : expr rest = .ok (x, c :: after) := by
    have outcome := parts.ties rest rest rfl
    rw [show expr' rest = _ from read] at outcome
    generalize expr rest = result at outcome ⊢
    cases outcome with
    | ok value tied =>
      cases value
      cases tied
      rfl
    | failed lost => exact absurd (closing.symm.trans (lost _ rfl)) (by decide)
  obtain ⟨used, rfl, reads⟩ := sound found
  have balanced : arrowAhead 0 (used ++ c :: after) = arrowAhead 0 (c :: after) :=
    nestsAhead (readsNests reads (o := []) rfl) 0 (c :: after)
  rw [balanced] at ahead
  cases after with
  | nil => simp [arrowAhead, closing] at ahead
  | cons t more => simpa [arrowAhead, closing, headKindCons] using ahead

omit parts in
theorem arrowFails (expr : Parser Node) (token : Token) {rest : List Token}
    (none : namesThenArrow true rest = false) (place : Place) :
    ∃ e, (do let names ← params; arrow expr names place : Parser Node) (token :: rest) = .error e := by
  cases result : (do let names ← params; arrow expr names place : Parser Node) (token :: rest) with
  | error e => exact ⟨e, rfl⟩
  | ok found =>
    obtain ⟨names, middle, read, next⟩ := Reader.bindOk.mp result
    obtain ⟨mark, after, expected, _⟩ := Reader.bindOk.mp next
    obtain ⟨rfl, kind⟩ := expectAsOk.mp expected
    rw [paramsThenArrow read kind] at none
    cases none

theorem primaryGuided (sound : Sound expr .expression) :
    Ties .lookahead Eq (primary expr) (Guided.primary (namesThenArrow true) expr') := by
  intro s s' same
  obtain rfl : s = s' := same
  cases s with
  | nil => exact plainTies lookaheadKeeps parts rfl (by decide)
  | cons token rest =>
    unfold Guided.primary
    rw [bindStep (aheadApply _)]
    by_cases opening : token.kind = .lparen
    · unfold primary
      rw [bindStep (aheadApply _)]
      simp only [opening, if_true]
      have function := functionTies lookaheadKeeps parts (t := token) rfl
      cases test : namesThenArrow true rest with
      | true =>
        rw [namesThenArrowAhead test]
        exact function _ _ rfl
      | false =>
        cases ahead : arrowAhead 0 rest with
        | false => exact groupTies parts _ _ rfl opening
        | true =>
          obtain ⟨e, failed⟩ := arrowFails expr token test token.place
          simp only [if_true]
          rw [failed]
          exact .failed (groupLost parts sound ahead)
    · simp only [opening, if_false]
      exact plainTies lookaheadKeeps parts rfl opening

theorem signedGuided (sound : Sound expr .expression) {operand operand' : Parser Node}
    (inner : Parts .lookahead Eq operand operand') :
    Ties .lookahead Eq (signed operand expr) (Guided.signed (namesThenArrow true) operand' expr') :=
  signsTies lookaheadKeeps inner (suffixesTies lookaheadKeeps parts (primaryGuided parts sound))

end Rules

theorem guidedStays (commits : List Token → Bool) {operand expr : Parser Node} :
    Stays (Guided.signed commits operand expr) := by
  have primary : Stays (Guided.primary commits expr) := by
    refine .ahead fun t more arrow => ?_
    simp only [arrow]
    exact primaryStays
  refine .peek fun t arrow => ?_
  simp only [arrow]
  exact .bind primary fun _ => .bind suffixTurnStays.collect fun _ => .pure _

theorem budgetGuided (depth : Nat) :
    Parts .lookahead Eq (expression depth) (Guided.expression (namesThenArrow true) depth) ∧
      Parts .lookahead Eq (unary depth) (Guided.unary (namesThenArrow true) depth) := by
  induction depth with
  | zero => exact ⟨⟨.fail, .fail _, .inl exactLevel⟩, ⟨.fail, .fail _, .inl exactLevel⟩⟩
  | succ depth ih =>
    obtain ⟨parts, inner⟩ := ih
    exact ⟨⟨choiceTies lookaheadKeeps parts inner, choiceStays inner.stays, .inl exactLevel⟩,
      ⟨signedGuided parts (readsOfBudget depth).1 inner, guidedStays _, .inl exactLevel⟩⟩

theorem lookaheadTells : Bond.lookahead.Tells .lookahead := by
  refine ⟨rfl, fun f r lost rest ok => ?_⟩
  cases r with
  | error g => cases ok
  | ok found =>
    cases ok
    exact lost _ rfl

theorem programGuided (depth : Nat) :
    Ties .lookahead Eq (program depth) (Guided.program (namesThenArrow true) depth) := by
  have ties : Ties .lookahead Eq _ _ := scriptTies lookaheadTells (budgetGuided depth).1.ties
  rwa [← programScript, ← Guided.programScript] at ties

theorem guidedEnds {commits : List Token → Bool} {depth : Nat} {s rest : List Token} {tree : Node}
    (ok : Guided.program commits depth s = .ok (tree, rest)) : headKind rest = .eof := by
  obtain ⟨_, _, _, ok⟩ := Reader.bindOk.mp ok
  obtain ⟨_, _, _, ok⟩ := Reader.bindOk.mp ok
  obtain ⟨_, middle, _, ok⟩ := Reader.bindOk.mp ok
  rw [bindStep (nextKindApply middle)] at ok
  split at ok
  · rename_i ends
    cases ok
    exact ends
  · exact absurd ok failOk

theorem programIff (depth : Nat) {s rest : List Token} {tree : Node} :
    program depth s = .ok (tree, rest) ↔
      Guided.program (namesThenArrow true) depth s = .ok (tree, rest) := by
  have outcome := programGuided depth s s rfl
  have ends : Guided.program (namesThenArrow true) depth s = .ok (tree, rest) → headKind rest = .eof := guidedEnds
  generalize program depth s = result, Guided.program (namesThenArrow true) depth s = result' at outcome ends
  cases outcome with
  | ok value tied =>
    cases value
    cases tied
    rfl
  | failed lost =>
    refine ⟨fun ok => (nomatch ok), fun ok => ?_⟩
    exact absurd ((ends ok).symm.trans (lostRest lost ok)) (by decide)

theorem guidedOk {commits : List Token → Bool} {source : String} {stream : Token.Stream}
    (tokens : tokenize source = .ok stream) (depth : Nat) (tree : Node) :
    Guided.parse commits depth source = .ok tree ↔
      ∃ rest, Guided.program commits depth stream.body = .ok (tree, rest) := by
  unfold Guided.parse
  rw [tokens]
  simp only [bind, Except.bind]
  cases Guided.program commits depth stream.body with
  | error f => simp
  | ok found =>
    obtain ⟨tree', rest⟩ := found
    simp

theorem lookaheadExact :
    (∀ o s, (o.kind = .lparen ∧ namesThenArrow true s = true) ↔
      ∃ used rest, o :: s = used ++ rest ∧ Matches (.rule .params ++ Ebnf.kind .arrow) used) ∧
    (∀ depth source, Guided.parse (arrowAhead 0) depth source = parse depth source) ∧
    ∀ depth source tree,
      parse depth source = .ok tree ↔ Guided.parse (namesThenArrow true) depth source = .ok tree := by
  refine ⟨namesThenArrowIff, Guided.parseAhead, fun depth source tree => ?_⟩
  cases tokens : tokenize source with
  | error e => simp [parse, Guided.parse, tokens, bind, Except.bind]
  | ok stream =>
    rw [parseOk tokens, guidedOk tokens]
    exact exists_congr fun rest => programIff depth

end Scriptlet.Parse
