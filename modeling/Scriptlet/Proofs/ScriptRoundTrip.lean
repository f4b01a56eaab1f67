import Scriptlet.Proofs.Acceptance
import Scriptlet.Proofs.Comparison
import Scriptlet.Proofs.Leaves
import Scriptlet.Proofs.Written

/-! A tree that is written as a script is read back. The scan of the text finds the tokens that the tree
was written with, and those tokens are read as the same tree. -/
namespace Scriptlet

def SExpr.IsShort : SExpr → Prop
  | .float _ => False
  | .int n => n.natAbs < 10 ^ Numeral.maxDigits
  | _ => True

namespace Node

theorem shortMember {xs : List Node} (short : ∀ v ∈ leavesAll xs, v.IsShort) {x : Node} (member : x ∈ xs) :
    ∀ v ∈ x.leaves, v.IsShort := fun v inside => short v (leavesOfMember member inside)

end Node

namespace Parse
open Token (Kind Bracket)
open Piece (commas names lines operator)
open Node (Fits)

section Phrases
variable {x : Node} {s rest : List Token}

theorem climbNone {links : List Link} (none : links = []) (least : Nat) (x : Node) :
    (climb least x links).val = (x, []) := by
  subst none
  rw [climb]

theorem chainTreeNone (x : Node) : chainTree x [] = x := by rw [chainTree, climbNone rfl]

theorem chainTreeOne (x : Node) (link : Link) : chainTree x [link] = link.join x link.operand := by
  have right := climbNone rfl (link.strength + 1) link.operand
  rw [chainTree, climb]
  simp only [Nat.not_lt_zero, if_false, right]
  rw [climbNone (congrArg Prod.snd right)]

theorem primaryOperand (primary : Reads (.primary x) s rest) (stop : Reads (.suffixes []) [] rest) :
    Reads (.operand x) s rest := by
  have whole := Reads.suffixed (b := []) primary stop
  rw [List.append_nil] at whole
  exact whole

theorem operandChain (operand : Reads (.operand x) s rest) (stop : Reads (.links []) [] rest) :
    Reads (.chain x) s rest := by
  have whole := Reads.chain (b := []) operand stop
  rw [List.append_nil, chainTreeNone] at whole
  exact whole

theorem operandExpression (operand : Reads (.operand x) s rest) (closes : Closes rest) :
    Reads (.expression x) s rest := .single (operandChain operand closes.noLink) (closes.not (by decide))

theorem primaryExpression (primary : Reads (.primary x) s rest) (closes : Closes rest) :
    Reads (.expression x) s rest := operandExpression (primaryOperand primary closes.noSuffix) closes

theorem primaryFinds {depth : Nat} (primary : Finds depth (.primary x) s rest)
    (plain : headKind (s ++ rest) ≠ .notOp ∧ headKind (s ++ rest) ≠ .minus) (closes : Closes rest) :
    Finds (depth + 2) (.expression x) s rest := by
  have noSuffix : Finds depth (.suffixes []) [] rest :=
    noSuffixFinds (closes.not (by decide)) (closes.not (by decide)) (closes.not (by decide))
  have noLink : Finds (depth + 1) (.links []) [] rest := by
    cases closes.noLink with
    | noLink stop => exact noLinkFinds stop
  have chain := chainFinds (b := []) (suffixedFinds (b := []) plain primary noSuffix) noLink
  rw [chainTreeNone, List.append_nil, List.append_nil] at chain
  exact singleFinds chain (closes.not (by decide))

end Phrases

/- Pieces that are read as the tree they were made of, if the tokens after them let them end. -/
def Recalls (pieces : List Piece) (x : Node) (phrase : Node → Phrase) (ends : List Token → Prop) : Prop :=
  ∀ tokens, Means pieces tokens →
    ∃ tree, tree.same x = true ∧ ∀ after, ends after → Reads (phrase tree) tokens after

def NoArrow (after : List Token) : Prop := headKind after ≠ .arrow

def Recalled : Node.Position → Node → Prop
  | .value, x => Recalls x.layout x .expression Closes
  | .statement, x => Recalls x.part x .statement Closes
  | .entry, x => Recalls x.part x .entry Closes
  | .body, x => Recalls x.part x .block fun _ => True

theorem partRecalls {x : Node} (fits : Fits .value x) (value : Recalled .value x) :
    Recalls x.part x .primary NoArrow := by
  intro tokens means
  rw [fits.part] at means
  obtain ⟨o, _, rfl, opening, _, rest⟩ := means.uncons rfl
  obtain ⟨a, _, rfl, inner, last⟩ := rest.append
  obtain ⟨c, _, rfl, closing, _, none⟩ := last.uncons rfl
  cases none.nil
  obtain ⟨tree, same, reads⟩ := value a inner
  refine ⟨tree, same, fun after noArrow => ?_⟩
  have closes : Closes (c :: after) := .cons (by simp [closing])
  have ahead : arrowAhead 0 (a ++ c :: after) = arrowAhead 0 (c :: after) :=
    nestsAhead (readsNests (reads _ closes) (o := []) rfl) 0 (c :: after)
  refine .group opening closing ?_ (reads _ closes)
  rw [ahead]
  cases after with
  | nil => simp [arrowAhead, closing]
  | cons t more => simpa [arrowAhead, closing, NoArrow, headKindCons] using noArrow

theorem Closes.noArrow {rest : List Token} (closes : Closes rest) : NoArrow rest := closes.not (by decide)

theorem commasRead {α β : Type} {item : α → List Token → List Token → Prop} {pieces : β → List Piece}
    {agrees : α → β → Prop} {closing : Kind} {bs : List β}
    (each : ∀ b ∈ bs, ∀ tokens, Means (pieces b) tokens → ∃ a, agrees a b ∧
      ∀ t rest, Token.kind t = closing ∨ t.kind = .comma → item a tokens (t :: rest))
    {tokens : List Token} (means : Means (commas (bs.map pieces) ++ [.mark closing]) tokens) :
    ∃ as, List.Forall₂ agrees as bs ∧ ∀ after, CommaList item closing as tokens after := by
  induction bs generalizing tokens with
  | nil =>
    obtain ⟨c, _, rfl, close, _, none⟩ := means.uncons rfl
    cases none.nil
    exact ⟨[], .nil, fun _ => .none close⟩
  | cons b bs ih =>
    obtain ⟨first, others⟩ := List.forall_mem_cons.mp each
    cases bs with
    | nil =>
      obtain ⟨used, _, rfl, head, last⟩ := Means.append means
      obtain ⟨c, _, rfl, close, _, none⟩ := last.uncons rfl
      cases none.nil
      obtain ⟨a, agree, reads⟩ := first used head
      exact ⟨[a], .cons agree .nil, fun after => .last close (reads c after (Or.inl close))⟩
    | cons b' bs =>
      have shape : commas ((b :: b' :: bs).map pieces) ++ [.mark closing] =
          pieces b ++ .mark .comma :: .blank :: (commas ((b' :: bs).map pieces) ++ [.mark closing]) := by
        simp [commas]
      rw [shape] at means
      obtain ⟨used, _, rfl, head, rest⟩ := means.append
      obtain ⟨c, more, rfl, comma, _, tail⟩ := rest.uncons rfl
      obtain ⟨as, agree', list⟩ := ih others tail.blank
      obtain ⟨a, agree, reads⟩ := first used head
      exact ⟨a :: as, .cons agree agree', fun after =>
        .more comma (reads c _ (Or.inr comma)) (list after)⟩

theorem itemsRecall {closing : Kind} (bracket : closing = .rparen ∨ closing = .rbracket) {xs : List Node}
    (each : ∀ x ∈ xs, Recalls x.part x .primary NoArrow) {tokens : List Token}
    (means : Means (commas (Node.layouts xs) ++ [.mark closing]) tokens) :
    ∃ trees, Node.sameAll trees xs = true ∧ ∀ after, Reads (.items closing trees) tokens after := by
  rw [Node.layoutsMap] at means
  have reads : ∀ x ∈ xs, ∀ tokens, Means x.part tokens → ∃ tree : Node, tree.same x = true ∧
      ∀ t rest, Token.kind t = closing ∨ t.kind = .comma → Reads (.expression tree) tokens (t :: rest) := by
    intro x member tokens means
    obtain ⟨tree, same, primary⟩ := each x member tokens means
    refine ⟨tree, same, fun t rest stop => ?_⟩
    have closes : Closes (t :: rest) := by
      refine .cons ?_
      rcases stop with stop | stop
      · rcases bracket with rfl | rfl <;> simp [stop]
      · simp [stop]
    exact primaryExpression (primary _ closes.noArrow) closes
  obtain ⟨trees, same, list⟩ := commasRead reads means
  exact ⟨trees, Node.sameAllOf same, fun after => itemsOfCommaList (list after)⟩

theorem namesRecall {params : List String} {tokens : List Token} (means : Means (names params) tokens) :
    ∃ o used words, tokens = o :: used ∧ o.kind = .lparen ∧ words.map Token.value = params ∧
      ∀ after, CommaList OneWord .rparen words used after := by
  obtain ⟨o, used, rfl, opening, _, rest⟩ := means.uncons rfl
  have reads : ∀ name ∈ params, ∀ tokens, Means [.word name] tokens → ∃ word : Token, word.value = name ∧
      ∀ t rest, Token.kind t = .rparen ∨ t.kind = .comma → OneWord word tokens (t :: rest) := by
    intro name _ tokens means
    obtain ⟨word, _, rfl, kind, value, none⟩ := means.uncons rfl
    cases none.nil
    exact ⟨word, value, fun _ _ _ => ⟨rfl, kind⟩⟩
  obtain ⟨words, agree, list⟩ := commasRead reads rest
  refine ⟨o, used, words, rfl, opening, ?_, list⟩
  clear list rest reads means
  induction agree with
  | nil => rfl
  | cons head _ ih => rw [List.map_cons, head, ih]

theorem namesAhead {words used after : List Token} (list : CommaList OneWord .rparen words used after)
    {arrow : Token} (mark : arrow.kind = .arrow) (rest : List Token) :
    arrowAhead 0 (used ++ arrow :: rest) = true := by
  induction list with
  | none close => simp [arrowAhead, close, mark]
  | last close head =>
    obtain ⟨rfl, word⟩ := head
    simp [arrowAhead, close, word, mark]
  | more comma head _ ih =>
    obtain ⟨rfl, word⟩ := head
    simpa [arrowAhead, comma, word] using ih

theorem noNewlines : Newlines [] := fun _ member => absurd member List.not_mem_nil

theorem entriesOfCommaList {trees : List Node} {used rest : List Token}
    (list : CommaList (fun x => Reads (.entry x)) .rbrace trees used rest) :
    Reads (.entries trees) used rest := by
  induction list with
  | none close => exact .noEntry close
  | last close head => exact .lastEntry close noNewlines head
  | more comma head _ ih => exact .oneEntry comma noNewlines noNewlines head ih

theorem entriesRecall {xs : List Node} (each : ∀ x ∈ xs, Recalled .entry x) {tokens : List Token}
    (means : Means (commas (Node.layouts xs) ++ [.mark .rbrace]) tokens) :
    ∃ trees, Node.sameAll trees xs = true ∧ ∀ after, Reads (.entries trees) tokens after := by
  rw [Node.layoutsMap] at means
  have reads : ∀ x ∈ xs, ∀ tokens, Means x.part tokens → ∃ tree : Node, tree.same x = true ∧
      ∀ t rest, Token.kind t = .rbrace ∨ t.kind = .comma → Reads (.entry tree) tokens (t :: rest) := by
    intro x member tokens means
    obtain ⟨tree, same, entry⟩ := each x member tokens means
    refine ⟨tree, same, fun t rest stop => entry _ (.cons ?_)⟩
    rcases stop with stop | stop <;> simp [stop]
  obtain ⟨trees, same, list⟩ := commasRead reads means
  exact ⟨trees, Node.sameAllOf same, fun after => entriesOfCommaList (list after)⟩

/- Every statement has a line of its own, so a newline ends it. -/
theorem statementsRecall {xs : List Node} (each : ∀ x ∈ xs, Recalled .statement x) {tokens : List Token}
    (means : Means (lines (Node.layouts xs) ++ [.mark .rbrace]) tokens) :
    ∃ trees, Node.sameAll trees xs = true ∧ ∀ after, Reads (.statements trees) tokens after := by
  induction xs generalizing tokens with
  | nil =>
    obtain ⟨c, _, rfl, close, _, none⟩ := means.uncons rfl
    cases none.nil
    exact ⟨[], rfl, fun _ => .noStatement close⟩
  | cons x xs ih =>
    obtain ⟨first, others⟩ := List.forall_mem_cons.mp each
    have shape : lines (Node.layouts (x :: xs)) ++ [.mark .rbrace] =
        x.part ++ .line :: (lines (Node.layouts xs) ++ [.mark .rbrace]) := by
      simp [Node.layoutsMap, lines]
    rw [shape] at means
    obtain ⟨used, _, rfl, head, rest⟩ := means.append
    obtain ⟨t, more, rfl, newline, _, tail⟩ := rest.uncons rfl
    obtain ⟨trees, same', list⟩ := ih others tail
    obtain ⟨tree, same, reads⟩ := first used head
    refine ⟨tree :: trees, by rw [Node.sameAll, same, same']; rfl, fun after => ?_⟩
    exact .oneStatement newline noNewlines (reads _ (.cons (by simp [newline]))) (list after)

theorem signMeans {op : String} (known : op ∈ Node.unaryOperators) :
    ∃ kind, (operator op).meaning? = some (kind, op) ∧ (kind = .notOp ∨ kind = .minus) := by
  have table : ∀ op ∈ Node.unaryOperators, ∃ kind ∈ [Kind.notOp, .minus],
      (operator op).meaning? = some (kind, op) := by decide
  obtain ⟨kind, listed, means⟩ := table op known
  exact ⟨kind, means, by simpa using listed⟩

theorem binaryMeans {op : String} (known : op ∈ Node.binaryOperators) :
    ∃ kind strength, (operator op).meaning? = some (kind, op) ∧ kind.precedence? = some strength ∧
      kind ≠ .andOp ∧ kind ≠ .orOp := by
  have table : ∀ op ∈ Node.binaryOperators, ∃ kind ∈ Kind.all, (operator op).meaning? = some (kind, op) ∧
      kind.precedence?.isSome = true ∧ kind ≠ .andOp ∧ kind ≠ .orOp := by decide
  obtain ⟨kind, _, means, binds, other⟩ := table op known
  obtain ⟨strength, binds⟩ := Option.isSome_iff_exists.mp binds
  exact ⟨kind, strength, means, binds, other⟩

theorem logicalMeans {op : String} (known : op ∈ Node.logicalOperators) :
    ∃ kind strength, (operator op).meaning? = some (kind, op) ∧ kind.precedence? = some strength ∧
      (kind = .andOp ∨ kind = .orOp) := by
  have table : ∀ op ∈ Node.logicalOperators, ∃ kind ∈ Kind.all, (operator op).meaning? = some (kind, op) ∧
      kind.precedence?.isSome = true ∧ (kind = .andOp ∨ kind = .orOp) := by decide
  obtain ⟨kind, _, means, binds, sort⟩ := table op known
  obtain ⟨strength, binds⟩ := Option.isSome_iff_exists.mp binds
  exact ⟨kind, strength, means, binds, sort⟩

theorem joinBinary {t : Token} (other : t.kind ≠ .andOp ∧ t.kind ≠ .orOp) (strength : Nat) (x y z : Node) :
    Link.join ⟨t, strength, z⟩ x y = .binary x.place t.value x y := by
  unfold Link.join
  split
  · exact absurd ‹_› other.1
  · exact absurd ‹_› other.2
  · rfl

theorem joinLogical {t : Token} (sort : t.kind = .andOp ∨ t.kind = .orOp) (strength : Nat) (x y z : Node) :
    Link.join ⟨t, strength, z⟩ x y = .logical x.place t.value x y := by
  unfold Link.join
  rcases sort with kind | kind <;> simp only [kind]

theorem pairRecalls {op : String} {kind : Kind} {strength : Nat}
    (meaning : (operator op).meaning? = some (kind, op)) (binds : kind.precedence? = some strength)
    {x y : Node} (left : Recalls x.part x .primary NoArrow) (right : Recalls y.part y .primary NoArrow)
    {tokens : List Token} (means : Means (x.part ++ .blank :: operator op :: .blank :: y.part) tokens) :
    ∃ t x' y', Token.kind t = kind ∧ t.value = op ∧ x'.same x = true ∧ y'.same y = true ∧
      ∀ after, Closes after → Reads (.expression (Link.join ⟨t, strength, y'⟩ x' y')) tokens after := by
  obtain ⟨a, _, rfl, first, rest⟩ := means.append
  obtain ⟨t, b, rfl, same, value, second⟩ := rest.blank.uncons meaning
  obtain ⟨x', sameX, readsX⟩ := left a first
  obtain ⟨y', sameY, readsY⟩ := right b second.blank
  refine ⟨t, x', y', same, value, sameX, sameY, fun after closes => ?_⟩
  have other {k : Kind} (free : k.precedence? = none) : headKind (t :: (b ++ after)) ≠ k := by
    rintro rfl
    rw [headKindCons, same, binds] at free
    cases free
  have target := primaryOperand (readsX _ (other rfl)) (.noSuffix (other rfl) (other rfl) (other rfl))
  have operand := primaryOperand (readsY _ closes.noArrow) closes.noSuffix
  have link : Reads (.links [⟨t, strength, y'⟩]) (t :: (b ++ [])) after :=
    .link (same ▸ binds) operand closes.noLink
  rw [List.append_nil] at link
  have chain := Reads.chain target link
  rw [chainTreeOne] at chain
  exact .single chain (closes.not (by decide))

theorem numberRecalls {n : Nat} (small : n < 10 ^ Numeral.maxDigits) {t : Token}
    (value : t.value = String.ofList (Nat.toDigits 10 n)) (rest : List Token) :
    number t rest = .ok (.int n, rest) := by
  have text : t.value.toList = Nat.toDigits 10 n := by rw [value, String.toList_ofList]
  have some : Nat.toDigits 10 n ≠ [] := List.ne_nil_of_length_pos Nat.length_toDigits_pos
  have valid : Numeral.Written.Valid ⟨false, Nat.toDigits 10 n, none, none⟩ :=
    ⟨⟨Numeral.plainToDigits n, some⟩, by simp, by simp⟩
  have read := Numeral.Written.reads valid
  have same : Numeral.Written.text ⟨false, Nat.toDigits 10 n, none, none⟩ = t.value.toList := by
    simp [text, Numeral.Written.text, Numeral.Written.signText, Numeral.Written.fractionText,
      Numeral.Written.exponentText]
  rw [same] at read
  have short := (Nat.length_toDigits_le_iff (by decide) (by decide)).mpr small
  rw [numberWhole read, if_neg (Nat.not_lt.mpr short), Numeral.valueToDigits]

theorem wordRecalls {p : Piece} {kind : Kind} {value : String} (meaning : p.meaning? = some (kind, value))
    {x : Node} (reads : ∀ t, Token.kind t = kind → t.value = value →
      ∃ tree, tree.same x = true ∧ ∀ after, NoArrow after → Reads (.primary tree) [t] after) :
    Recalls [p] x .expression Closes := by
  intro tokens means
  obtain ⟨t, _, rfl, same, value, none⟩ := means.uncons meaning
  cases none.nil
  obtain ⟨tree, same, primary⟩ := reads t same value
  exact ⟨tree, same, fun after closes => primaryExpression (primary _ closes.noArrow) closes⟩

theorem arrowRecalls {p : Place} {params : List String} {x : Node}
    (inner : Recalls x.part x .body Closes) : Recalled .value (.arrow p params x) := by
  intro tokens means
  rw [Node.layout] at means
  obtain ⟨_, _, rfl, front, rest⟩ := means.append
  obtain ⟨arrow, b, rfl, mark, _, tail⟩ := rest.blank.uncons rfl
  obtain ⟨o, a, words, rfl, opening, same, list⟩ := namesRecall front
  obtain ⟨body, sameBody, reads⟩ := inner b tail.blank
  refine ⟨.arrow o.place (words.map Token.value) body, by simp [Node.same, same, sameBody], fun after closes => ?_⟩
  have ahead := namesAhead (list []) mark (b ++ after)
  have names := namesOfCommaList (list (arrow :: (b ++ after)))
  exact primaryExpression (.arrowOfNames opening mark ahead names (reads after closes)) closes

theorem suffixRecalls {x : Node} (target : Recalls x.part x .primary NoArrow) {pieces : List Piece}
    {tokens : List Token} (means : Means (x.part ++ pieces) tokens) {result : Node}
    (suffix : ∀ tokens, Means pieces tokens → ∃ suffix, (∀ x', x'.same x = true →
        (Suffix.apply x' suffix).same result = true) ∧ NoArrow tokens ∧ tokens ≠ [] ∧
      ∀ after, Closes after → Reads (.suffixes [suffix]) tokens after) :
    ∃ tree, tree.same result = true ∧ ∀ after, Closes after → Reads (.expression tree) tokens after := by
  obtain ⟨a, b, rfl, first, rest⟩ := means.append
  obtain ⟨x', same, reads⟩ := target a first
  obtain ⟨suffix, apply, noArrow, some, more⟩ := suffix b rest
  obtain ⟨t, b, rfl⟩ := List.exists_cons_of_ne_nil some
  refine ⟨_, apply x' same, fun after closes => ?_⟩
  exact operandExpression (.suffixed (reads _ noArrow) (more after closes)) closes

theorem valueBody {x : Node} (fits : Fits .value x) (part : Recalls x.part x .primary NoArrow) :
    Recalls x.part x .body Closes := by
  intro tokens means
  obtain ⟨tree, same, reads⟩ := part tokens means
  rw [fits.part] at means
  obtain ⟨o, more, rfl, opening, _, _⟩ := means.uncons rfl
  refine ⟨tree, same, fun after closes => ?_⟩
  have start : headKind ((o :: more) ++ after) ≠ .lbrace := by
    rw [List.cons_append, headKindCons, opening]
    decide
  have body := Reads.expressionBody noNewlines start (primaryExpression (reads after closes.noArrow) closes)
  rwa [List.nil_append] at body

theorem blockBody {x : Node} (block : Recalled .body x) : Recalls x.part x .body Closes := by
  intro tokens means
  obtain ⟨tree, same, reads⟩ := block tokens means
  refine ⟨tree, same, fun after _ => ?_⟩
  have body := Reads.blockBody noNewlines (reads after trivial)
  rwa [List.nil_append] at body

theorem fitsRecalled {position : Node.Position} {x : Node} (fits : Fits position x)
    (short : ∀ v ∈ x.leaves, v.IsShort) : Recalled position x := by
  induction fits with
  | number unsigned =>
    rw [Node.leaves] at short
    cases unsigned with
    | int n =>
      have small : SExpr.IsShort (.int n) := short _ List.mem_cons_self
      refine wordRecalls (p := .number n) rfl fun t kind value => ?_
      refine ⟨_, ?_, fun after _ => .number kind (numberRecalls small value after)⟩
      simp [Node.same, SExpr.same, SExpr.quantity?]
    | float code => exact (short _ List.mem_cons_self).elim
  | @string _ s =>
    refine wordRecalls (p := .string s) rfl fun t kind value => ⟨_, ?_, fun after _ => .string kind⟩
    simp [Node.same, SExpr.same, value]
  | @bool _ b =>
    cases b with
    | true =>
      refine wordRecalls (p := .mark .trueWord) rfl fun t kind _ => ⟨_, ?_, fun after _ => .truth kind⟩
      simp [Node.same, SExpr.same, SExpr.quantity?]
    | false =>
      refine wordRecalls (p := .mark .falseWord) rfl fun t kind _ => ⟨_, ?_, fun after _ => .falsity kind⟩
      simp [Node.same, SExpr.same, SExpr.quantity?]
  | null =>
    refine wordRecalls (p := .mark .nullWord) rfl fun t kind _ => ⟨_, ?_, fun after _ => .null kind⟩
    simp [Node.same, SExpr.same]
  | @ident _ name word =>
    refine wordRecalls (p := .word name) rfl fun t kind value => ⟨_, ?_, fun after noArrow => .ident kind noArrow⟩
    simp [Node.same, value]
  | unary known operand ih =>
    intro tokens means
    rw [Node.leaves] at short
    obtain ⟨kind, meaning, sign⟩ := signMeans known
    rw [Node.layout] at means
    obtain ⟨t, a, rfl, same, value, rest⟩ := means.uncons meaning
    obtain ⟨x', sameX, reads⟩ := partRecalls operand (ih short) a rest
    refine ⟨.unary t.place t.value x', by simp [Node.same, value, sameX], fun after closes => ?_⟩
    have inner := primaryOperand (reads _ closes.noArrow) closes.noSuffix
    exact operandExpression (.sign (by rwa [same]) inner) closes
  | binary known left right ih ih' =>
    intro tokens means
    rw [Node.leaves] at short
    obtain ⟨shortLeft, shortRight⟩ := List.forall_mem_append.mp short
    obtain ⟨kind, strength, meaning, binds, other⟩ := binaryMeans known
    rw [Node.layout] at means
    obtain ⟨t, x', y', same, value, sameX, sameY, reads⟩ := pairRecalls meaning binds
      (partRecalls left (ih shortLeft)) (partRecalls right (ih' shortRight)) means
    rw [joinBinary (same ▸ other)] at reads
    exact ⟨_, by simp [Node.same, value, sameX, sameY], reads⟩
  | logical known left right ih ih' =>
    intro tokens means
    rw [Node.leaves] at short
    obtain ⟨shortLeft, shortRight⟩ := List.forall_mem_append.mp short
    obtain ⟨kind, strength, meaning, binds, sort⟩ := logicalMeans known
    rw [Node.layout] at means
    obtain ⟨t, x', y', same, value, sameX, sameY, reads⟩ := pairRecalls meaning binds
      (partRecalls left (ih shortLeft)) (partRecalls right (ih' shortRight)) means
    rw [joinLogical (same ▸ sort)] at reads
    exact ⟨_, by simp [Node.same, value, sameX, sameY], reads⟩
  | ternary cond yes no ih ih' ih'' =>
    intro tokens means
    rw [Node.leaves] at short
    obtain ⟨shortCond, shortRest⟩ := List.forall_mem_append.mp short
    obtain ⟨shortYes, shortNo⟩ := List.forall_mem_append.mp shortRest
    rw [Node.layout] at means
    obtain ⟨a, _, rfl, first, rest⟩ := means.append
    obtain ⟨q, _, rfl, mark, _, rest⟩ := rest.blank.uncons rfl
    obtain ⟨b, _, rfl, second, rest⟩ := rest.blank.append
    obtain ⟨c, d, rfl, colon, _, third⟩ := rest.blank.uncons rfl
    obtain ⟨x', sameX, readsX⟩ := partRecalls cond (ih shortCond) a first
    obtain ⟨y', sameY, readsY⟩ := partRecalls yes (ih' shortYes) b second
    obtain ⟨z', sameZ, readsZ⟩ := partRecalls no (ih'' shortNo) d third.blank
    refine ⟨.ternary x'.place x' y' z', by simp [Node.same, sameX, sameY, sameZ], fun after closes => ?_⟩
    have other {k : Kind} (free : k ≠ .question) : headKind (q :: (b ++ c :: (d ++ after))) ≠ k := by
      rw [headKindCons, mark]
      exact free.symm
    have closesYes : Closes (c :: (d ++ after)) := .cons (by simp [colon])
    have target := primaryOperand (readsX _ (other (by decide)))
      (.noSuffix (other (by decide)) (other (by decide)) (other (by decide)))
    refine .choice mark colon (operandChain target (.noLink ?_))
      (primaryExpression (readsY _ closesYes.noArrow) closesYes)
      (primaryExpression (readsZ _ closes.noArrow) closes)
    rw [headKindCons, mark]
    rfl
  | array elements ih =>
    intro tokens means
    rw [Node.leaves] at short
    rw [Node.layout] at means
    obtain ⟨o, a, rfl, opening, _, rest⟩ := means.uncons rfl
    obtain ⟨trees, same, reads⟩ := itemsRecall (Or.inr rfl) (fun x member =>
      partRecalls (elements x member) (ih x member (Node.shortMember short member))) rest
    refine ⟨.array o.place trees, by simp [Node.same, same], fun after closes => ?_⟩
    exact primaryExpression (.array opening (reads after)) closes
  | object entries ih =>
    intro tokens means
    rw [Node.leaves] at short
    rw [Node.layout] at means
    obtain ⟨o, a, rfl, opening, _, rest⟩ := means.uncons rfl
    obtain ⟨trees, same, reads⟩ := entriesRecall (fun x member =>
      ih x member (Node.shortMember short member)) rest
    refine ⟨.object o.place trees, by simp [Node.same, same], fun after closes => ?_⟩
    exact primaryExpression (.object opening noNewlines (reads after)) closes
  | arrow words result ih =>
    rw [Node.leaves] at short
    have shortBody := (List.forall_mem_append.mp short).2
    exact arrowRecalls (valueBody result (partRecalls result (ih shortBody)))
  | arrowOfBlock words body ih =>
    rw [Node.leaves] at short
    have shortBody := (List.forall_mem_append.mp short).2
    exact arrowRecalls (blockBody (ih shortBody))
  | call callee args ih ih' =>
    intro tokens means
    rw [Node.leaves] at short
    obtain ⟨shortCallee, shortArgs⟩ := List.forall_mem_append.mp short
    rw [Node.layout] at means
    refine suffixRecalls (partRecalls callee (ih shortCallee)) means fun tokens means => ?_
    obtain ⟨o, a, rfl, opening, _, rest⟩ := means.uncons rfl
    obtain ⟨trees, same, reads⟩ := itemsRecall (Or.inl rfl) (fun x member =>
      partRecalls (args x member) (ih' x member (Node.shortMember shortArgs member))) rest
    refine ⟨.arguments trees, fun x' sameX => by simp [Suffix.apply, Node.same, sameX, same],
      by simp [NoArrow, headKindCons, opening], List.cons_ne_nil _ _, fun after closes => ?_⟩
    have suffix := Reads.call (b := []) opening (reads _) closes.noSuffix
    rwa [List.append_nil] at suffix
  | index target key ih ih' =>
    intro tokens means
    rw [Node.leaves] at short
    obtain ⟨shortTarget, shortKey⟩ := List.forall_mem_append.mp short
    rw [Node.indexLayout] at means
    refine suffixRecalls (partRecalls target (ih shortTarget)) means fun tokens means => ?_
    obtain ⟨o, _, rfl, opening, _, rest⟩ := means.uncons rfl
    obtain ⟨a, _, rfl, inner, last⟩ := rest.append
    obtain ⟨c, _, rfl, closing, _, none⟩ := last.uncons rfl
    cases none.nil
    obtain ⟨y', sameY, reads⟩ := partRecalls key (ih' shortKey) a inner
    refine ⟨.index y', fun x' sameX => by simp [Suffix.apply, Node.same, sameX, sameY],
      by simp [NoArrow, headKindCons, opening], List.cons_ne_nil _ _, fun after closes => ?_⟩
    have closesKey : Closes (c :: ([] ++ after)) := .cons (by simp [closing])
    exact .index opening closing (primaryExpression (reads _ closesKey.noArrow) closesKey) closes.noSuffix
  | name target word ih =>
    intro tokens means
    rw [Node.leaves] at short
    have shortTarget := (List.forall_mem_append.mp short).1
    rw [Node.layout] at means
    refine suffixRecalls (partRecalls target (ih shortTarget)) means fun tokens means => ?_
    obtain ⟨dot, _, rfl, mark, _, rest⟩ := means.uncons rfl
    obtain ⟨t, _, rfl, kind, value, none⟩ := rest.uncons rfl
    cases none.nil
    refine ⟨.name t, fun x' sameX => by simp [Suffix.apply, Node.same, SExpr.same, sameX, value],
      by simp [NoArrow, headKindCons, mark], List.cons_ne_nil _ _, fun after closes => ?_⟩
    exact .name mark kind closes.noSuffix
  | method word words body ih =>
    intro tokens means
    rw [Node.leaves] at short
    have shortBody := (List.forall_mem_append.mp (List.forall_mem_cons.mp short).2).2
    rw [Node.propertyPart, Node.layout] at means
    obtain ⟨key, _, rfl, kind, value, rest⟩ := means.uncons rfl
    obtain ⟨_, b, rfl, front, last⟩ := rest.append
    obtain ⟨o, a, names, rfl, opening, same, list⟩ := namesRecall front
    obtain ⟨tree, sameBody, reads⟩ := ih shortBody b last.blank
    refine ⟨_, ?_, fun after _ =>
      .method (Or.inl kind) opening noNewlines (namesOfCommaList (list _)) (reads after trivial)⟩
    simp [Node.same, value, same, sameBody]
  | plain word fits ih =>
    intro tokens means
    rw [Node.leaves] at short
    have shortValue := (List.forall_mem_append.mp (List.forall_mem_cons.mp short).2).2
    rw [Node.propertyPart, Node.layout] at means
    obtain ⟨key, _, rfl, kind, value, rest⟩ := means.uncons rfl
    obtain ⟨colon, a, rfl, mark, _, rest⟩ := rest.uncons rfl
    obtain ⟨tree, same, reads⟩ := partRecalls fits (ih shortValue) a rest.blank
    refine ⟨_, ?_, fun after closes =>
      .plain (Or.inl kind) mark (primaryExpression (reads _ closes.noArrow) closes)⟩
    simp [Node.same, value, same]
  | block statements ih =>
    intro tokens means
    rw [Node.leaves] at short
    rw [Node.blockPart, Node.layout] at means
    obtain ⟨o, a, rfl, opening, _, rest⟩ := means.uncons rfl
    obtain ⟨trees, same, reads⟩ := statementsRecall (fun x member =>
      ih x member (Node.shortMember short member)) rest.fold
    refine ⟨.block o.place trees, by simp [Node.same, same], fun after _ => ?_⟩
    exact .block opening noNewlines (reads after)
  | assignment word fits ih =>
    intro tokens means
    rw [Node.leaves] at short
    have shortValue := (List.forall_mem_cons.mp short).2
    rw [Node.assignmentPart, Node.layout] at means
    obtain ⟨t, _, rfl, kind, value, rest⟩ := means.uncons rfl
    obtain ⟨equals, a, rfl, mark, _, rest⟩ := rest.blank.uncons rfl
    obtain ⟨tree, same, reads⟩ := partRecalls fits (ih shortValue) a rest.blank
    refine ⟨_, ?_, fun after closes =>
      .assignment kind mark (primaryExpression (reads _ closes.noArrow) closes)⟩
    simp [Node.same, value, same]
  | expression value ih =>
    intro tokens means
    obtain ⟨tree, same, reads⟩ := partRecalls value (ih short) tokens means
    exact ⟨tree, same, fun after closes => .expression (primaryExpression (reads _ closes.noArrow) closes)⟩

theorem writtenTokens {x : Node} (fits : Fits .value x) :
    ∃ stream, tokenize x.written = .ok stream ∧ Means x.layout stream.body := by
  obtain ⟨last, recovers⟩ := fits.recovered ⟨[], none⟩ [] .nil
  have text : (Token.Scanner.start x.written.toList).rest = Piece.textAll x.layout ++ [] := by
    rw [List.append_nil, Node.written, String.toList_ofList]
    rfl
  obtain ⟨tokens, final, path, _, rest, means⟩ := recovers (Token.Scanner.start x.written.toList) rfl text
  exact ⟨⟨tokens, final.endToken⟩, Token.tokenizePath path rest, means⟩

theorem parseUndoesWriting {x : Node} (fits : Fits .value x) (short : ∀ v ∈ x.leaves, v.IsShort) :
    ∃ stream tree, tokenize x.written = .ok stream ∧ tree.same x = true ∧
      (∀ depth, ¬ TooDeep depth x.written → parse depth x.written = .ok tree) ∧
      Eventually fun depth => program depth stream.body = .ok (tree, []) := by
  obtain ⟨stream, tokens, means⟩ := writtenTokens fits
  obtain ⟨tree, same, reads⟩ := fitsRecalled fits short stream.body means
  have whole := reads [] (.newlines noNewlines)
  have program : ReadsProgram tree stream.body := by
    refine ⟨[], stream.body, [], by simp, noNewlines, noNewlines, ?_, whole⟩
    exact headNot (expressionHead whole) rfl
  exact ⟨stream, tree, tokens, same, foundUnlessDeep tokens program, programFinds program⟩

def ledger : Node :=
  let p : Place := default
  .arrow p ["a", "b"] (.block p [
    .assignment p "n" (.binary p "/" (.ident p "a") (.literal p .number (.int 20))),
    .call p (.member p (.ident p "b") (.literal p .string (.str "add")) false) [
      .object p [.property p "k" false [] (.unary p "!" (.logical p "||" (.ident p "n") (.literal p .null .null))),
        .property p "m" true ["c"] (.block p [])],
      .literal p .string (.str "a\"\\\n")]])

theorem ledgerFits : Fits .value ledger := by
  have name {text : String} (key : isKey text = true) : Node.IsName text := (isKeyIff text).mp key
  refine .arrowOfBlock ?_ (.block ?_)
  · simp only [List.forall_mem_cons]
    exact ⟨name (by decide), name (by decide), by simp⟩
  · simp only [List.forall_mem_cons]
    refine ⟨.assignment (name (by decide)) (.binary (by decide) (.ident (name (by decide))) (.number (.int 20))),
      .expression (.call (.name (.ident (name (by decide))) (name (by decide))) ?_), by simp⟩
    simp only [List.forall_mem_cons]
    refine ⟨.object ?_, .string, by simp⟩
    simp only [List.forall_mem_cons]
    refine ⟨.plain (name (by decide))
        (.unary (by decide) (.logical (by decide) (.ident (name (by decide))) .null)),
      .method (name (by decide)) ?_ (.block (by simp)), by simp⟩
    exact List.forall_mem_singleton.mpr (name (by decide))

theorem ledgerShort : ∀ v ∈ ledger.leaves, v.IsShort := by
  have small : 20 < 10 ^ Numeral.maxDigits :=
    Nat.lt_of_lt_of_le (by decide) (Nat.pow_le_pow_right (by decide) (show 2 ≤ Numeral.maxDigits by decide))
  simp [ledger, Node.leaves, Node.leavesAll, SExpr.IsShort, small]

def ledgerText : String :=
  "(a, b) => \x7b\nn = ((a) / (20))\n(((b).add)((\x7bk: (!((n) || (null))), m(c) \x7b\n\x7d\x7d), " ++
    "(\"a\\\"\\\\\\n\")))\n\x7d"

theorem parseUndoesWritingLedger :
    Fits .value ledger ∧ (∀ v ∈ ledger.leaves, v.IsShort) ∧ ledger.written = ledgerText ∧
      ∃ tree, parse 20 ledger.written = .ok tree ∧ tree.same ledger = true := by
  have text : ledger.written = ledgerText := by decide +kernel
  have accepted : (parse 20 ledgerText).toOption.isSome = true := by decide +kernel
  have shallow : ¬ TooDeep 20 ledger.written := by
    rintro ⟨e, failed, _⟩
    rw [← text, failed] at accepted
    cases accepted
  obtain ⟨_, tree, _, same, parsed, _⟩ := parseUndoesWriting ledgerFits ledgerShort
  exact ⟨ledgerFits, ledgerShort, text, tree, parsed 20 shallow, same⟩

end Parse

end Scriptlet
