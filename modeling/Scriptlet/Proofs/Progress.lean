import Scriptlet.Proofs.ParserBlame

/-! Parsers get on. Every rule of the grammar that succeeds has read a token, and so has every turn of a
repetition that lets another turn follow. -/
namespace Scriptlet.Parse
open Token (Kind)

variable {α β : Type}

def ProceedsAt (p : Parser α) (s : List Token) : Prop := ∀ a rest, p s = .ok (a, rest) → rest.length < s.length

def Proceeds (p : Parser α) : Prop := ∀ s, ProceedsAt p s

structure Forward (p : Parser α) : Prop where
  tidy : Tidy p
  proceeds : Proceeds p

def Advances (turn : Parser (Reader.Turn α)) : Prop :=
  ∀ s a rest, turn s = .ok (.more a, rest) → rest.length < s.length

structure Unstuck (turn : Parser (Reader.Turn α)) : Prop where
  advances : Advances turn
  plain : Reader.collect turn = do
    match ← turn with
    | .stop => pure []
    | .last a => pure [a]
    | .more a => return a :: (← Reader.collect turn)

structure LoopsUnstuck (depth : Nat) : Prop where
  names : Unstuck (commaTurn .rparen (expectAs .ident "parameter name"))
  items : ∀ closing, Unstuck (commaTurn closing (expression depth))
  statements : Unstuck (statementTurn (expression depth))
  entries : Unstuck (propertyTurn (expression depth))
  suffixes : Unstuck (suffixTurn (expression depth))
  links : ∀ least, Unstuck (linkTurn (unary depth) least)

namespace Proceeds

theorem fail (cause : Cause) : Proceeds (fail cause : Parser α) := fun _ _ _ ok => absurd ok failOk

theorem unexpected (what : String) : Proceeds (unexpected what : Parser α) := fail _

theorem bind {p : Parser α} {f : α → Parser β} (first : Proceeds p) (next : ∀ a, Tidy (f a)) :
    Proceeds (p >>= f) := by
  intro s b rest ok
  obtain ⟨a, middle, head, tail⟩ := Reader.bindOk.mp ok
  exact Nat.lt_of_le_of_lt ((next a middle).ok b rest tail).length_le (first s a middle head)

theorem after {p : Parser α} {f : α → Parser β} (first : Tidy p) (next : ∀ a, Proceeds (f a)) :
    Proceeds (p >>= f) := by
  intro s b rest ok
  obtain ⟨a, middle, head, tail⟩ := Reader.bindOk.mp ok
  exact Nat.lt_of_lt_of_le (next a middle b rest tail) ((first s).ok a middle head).length_le

theorem ite {c : Prop} [Decidable c] {p q : Parser α} (yes : Proceeds p) (no : Proceeds q) :
    Proceeds (if c then p else q) := by
  split
  · exact yes
  · exact no

theorem expectAs (kind : Kind) (what : String) : Proceeds (expectAs kind what) := by
  intro s t rest ok
  obtain ⟨rfl, _⟩ := expectAsOk.mp ok
  exact Nat.lt_succ_self _

end Proceeds

theorem ProceedsAt.drop {t : Token} {s : List Token} {f : Unit → Parser α}
    (next : ∀ a rest, f () s = .ok (a, rest) → rest <:+ s) : ProceedsAt (Reader.drop >>= f) (t :: s) := by
  intro a rest ok
  obtain ⟨_, _, ⟨⟩, tail⟩ := Reader.bindOk.mp ok
  exact Nat.lt_succ_of_le (next a rest tail).length_le

namespace Advances

theorem stop : Advances (pure .stop : Parser (Reader.Turn α)) := fun _ _ _ ok => by cases ok

theorem ofProceeds {turn : Parser (Reader.Turn α)} (proceeds : Proceeds turn) : Advances turn :=
  fun s a rest ok => proceeds s (.more a) rest ok

theorem after {p : Parser α} {f : α → Parser (Reader.Turn β)} (first : Tidy p) (next : ∀ a, Advances (f a)) :
    Advances (p >>= f) := by
  intro s b rest ok
  obtain ⟨a, middle, head, tail⟩ := Reader.bindOk.mp ok
  exact Nat.lt_of_lt_of_le (next a middle b rest tail) ((first s).ok a middle head).length_le

theorem ite {c : Prop} [Decidable c] {p q : Parser (Reader.Turn α)} (yes : Advances p) (no : Advances q) :
    Advances (if c then p else q) := by
  split
  · exact yes
  · exact no

/- No turn is taken for the last one because it read nothing. -/
theorem unstuck {turn : Parser (Reader.Turn α)} (advances : Advances turn) : Unstuck turn := by
  refine ⟨advances, ?_⟩
  funext s
  show Reader.collectFrom turn s = Reader.bind turn _ s
  rw [Reader.collectFrom]
  unfold Reader.bind
  cases head : turn s with
  | error f => rfl
  | ok found =>
    obtain ⟨result, rest⟩ := found
    cases result with
    | stop => rfl
    | last a => rfl
    | more a =>
      simp only [if_pos (advances s a rest head)]
      show _ = Reader.bind (Reader.collectFrom turn) _ rest
      unfold Reader.bind
      cases Reader.collectFrom turn rest <;> rfl

end Advances

theorem commaTurnAdvances {item : Parser α} (forward : Forward item) (closing : Kind) :
    Advances (commaTurn closing item) := by
  refine Advances.after .nextKind fun _ => .ite .stop (.ofProceeds ?_)
  exact .bind forward.proceeds fun _ => .bind (.take _) fun _ => .ite (.pure _) (.pure _)

theorem bracketedProceeds {item : Parser α} (tidy : Tidy item) (opening closing : Kind) :
    Proceeds (bracketed opening closing item) :=
  .bind (.expectAs _ _) fun _ => .bind (commaTurnTidy tidy closing).collect fun _ =>
    .bind (.expectAs _ _) fun _ => .pure _

theorem expectAsForward (kind : Kind) (what : String) : Forward (expectAs kind what) :=
  ⟨.expectAs kind what, .expectAs kind what⟩

theorem paramsForward : Forward params :=
  ⟨paramsTidy, .bind (bracketedProceeds (.expectAs _ _) _ _) fun _ => .pure _⟩

section Rules
variable {expr : Parser Node} (forward : Forward expr)
include forward

theorem callArgsForward : Forward (callArgs expr) :=
  ⟨callArgsTidy forward.tidy, .bind (bracketedProceeds forward.tidy _ _) fun _ => .pure _⟩

theorem arrayForward : Forward (array expr) :=
  ⟨arrayTidy forward.tidy, .bind (bracketedProceeds forward.tidy _ _) fun _ => .pure _⟩

theorem assignForward : Forward (assign expr) :=
  ⟨assignTidy forward.tidy,
    .bind (.expectAs _ _) fun _ => .bind (.expectAs _ _) fun _ => .bind forward.tidy fun _ => .pure _⟩

theorem statementForward : Forward (statement expr) := by
  refine ⟨statementTidy forward.tidy, .after .ahead fun ahead => ?_⟩
  match ahead with
  | [] => exact forward.proceeds
  | [_] => exact forward.proceeds
  | _ :: _ :: _ => exact .ite (assignForward forward).proceeds forward.proceeds

theorem statementTurnAdvances : Advances (statementTurn expr) := by
  refine Advances.after .nextKind fun _ => .ite .stop (.ofProceeds ?_)
  refine .bind (statementForward forward).proceeds fun _ => .bind .nextKind fun kind => ?_
  split
  · exact .bind .skipNewlines fun _ => .pure _
  · exact .pure _
  · exact .unexpected _

theorem blockForward : Forward (block expr) :=
  ⟨blockTidy forward.tidy, .bind (.expectAs _ _) fun _ => .bind .skipNewlines fun _ =>
    .bind (statementTurnTidy forward.tidy).collect fun _ => .bind (.expectAs _ _) fun _ => .pure _⟩

theorem arrowForward (params : List String) (place : Place) : Forward (arrow expr params place) :=
  ⟨arrowTidy forward.tidy params place, .bind (.expectAs _ _) fun _ => .bind .skipNewlines fun _ =>
    .bind .nextKind fun _ => .ite (.bind (blockTidy forward.tidy) fun _ => .pure _)
      (.bind forward.tidy fun _ => .pure _)⟩

theorem propertyForward : Forward (property expr) := by
  refine ⟨propertyTidy forward.tidy, .after .peek fun next => ?_⟩
  match next with
  | none => exact .unexpected _
  | some key =>
    refine .ite (.unexpected _) (.ite (.fail _) (.after .drop fun _ => .after .nextKind fun kind => ?_))
    split
    · exact .bind paramsForward.proceeds fun _ => .bind .skipNewlines fun _ =>
        .bind (blockTidy forward.tidy) fun _ => .pure _
    · exact .after .drop fun _ => .bind forward.proceeds fun _ => .pure _
    · exact .unexpected _

theorem propertyTurnAdvances : Advances (propertyTurn expr) := by
  refine Advances.after .nextKind fun _ => .ite .stop (.ofProceeds ?_)
  exact .bind (propertyForward forward).proceeds fun _ => .bind .skipNewlines fun _ =>
    .bind (.take _) fun _ => .ite (.bind .skipNewlines fun _ => .pure _) (.pure _)

theorem objectForward : Forward (object expr) :=
  ⟨objectTidy forward.tidy, .bind (.expectAs _ _) fun _ => .bind .skipNewlines fun _ =>
    .bind (propertyTurnTidy forward.tidy).collect fun _ => .bind (.expectAs _ _) fun _ => .pure _⟩

theorem primaryForward : Forward (primary expr) := by
  refine ⟨primaryTidy forward.tidy, fun s a left ok => ?_⟩
  unfold primary at ok
  rw [bindStep (aheadApply s)] at ok
  match s with
  | [] => exact absurd ok failOk
  | token :: rest =>
    revert a left
    show ProceedsAt _ (token :: rest)
    simp only
    have literal (tree : Node) : ProceedsAt (do Reader.drop; pure tree) (token :: rest) :=
      .drop ((Tidy.pure tree) rest).ok
    split
    · refine .drop fun a left ok => ?_
      obtain ⟨v, middle, value, ⟨⟩⟩ := Reader.bindOk.mp ok
      rcases numberCases token rest with ⟨_, found⟩ | ⟨_, found⟩
      · cases value.symm.trans found
        exact List.suffix_refl rest
      · cases value.symm.trans found
    · exact literal _
    · exact literal _
    · exact literal _
    · exact literal _
    · exact .drop (Tidy.ite (arrowTidy forward.tidy _ _) (.pure _) rest).ok
    · exact Proceeds.ite (.bind paramsForward.proceeds fun _ => arrowTidy forward.tidy _ _)
        (.after .drop fun _ => .bind forward.proceeds fun _ => .bind (.expectAs _ _) fun _ => .pure _) _
    · exact (arrayForward forward).proceeds _
    · exact (objectForward forward).proceeds _
    · exact Proceeds.unexpected _ _

theorem suffixTurnAdvances : Advances (suffixTurn expr) := by
  refine Advances.after .nextKind fun kind => ?_
  split
  · exact .ofProceeds (.after .drop fun _ => .bind (.expectAs _ _) fun _ => .pure _)
  · exact .ofProceeds (.after .drop fun _ => .bind forward.proceeds fun _ => .bind (.expectAs _ _) fun _ => .pure _)
  · exact .ofProceeds (.bind (callArgsForward forward).proceeds fun _ => .pure _)
  · exact .stop

theorem suffixedForward : Forward (suffixed expr) :=
  ⟨suffixedTidy forward.tidy, .bind (primaryForward forward).proceeds fun _ =>
    .bind (suffixTurnTidy forward.tidy).collect fun _ => .pure _⟩

variable {operand : Parser Node} (inner : Forward operand)
include inner

theorem signedForward : Forward (signed operand expr) := by
  refine ⟨signedTidy forward.tidy inner.tidy, .after .peek fun next => ?_⟩
  match next with
  | none => exact (suffixedForward forward).proceeds
  | some op =>
    exact .ite (.after .drop fun _ => .bind inner.proceeds fun _ => .pure _) (suffixedForward forward).proceeds

omit forward in
theorem linkTurnAdvances (least : Int) : Advances (linkTurn operand least) := by
  refine Advances.after .peek fun next => ?_
  match next with
  | none => exact .stop
  | some op =>
    simp only
    split
    · exact .stop
    · exact .ite .stop (.ofProceeds (.after .drop fun _ => .bind inner.proceeds fun _ => .pure _))

omit forward in
theorem chainForward (least : Int) : Forward (chain operand least) :=
  ⟨chainTidy inner.tidy least, .bind inner.proceeds fun _ =>
    .bind (linkTurnTidy inner.tidy least).collect fun _ => .pure _⟩

theorem choiceForward : Forward (choice operand expr) :=
  ⟨choiceTidy forward.tidy inner.tidy, .bind (chainForward inner 1).proceeds fun _ => .bind (.take _) fun _ =>
    .ite (.bind forward.tidy fun _ => .bind (.expectAs _ _) fun _ => .bind forward.tidy fun _ => .pure _)
      (.pure _)⟩

end Rules

theorem budgetForward (depth : Nat) : Forward (expression depth) ∧ Forward (unary depth) := by
  induction depth with
  | zero => exact ⟨⟨(budgetTidy 0).1, .fail _⟩, ⟨(budgetTidy 0).2, .fail _⟩⟩
  | succ depth ih => exact ⟨choiceForward ih.1 ih.2, signedForward ih.1 ih.2⟩

theorem programForward (depth : Nat) : Forward (program depth) := by
  refine ⟨programTidy depth, .after .skipNewlines fun _ => .bind (fun s tree rest ok => ?_) fun _ =>
    .bind .skipNewlines fun _ => .bind .nextKind fun _ => .ite (.pure _) (.unexpected _)⟩
  split at ok
  · cases ok
  · exact (budgetForward depth).1.proceeds s tree rest ok

theorem loopsUnstuck (depth : Nat) : LoopsUnstuck depth := by
  obtain ⟨forward, inner⟩ := budgetForward depth
  exact {
    names := (commaTurnAdvances (expectAsForward _ _) _).unstuck
    items := fun closing => (commaTurnAdvances forward closing).unstuck
    statements := (statementTurnAdvances forward).unstuck
    entries := (propertyTurnAdvances forward).unstuck
    suffixes := (suffixTurnAdvances forward).unstuck
    links := fun least => (linkTurnAdvances inner least).unstuck }

end Scriptlet.Parse
