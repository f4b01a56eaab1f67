import Scriptlet.Proofs.Reading

/-! Where parsers stop. A parser leaves an end of the tokens that it was given, whether it fails or not,
and it complains about a number only right after it has read that number. -/
namespace Scriptlet.Parse
open Token (Kind)

variable {α β : Type}

inductive Cause.OfNumber : Cause → Prop where
  | outOfRange (t : Token) : OfNumber (.outOfRange t)
  | numeral (e : Numeral.Error) : OfNumber (.numeral e)

structure Blames (s : List Token) (f : Failure) : Prop where
  left : f.rest <:+ s
  number : f.cause.OfNumber →
    ∃ before t, s = before ++ t :: f.rest ∧ t.kind = .number ∧ number t f.rest = .error f

theorem Blames.onward {s rest : List Token} {f : Failure} (left : rest <:+ s) (blames : Blames rest f) :
    Blames s f where
  left := blames.left.trans left
  number ofNumber := by
    obtain ⟨before, t, rfl, found⟩ := blames.number ofNumber
    obtain ⟨front, rfl⟩ := left
    exact ⟨front ++ before, t, by rw [List.append_assoc], found⟩

structure TidyAt (p : Parser α) (s : List Token) : Prop where
  ok : ∀ a rest, p s = .ok (a, rest) → rest <:+ s
  error : ∀ f, p s = .error f → Blames s f

def Tidy (p : Parser α) : Prop := ∀ s, TidyAt p s

theorem TidyAt.bind {p : Parser α} {f : α → Parser β} {s : List Token} (first : TidyAt p s)
    (next : ∀ a rest, p s = .ok (a, rest) → TidyAt (f a) rest) : TidyAt (p >>= f) s where
  ok b rest ok := by
    obtain ⟨a, middle, head, tail⟩ := Reader.bindOk.mp ok
    exact ((next a middle head).ok b rest tail).trans (first.ok a middle head)
  error e failed := by
    rcases Reader.bindError.mp failed with head | ⟨a, middle, head, tail⟩
    · exact first.error e head
    · exact ((next a middle head).error e tail).onward (first.ok a middle head)

namespace Tidy

theorem leaves {p : Parser α} {result : List Token → α × List Token} (same : ∀ s, p s = .ok (result s))
    (left : ∀ s, (result s).2 <:+ s) : Tidy p := by
  intro s
  refine ⟨fun a rest ok => ?_, fun f failed => ?_⟩
  · have tail := left s
    rwa [Except.ok.inj ((same s).symm.trans ok)] at tail
  · rw [same s] at failed
    cases failed

theorem pure (a : α) : Tidy (Pure.pure a : Parser α) := leaves (fun _ => rfl) List.suffix_refl

theorem peek : Tidy Reader.peek := leaves (fun _ => rfl) List.suffix_refl

theorem ahead : Tidy Reader.ahead := leaves (fun _ => rfl) List.suffix_refl

theorem drop : Tidy Reader.drop := leaves (fun _ => rfl) List.tail_suffix

theorem nextKind : Tidy nextKind := leaves nextKindApply List.suffix_refl

theorem skipNewlines : Tidy skipNewlines := leaves (fun _ => rfl) fun _ => List.dropWhile_suffix _

theorem fail {cause : Cause} (plain : ¬ cause.OfNumber) : Tidy (fail cause : Parser α) := by
  intro s
  refine ⟨fun a rest ok => absurd ok failOk, fun f failed => ?_⟩
  cases failed
  exact ⟨List.suffix_refl s, fun ofNumber => absurd ofNumber plain⟩

theorem unexpected (what : String) : Tidy (unexpected what : Parser α) := fail fun ofNumber => (nomatch ofNumber)

theorem bind {p : Parser α} {f : α → Parser β} (first : Tidy p) (next : ∀ a, Tidy (f a)) : Tidy (p >>= f) :=
  fun s => (first s).bind fun a rest _ => next a rest

theorem ite {c : Prop} [Decidable c] {p q : Parser α} (yes : Tidy p) (no : Tidy q) :
    Tidy (if c then p else q) := by
  split
  · exact yes
  · exact no

theorem take (kind : Kind) : Tidy (take kind) :=
  .bind nextKind fun _ => .ite (.bind drop fun _ => pure true) (pure false)

theorem expectAs (kind : Kind) (what : String) : Tidy (expectAs kind what) := by
  refine .bind peek fun next => ?_
  cases next with
  | none => exact fail fun ofNumber => (nomatch ofNumber)
  | some t => exact .ite (.bind drop fun _ => pure t) (fail fun ofNumber => (nomatch ofNumber))

theorem collect {turn : Parser (Reader.Turn α)} (tidy : Tidy turn) : Tidy (Reader.collect turn) := by
  intro s
  constructor
  · intro as rest ok
    have turns := Reader.collectIff.mp ok
    clear ok
    induction turns with
    | stop head => exact (tidy _).ok _ _ head
    | last head => exact (tidy _).ok _ _ head
    | more head _ _ ih => exact ih.trans ((tidy _).ok _ _ head)
    | stuck head _ => exact (tidy _).ok _ _ head
  · intro f failed
    unfold Reader.collect at failed
    fun_induction Reader.collectFrom turn s with
    | case1 s e head =>
      cases failed
      exact (tidy s).error _ head
    | case2 => cases failed
    | case3 => cases failed
    | case4 s a middle head _ e tail ih =>
      cases failed
      exact (ih tail).onward ((tidy s).ok _ _ head)
    | case5 => cases failed
    | case6 => cases failed

end Tidy

theorem commaTurnTidy {item : Parser α} (tidy : Tidy item) (closing : Kind) : Tidy (commaTurn closing item) :=
  .bind .nextKind fun _ => .ite (.pure _) <|
    .bind tidy fun _ => .bind (.take _) fun _ => .ite (.pure _) (.pure _)

theorem bracketedTidy {item : Parser α} (tidy : Tidy item) (opening closing : Kind) :
    Tidy (bracketed opening closing item) :=
  .bind (.expectAs _ _) fun _ => .bind (commaTurnTidy tidy closing).collect fun _ =>
    .bind (.expectAs _ _) fun _ => .pure _

theorem numberCases (t : Token) (s : List Token) :
    (∃ v, number t s = .ok (v, s)) ∨ ∃ cause, number t s = .error ⟨cause, s⟩ := by
  unfold number
  cases Numeral.read? t.value.toList with
  | none => exact Or.inr ⟨_, rfl⟩
  | some n =>
    by_cases whole : n.isWhole = true
    · simp only [if_pos whole]
      cases n.toInt with
      | ok k => exact Or.inl ⟨_, rfl⟩
      | error e => exact Or.inr ⟨_, rfl⟩
    · simp only [if_neg whole]
      by_cases finite : n.toBinary.isFinite = true
      · simp only [if_pos finite]
        exact Or.inl ⟨_, rfl⟩
      · simp only [if_neg finite]
        exact Or.inr ⟨_, rfl⟩

/- A number is read first, and then it is found to have no value. -/
theorem literalTidy {t : Token} (kind : t.kind = .number) (rest : List Token) {g : SExpr → α} :
    TidyAt (do Reader.drop; let v ← number t; pure (g v)) (t :: rest) := by
  constructor
  · intro a left ok
    obtain ⟨_, _, ⟨⟩, next⟩ := Reader.bindOk.mp ok
    obtain ⟨v, middle, value, same⟩ := Reader.bindOk.mp next
    cases same
    rcases numberCases t rest with ⟨_, found⟩ | ⟨_, found⟩
    · cases value.symm.trans found
      exact List.suffix_cons t rest
    · cases value.symm.trans found
  · intro f failed
    rcases Reader.bindError.mp failed with head | ⟨_, _, ⟨⟩, next⟩
    · cases head
    · rcases Reader.bindError.mp next with value | ⟨_, _, _, same⟩
      · rcases numberCases t rest with ⟨_, found⟩ | ⟨cause, found⟩
        · cases value.symm.trans found
        · cases value.symm.trans found
          exact ⟨List.suffix_cons t rest, fun _ => ⟨[], t, rfl, kind, found⟩⟩
      · cases same

theorem paramsTidy : Tidy params := .bind (bracketedTidy (.expectAs _ _) _ _) fun _ => .pure _

section Rules
variable {expr : Parser Node} (tidy : Tidy expr)
include tidy

theorem callArgsTidy : Tidy (callArgs expr) := .bind (bracketedTidy tidy _ _) fun _ => .pure _

theorem arrayTidy : Tidy (array expr) := .bind (bracketedTidy tidy _ _) fun _ => .pure _

theorem assignTidy : Tidy (assign expr) :=
  .bind (.expectAs _ _) fun _ => .bind (.expectAs _ _) fun _ => .bind tidy fun _ => .pure _

theorem statementTidy : Tidy (statement expr) := by
  refine .bind .ahead fun ahead => ?_
  match ahead with
  | [] => exact tidy
  | [_] => exact tidy
  | _ :: _ :: _ => exact .ite (assignTidy tidy) tidy

theorem statementTurnTidy : Tidy (statementTurn expr) := by
  refine .bind .nextKind fun _ => .ite (.pure _) <|
    .bind (statementTidy tidy) fun _ => .bind .nextKind fun kind => ?_
  split
  · exact .bind .skipNewlines fun _ => .pure _
  · exact .pure _
  · exact .unexpected _

theorem blockTidy : Tidy (block expr) :=
  .bind (.expectAs _ _) fun _ => .bind .skipNewlines fun _ => .bind (statementTurnTidy tidy).collect fun _ =>
    .bind (.expectAs _ _) fun _ => .pure _

theorem arrowTidy (params : List String) (place : Place) : Tidy (arrow expr params place) :=
  .bind (.expectAs _ _) fun _ => .bind .skipNewlines fun _ => .bind .nextKind fun _ =>
    .ite (.bind (blockTidy tidy) fun _ => .pure _) (.bind tidy fun _ => .pure _)

theorem propertyTidy : Tidy (property expr) := by
  refine .bind .peek fun next => ?_
  match next with
  | none => exact .unexpected _
  | some key =>
    refine .ite (.unexpected _) (.ite (.fail fun ofNumber => (nomatch ofNumber))
      (.bind .drop fun _ => .bind .nextKind fun kind => ?_))
    split
    · exact .bind paramsTidy fun _ => .bind .skipNewlines fun _ => .bind (blockTidy tidy) fun _ => .pure _
    · exact .bind .drop fun _ => .bind tidy fun _ => .pure _
    · exact .unexpected _

theorem propertyTurnTidy : Tidy (propertyTurn expr) :=
  .bind .nextKind fun _ => .ite (.pure _) (.bind (propertyTidy tidy) fun _ => .bind .skipNewlines fun _ =>
    .bind (.take _) fun _ => .ite (.bind .skipNewlines fun _ => .pure _) (.pure _))

theorem objectTidy : Tidy (object expr) :=
  .bind (.expectAs _ _) fun _ => .bind .skipNewlines fun _ => .bind (propertyTurnTidy tidy).collect fun _ =>
    .bind (.expectAs _ _) fun _ => .pure _

theorem primaryTidy : Tidy (primary expr) := by
  intro s
  refine (Tidy.ahead s).bind fun ahead rest found => ?_
  cases found
  match s with
  | [] => exact Tidy.unexpected _ _
  | token :: rest =>
    simp only
    split
    · exact literalTidy ‹_› rest
    · exact Tidy.bind .drop (fun _ => .pure _) _
    · exact Tidy.bind .drop (fun _ => .pure _) _
    · exact Tidy.bind .drop (fun _ => .pure _) _
    · exact Tidy.bind .drop (fun _ => .pure _) _
    · exact Tidy.bind .drop (fun _ => .ite (arrowTidy tidy _ _) (.pure _)) _
    · exact Tidy.ite (.bind paramsTidy fun _ => arrowTidy tidy _ _)
        (.bind .drop fun _ => .bind tidy fun _ => .bind (.expectAs _ _) fun _ => .pure _) _
    · exact arrayTidy tidy _
    · exact objectTidy tidy _
    · exact Tidy.unexpected _ _

theorem suffixTurnTidy : Tidy (suffixTurn expr) := by
  refine .bind .nextKind fun kind => ?_
  split
  · exact .bind .drop fun _ => .bind (.expectAs _ _) fun _ => .pure _
  · exact .bind .drop fun _ => .bind tidy fun _ => .bind (.expectAs _ _) fun _ => .pure _
  · exact .bind (callArgsTidy tidy) fun _ => .pure _
  · exact .pure _

theorem suffixedTidy : Tidy (suffixed expr) :=
  .bind (primaryTidy tidy) fun _ => .bind (suffixTurnTidy tidy).collect fun _ => .pure _

variable {operand : Parser Node} (inner : Tidy operand)
include inner

theorem signedTidy : Tidy (signed operand expr) := by
  refine .bind .peek fun next => ?_
  match next with
  | none => exact suffixedTidy tidy
  | some op => exact .ite (.bind .drop fun _ => .bind inner fun _ => .pure _) (suffixedTidy tidy)

omit tidy in
theorem linkTurnTidy (least : Int) : Tidy (linkTurn operand least) := by
  refine .bind .peek fun next => ?_
  match next with
  | none => exact .pure _
  | some op =>
    simp only
    split
    · exact .pure _
    · exact .ite (.pure _) (.bind .drop fun _ => .bind inner fun _ => .pure _)

omit tidy in
theorem chainTidy (least : Int) : Tidy (chain operand least) :=
  .bind inner fun _ => .bind (linkTurnTidy inner least).collect fun _ => .pure _

theorem choiceTidy : Tidy (choice operand expr) :=
  .bind (chainTidy inner 1) fun _ => .bind (.take _) fun _ =>
    .ite (.bind tidy fun _ => .bind (.expectAs _ _) fun _ => .bind tidy fun _ => .pure _) (.pure _)

end Rules

theorem budgetTidy (depth : Nat) : Tidy (expression depth) ∧ Tidy (unary depth) := by
  induction depth with
  | zero => exact ⟨.fail fun ofNumber => (nomatch ofNumber), .fail fun ofNumber => (nomatch ofNumber)⟩
  | succ depth ih => exact ⟨choiceTidy ih.1 ih.2, signedTidy ih.1 ih.2⟩

theorem programTidy (depth : Nat) : Tidy (program depth) := by
  refine .bind .skipNewlines fun _ => .bind (fun s => ⟨fun tree rest ok => ?_, fun f failed => ?_⟩) fun _ =>
    .bind .skipNewlines fun _ => .bind .nextKind fun _ => .ite (.pure _) (.unexpected _)
  · split at ok
    · cases ok
    · exact ((budgetTidy depth).1 s).ok tree rest ok
  · split at failed
    · rename_i rest exhausted
      cases failed
      exact ⟨(((budgetTidy depth).1 s).error _ exhausted).left, fun ofNumber => (nomatch ofNumber)⟩
    · exact ((budgetTidy depth).1 s).error f failed

theorem programBlames {depth : Nat} {s : List Token} {f : Failure} (failed : program depth s = .error f) :
    Blames s f ∧ f.cause ≠ .exhausted := by
  refine ⟨(programTidy depth s).error f failed, fun same => ?_⟩
  obtain ⟨_, start, skip, _⟩ := skipNewlinesSplit s
  unfold program at failed
  rw [bindStep skip] at failed
  rcases Reader.bindError.mp failed with inside | ⟨tree, middle, _, after⟩
  · split at inside
    · cases inside
      cases same
    · rename_i other
      exact other f.rest (by rw [inside, ← same])
  · obtain ⟨_, final, skip', _⟩ := skipNewlinesSplit middle
    rw [bindStep skip', bindStep (nextKindApply _)] at after
    split at after
    · cases after
    · cases after
      cases same

theorem bindFails {α β : Type} {p : Parser α} {f : α → Parser β} {s : List Token} {e : Failure}
    (failed : p s = .error e) : (p >>= f) s = .error e := Reader.bindError.mpr (Or.inl failed)

theorem expressionOfPrimary {t : Token} {rest : List Token} {f : Failure} {depth : Nat}
    (plain : t.kind ≠ .notOp ∧ t.kind ≠ .minus) (failed : primary (expression depth) (t :: rest) = .error f) :
    expression (depth + 2) (t :: rest) = .error f := by
  have operand : unary (depth + 1) (t :: rest) = .error f := by
    rw [unary, signed, bindStep (peekApply _)]
    simp only [List.head?_cons]
    rw [if_neg (not_or.mpr plain)]
    exact bindFails failed
  rw [expression]
  exact bindFails (bindFails operand)

theorem programOfFailure {t : Token} {rest : List Token} {f : Failure} {depth : Nat} (start : t.kind ≠ .newline)
    (failed : expression depth (t :: rest) = .error f) (plain : f.cause ≠ .exhausted) :
    program depth (t :: rest) = .error f := by
  have stay : skipNewlines (t :: rest) = .ok ((), t :: rest) := by
    simp [skipNewlines, Reader.dropWhile, start]
  unfold program
  rw [bindStep stay]
  refine bindFails ?_
  simp only [failed]
  obtain ⟨cause, rest⟩ := f
  cases cause with
  | exhausted => exact absurd rfl plain
  | _ => rfl

theorem primaryOfNumber {t : Token} (kind : t.kind = .number) {rest : List Token} {f : Failure}
    (failed : number t rest = .error f) (expr : Parser Node) : primary expr (t :: rest) = .error f := by
  unfold primary
  rw [bindStep (aheadApply _)]
  simp only [kind]
  rw [bindStep (dropApply _)]
  exact bindFails failed

theorem programOfNumber {t : Token} (kind : t.kind = .number) {rest : List Token} {f : Failure}
    (failed : number t rest = .error f) (plain : f.cause ≠ .exhausted) (depth : Nat) :
    program (depth + 2) (t :: rest) = .error f :=
  programOfFailure (by simp [kind]) (expressionOfPrimary (by simp [kind]) (primaryOfNumber kind failed _)) plain

end Scriptlet.Parse
