import Scriptlet.Proofs.Interleaving
import Scriptlet.Proofs.Nesting
import Scriptlet.Proofs.Unplaced

/-! What equality sees of a tree. A value settles as the whole number that it counts as, if it counts as one.
Where no literal holds a float, two trees are equal if and only if they are the same once their values have
settled and their places are left out. -/
namespace Scriptlet

theorem Binary64.onePositive : 0 < one := by
  unfold one
  -- The power is too large to be computed.
  generalize 1074 = n
  exact Nat.pow_pos Nat.two_pos

theorem Binary64.Quantity.ofIntIff {m n : Int} : ofInt m = ofInt n ↔ m = n := by
  have positive : (one : Int) ≠ 0 := Int.natCast_ne_zero.mpr (Nat.ne_of_gt onePositive)
  rw [ofInt, ofInt, units.injEq]
  exact ⟨Int.eq_of_mul_eq_mul_right positive, fun same => same ▸ rfl⟩

theorem Foreign.sameNumber {a b : Foreign} {n : Int} (number : a.number = some n) :
    a.same b = true ↔ b.number = some n := by
  unfold Foreign.same
  rw [number]
  cases other : b.number with
  | none =>
    simp only [beq_iff_eq, reduceCtorEq, iff_false]
    rintro rfl
    cases number.symm.trans other
  | some m =>
    rw [beq_iff_eq, Option.some.injEq]
    exact eq_comm

theorem Foreign.sameOther {a b : Foreign} (other : a.number = none) : a.same b = true ↔ a = b := by
  simp [Foreign.same, other]

namespace SExpr

def Floatless (v : SExpr) : Prop := ∀ x, .float x ∉ v.atoms

def whole? : SExpr → Option Int
  | .bool b => some (if b then 1 else 0)
  | .int n => some n
  | .foreign value => value.number
  | _ => none

mutual

def settled : SExpr → SExpr
  | .list items => .list (settledAll items)
  | v => v.whole?.elim v .int

def settledAll : List SExpr → List SExpr
  | [] => []
  | v :: more => settled v :: settledAll more

end

theorem Floatless.cons {v : SExpr} {items : List SExpr} (floatless : (list (v :: items)).Floatless) :
    v.Floatless ∧ (list items).Floatless := by
  constructor
  · exact fun x inside => floatless x (atomsOfMember List.mem_cons_self inside)
  · intro x inside
    obtain ⟨w, member, inside⟩ := memberOfAtom inside
    exact floatless x (atomsOfMember (List.mem_cons_of_mem v member) inside)

theorem quantityWhole {v : SExpr} (floatless : v.Floatless) :
    v.quantity? = v.whole?.map Binary64.Quantity.ofInt := by
  cases v with
  | float x => exact absurd (List.mem_singleton_self _) (floatless x)
  | _ => rfl

theorem sameWhole {v w : SExpr} (first : v.Floatless) (second : w.Floatless) {n : Int}
    (whole : v.whole? = some n) : v.same w = true ↔ w.whole? = some n := by
  unfold same
  split
  case h_5 a b => exact Foreign.sameNumber whole
  case h_6 =>
    rw [quantityWhole first, quantityWhole second, whole]
    cases w.whole? with
    | none => simp
    | some m =>
      simp only [Option.map_some, beq_iff_eq, Binary64.Quantity.ofIntIff, Option.some.injEq]
      exact eq_comm
  all_goals cases whole

theorem sameOther {v w : SExpr} (floatless : v.Floatless) (atom : IsAtom v) (other : v.whole? = none) :
    v.same w = true ↔ v = w := by
  unfold same
  split
  case h_4 items _ => exact absurd rfl (atom items)
  case h_5 a b => rw [Foreign.sameOther other, foreign.injEq]
  case h_6 =>
    rw [quantityWhole floatless, other]
    refine iff_of_false Bool.false_ne_true ?_
    rintro rfl
    cases v with
    | float x => exact absurd (List.mem_singleton_self _) (floatless x)
    | bool | int => cases other
    | list items => exact absurd rfl (atom items)
    | _ => simp_all
  all_goals simp

theorem settledAtom {v : SExpr} (atom : IsAtom v) : v.settled = v.whole?.elim v .int := by
  cases v with
  | list items => exact absurd rfl (atom items)
  | _ => rfl

theorem settledWhole {v : SExpr} {n : Int} : .int n = v.settled ↔ v.whole? = some n := by
  rcases listOrAtom v with ⟨items, rfl⟩ | atom
  · simp [settled, whole?]
  · rw [settledAtom atom]
    cases whole : v.whole? with
    | some m => simp [eq_comm]
    | none =>
      simp only [Option.elim_none, reduceCtorEq, iff_false]
      rintro rfl
      cases whole

theorem settledOther {v w : SExpr} (atom : IsAtom v) (other : v.whole? = none) : v = w.settled ↔ v = w := by
  rcases listOrAtom w with ⟨items, rfl⟩ | atom'
  · rw [settled]
    exact ⟨fun same => absurd same (atom _), fun same => absurd same (atom _)⟩
  · rw [settledAtom atom']
    cases whole : w.whole? with
    | none => rfl
    | some n =>
      constructor
      · rintro rfl
        cases other
      · rintro rfl
        cases other.symm.trans whole

theorem listAtom {items : List SExpr} {w : SExpr} (atom : IsAtom w) :
    (list items).same w = true ↔ (list items).settled = w.settled := by
  have different : (list items).same w = false := by
    cases w with
    | list items' => exact absurd rfl (atom items')
    | _ => rfl
  rw [different, settled, settledAtom atom]
  refine iff_of_false Bool.false_ne_true fun same => ?_
  cases whole : w.whole? with
  | none =>
    rw [whole] at same
    exact absurd same.symm (atom _)
  | some n =>
    rw [whole] at same
    cases same

mutual

theorem sameIff (v w : SExpr) (first : v.Floatless) (second : w.Floatless) :
    v.same w = true ↔ v.settled = w.settled := by
  rcases listOrAtom v with ⟨items, rfl⟩ | atom
  · rcases listOrAtom w with ⟨items', rfl⟩ | atom'
    · rw [same, settled, settled, list.injEq]
      exact sameAllIff items items' first second
    · exact listAtom atom'
  · cases whole : v.whole? with
    | some n => rw [sameWhole first second whole, ← settledWhole.mpr whole, settledWhole]
    | none => rw [sameOther first atom whole, ← (settledOther atom whole).mpr rfl, settledOther atom whole]

theorem sameAllIff (vs ws : List SExpr) (first : (list vs).Floatless) (second : (list ws).Floatless) :
    sameAll vs ws = true ↔ settledAll vs = settledAll ws := by
  match vs, ws with
  | [], [] => simp [sameAll]
  | [], _ :: _ => simp [sameAll, settledAll]
  | _ :: _, [] => simp [sameAll, settledAll]
  | v :: vs, w :: ws =>
    rw [sameAll, Bool.and_eq_true, settledAll, settledAll, List.cons.injEq,
      sameIff v w first.cons.1 second.cons.1, sameAllIff vs ws first.cons.2 second.cons.2]

end

end SExpr

namespace Node

def Floatless (x : Node) : Prop := ∀ v ∈ x.leaves, v.Floatless

mutual

def settled : Node → Node
  | .literal p kind v => .literal p kind v.settled
  | .ident p name => .ident p name
  | .unary p op x => .unary p op x.settled
  | .binary p op x y => .binary p op x.settled y.settled
  | .logical p op x y => .logical p op x.settled y.settled
  | .ternary p x y z => .ternary p x.settled y.settled z.settled
  | .array p xs => .array p (settledAll xs)
  | .object p xs => .object p (settledAll xs)
  | .property p key isMethod params x => .property p key isMethod params x.settled
  | .assignment p name x => .assignment p name x.settled
  | .block p xs => .block p (settledAll xs)
  | .arrow p params x => .arrow p params x.settled
  | .call p f xs => .call p f.settled (settledAll xs)
  | .member p x y computed => .member p x.settled y.settled computed
  | .bare p => .bare p

def settledAll : List Node → List Node
  | [] => []
  | x :: xs => x.settled :: settledAll xs

end

theorem sameForm {a b : Node} (same : a.same b = true) : a.form = b.form := by
  revert same
  fun_cases Node.same a b with
  | case16 => exact fun no => by cases no
  | _ => exact fun _ => rfl

theorem settledForm (x : Node) : x.settled.unplaced.form = x.form := by
  cases x <;> rfl

theorem otherForm {a b : Node} (different : a.form ≠ b.form) :
    a.same b = true ↔ a.settled.unplaced = b.settled.unplaced := by
  have unequal : ¬ a.same b = true := fun same => different (sameForm same)
  have apart : a.settled.unplaced ≠ b.settled.unplaced := by
    intro same
    exact different (by rw [← settledForm a, same, settledForm b])
  exact iff_of_false unequal apart

mutual

theorem sameIff (a b : Node) (first : a.Floatless) (second : b.Floatless) :
    a.same b = true ↔ a.settled.unplaced = b.settled.unplaced := by
  cases a with
  | literal p k v => cases b with
    | literal q k' w =>
      have value := SExpr.sameIff v w (first v (List.mem_singleton_self v)) (second w (List.mem_singleton_self w))
      simp [same, settled, unplaced, value]
    | _ => exact otherForm (by simp [form])
  | ident | bare => cases b <;> simp [same, settled, unplaced]
  | unary p op x => cases b with
    | unary q op' y => simp [same, settled, unplaced, sameIff x y first second]
    | _ => exact otherForm (by simp [form])
  | binary p op x x' => cases b with
    | binary q op' y y' =>
      obtain ⟨left, right⟩ := List.forall_mem_append.mp first
      obtain ⟨left', right'⟩ := List.forall_mem_append.mp second
      simp [same, settled, unplaced, and_assoc, sameIff x y left left', sameIff x' y' right right']
    | _ => exact otherForm (by simp [form])
  | logical p op x x' => cases b with
    | logical q op' y y' =>
      obtain ⟨left, right⟩ := List.forall_mem_append.mp first
      obtain ⟨left', right'⟩ := List.forall_mem_append.mp second
      simp [same, settled, unplaced, and_assoc, sameIff x y left left', sameIff x' y' right right']
    | _ => exact otherForm (by simp [form])
  | ternary p x x' x'' => cases b with
    | ternary q y y' y'' =>
      obtain ⟨cond, rest⟩ := List.forall_mem_append.mp first
      obtain ⟨cond', rest'⟩ := List.forall_mem_append.mp second
      obtain ⟨yes, no⟩ := List.forall_mem_append.mp rest
      obtain ⟨yes', no'⟩ := List.forall_mem_append.mp rest'
      simp [same, settled, unplaced, and_assoc, sameIff x y cond cond', sameIff x' y' yes yes',
        sameIff x'' y'' no no']
    | _ => exact otherForm (by simp [form])
  | array p xs => cases b with
    | array q ys => simp [same, settled, unplaced, sameAllIff xs ys first second]
    | _ => exact otherForm (by simp [form])
  | object p xs => cases b with
    | object q ys => simp [same, settled, unplaced, sameAllIff xs ys first second]
    | _ => exact otherForm (by simp [form])
  | property p key isMethod params x => cases b with
    | property q key' isMethod' params' y =>
      have value := (List.forall_mem_append.mp (List.forall_mem_cons.mp first).2).2
      have value' := (List.forall_mem_append.mp (List.forall_mem_cons.mp second).2).2
      simp [same, settled, unplaced, and_assoc, sameIff x y value value']
    | _ => exact otherForm (by simp [form])
  | assignment p name x => cases b with
    | assignment q name' y =>
      have value := (List.forall_mem_cons.mp first).2
      have value' := (List.forall_mem_cons.mp second).2
      simp [same, settled, unplaced, sameIff x y value value']
    | _ => exact otherForm (by simp [form])
  | block p xs => cases b with
    | block q ys => simp [same, settled, unplaced, sameAllIff xs ys first second]
    | _ => exact otherForm (by simp [form])
  | arrow p params x => cases b with
    | arrow q params' y =>
      have body := (List.forall_mem_append.mp first).2
      have body' := (List.forall_mem_append.mp second).2
      simp [same, settled, unplaced, sameIff x y body body']
    | _ => exact otherForm (by simp [form])
  | call p f xs => cases b with
    | call q g ys =>
      obtain ⟨callee, args⟩ := List.forall_mem_append.mp first
      obtain ⟨callee', args'⟩ := List.forall_mem_append.mp second
      simp [same, settled, unplaced, sameIff f g callee callee', sameAllIff xs ys args args']
    | _ => exact otherForm (by simp [form])
  | member p x x' computed => cases b with
    | member q y y' computed' =>
      obtain ⟨target, key⟩ := List.forall_mem_append.mp first
      obtain ⟨target', key'⟩ := List.forall_mem_append.mp second
      simp [same, settled, unplaced, and_assoc, sameIff x y target target', sameIff x' y' key key']
    | _ => exact otherForm (by simp [form])

theorem sameAllIff (xs ys : List Node) (first : ∀ v ∈ leavesAll xs, v.Floatless)
    (second : ∀ v ∈ leavesAll ys, v.Floatless) :
    sameAll xs ys = true ↔ unplacedAll (settledAll xs) = unplacedAll (settledAll ys) := by
  match xs, ys with
  | [], [] => simp [sameAll]
  | [], _ :: _ => simp [sameAll, settledAll, unplacedAll]
  | _ :: _, [] => simp [sameAll, settledAll, unplacedAll]
  | x :: xs, y :: ys =>
    obtain ⟨head, tail⟩ := List.forall_mem_append.mp first
    obtain ⟨head', tail'⟩ := List.forall_mem_append.mp second
    simp [sameAll, settledAll, unplacedAll, sameIff x y head head', sameAllIff xs ys tail tail']

end

theorem sameEquivalence : Equivalence fun a b : { x : Node // x.Floatless } => a.val.same b.val = true where
  refl a := (sameIff _ _ a.property a.property).mpr rfl
  symm {a b} same := (sameIff _ _ b.property a.property).mpr ((sameIff _ _ a.property b.property).mp same).symm
  trans {a b c} first second := (sameIff _ _ a.property c.property).mpr <|
    ((sameIff _ _ a.property b.property).mp first).trans ((sameIff _ _ b.property c.property).mp second)

end Node

end Scriptlet
