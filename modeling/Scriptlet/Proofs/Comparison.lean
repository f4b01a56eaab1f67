import Mathlib.Data.List.Forall2
import Scriptlet.Node.Basic
import Scriptlet.Proofs.Nesting

/-! What a comparison as far as some depth tells. It may not come to its end, but if it does, then it tells
whether two trees are equal; and it does come to its end if the first tree is not nested deeper than that. -/
namespace Scriptlet

/- An answer that is the truth, or that is missing for want of depth. -/
inductive Decides (enough : Prop) (truth : Bool) : Option Bool → Prop where
  | found : Decides enough truth (some truth)
  | missing (short : ¬ enough) : Decides enough truth none

namespace Decides

variable {enough enough' : Prop} {a b : Bool} {p q : Option Bool}

theorem truth (decides : Decides enough a (some b)) : a = b := by
  cases decides
  rfl

theorem mono (decides : Decides enough a p) (implies : enough' → enough) : Decides enough' a p := by
  cases decides with
  | found => exact .found
  | missing short => exact .missing (mt implies short)

theorem both (first : Decides enough a p) (second : Decides enough' b q) :
    Decides (enough ∧ enough') (a && b) (p <&&> q) := by
  cases first with
  | missing short => exact .missing fun enough => short enough.1
  | found => cases a with
    | false => exact .found
    | true => exact second.mono And.right

theorem after (test : Bool) (second : Decides enough b q) : Decides enough (test && b) (some test <&&> q) :=
  have tested : Decides True test (some test) := .found
  (tested.both second).mono fun enough => ⟨trivial, enough⟩

theorem before (first : Decides enough a p) (test : Bool) : Decides enough (a && test) (p <&&> some test) :=
  have tested : Decides True test (some test) := .found
  (first.both tested).mono fun enough => ⟨enough, trivial⟩

theorem lists {α : Type} {compare : α → α → Option Bool} {same : α → α → Bool} {enough : α → Prop}
    (each : ∀ x y, Decides (enough x) (same x y) (compare x y)) (xs ys : List α) :
    Decides (∀ x ∈ xs, enough x) (xs.isEqv ys same) (compareLists compare xs ys) := by
  unfold compareLists
  induction xs generalizing ys with
  | nil => cases ys with
    | nil => exact .found
    | cons y ys => exact .found
  | cons x xs ih => cases ys with
    | nil => exact .found
    | cons y ys =>
      have tail := ih ys
      simp only [List.length_cons, Nat.add_right_cancel_iff]
      by_cases length : xs.length = ys.length
      · rw [if_pos length] at tail ⊢
        exact ((each x y).both tail).mono List.forall_mem_cons.mp
      · rw [if_neg length] at tail ⊢
        rw [List.isEqv, tail.truth, Bool.and_false]
        exact .found

end Decides

namespace SExpr

theorem sameAllEqv (xs ys : List SExpr) : sameAll xs ys = xs.isEqv ys same := by
  induction xs generalizing ys with
  | nil => cases ys <;> rfl
  | cons x xs ih => cases ys with
    | nil => rfl
    | cons y ys => rw [sameAll, List.isEqv, ih]

theorem compareDecides (depth : Nat) (v w : SExpr) :
    Decides (v.height ≤ depth) (v.same w) (compare depth v w) := by
  induction depth generalizing v w with
  | zero => exact .missing (Nat.not_le.mpr v.heightPositive)
  | succ depth ih =>
    unfold compare
    split
    · contradiction
    · rename_i step
      cases step
      rw [same, sameAllEqv, heightList, Nat.succ_le_succ_iff, heightAllLe]
      exact .lists ih _ _
    · exact .found

end SExpr

namespace Node

mutual

def extent : Node → Nat
  | .literal _ _ v => v.height + 1
  | .ident .. | .bare .. => 1
  | .unary _ _ x | .property _ _ _ _ x | .assignment _ _ x | .arrow _ _ x => extent x + 1
  | .binary _ _ x y | .logical _ _ x y | .member _ x y _ => max (extent x) (extent y) + 1
  | .ternary _ x y z => max (extent x) (max (extent y) (extent z)) + 1
  | .array _ xs | .object _ xs | .block _ xs => extentAll xs + 1
  | .call _ f xs => max (extent f) (extentAll xs) + 1

def extentAll : List Node → Nat
  | [] => 0
  | x :: xs => max (extent x) (extentAll xs)

end

theorem extentAllLe {xs : List Node} {depth : Nat} : extentAll xs ≤ depth ↔ ∀ x ∈ xs, x.extent ≤ depth := by
  induction xs with
  | nil => simp [extentAll]
  | cons x xs ih => rw [extentAll, Nat.max_le, ih, List.forall_mem_cons]

theorem extentPositive (x : Node) : 0 < x.extent := by
  cases x <;> simp [extent]

theorem sameAllOf {xs ys : List Node} (each : List.Forall₂ (fun x y => x.same y = true) xs ys) :
    sameAll xs ys = true := by
  induction each with
  | nil => rw [sameAll]
  | cons head _ ih => rw [sameAll, head, ih]; rfl

theorem sameAllEach {xs ys : List Node} (same : sameAll xs ys = true) :
    List.Forall₂ (fun x y => x.same y = true) xs ys := by
  induction xs generalizing ys with
  | nil => cases ys with
    | nil => exact .nil
    | cons y ys => simp [sameAll] at same
  | cons x xs ih => cases ys with
    | nil => simp [sameAll] at same
    | cons y ys =>
      rw [sameAll, Bool.and_eq_true] at same
      exact .cons same.1 (ih same.2)

theorem sameAllEqv (xs ys : List Node) : sameAll xs ys = xs.isEqv ys same := by
  induction xs generalizing ys with
  | nil => cases ys <;> rfl
  | cons x xs ih => cases ys with
    | nil => rfl
    | cons y ys => rw [sameAll, List.isEqv, ih]

theorem compareDecides (depth : Nat) (a b : Node) : Decides (a.extent ≤ depth) (a.same b) (compare depth a b) := by
  induction depth generalizing a b with
  | zero => exact .missing (Nat.not_le.mpr a.extentPositive)
  | succ depth ih =>
    have all : ∀ xs ys : List Node,
        Decides (extentAll xs ≤ depth) (sameAll xs ys) (compareLists (compare depth) xs ys) := by
      intro xs ys
      rw [sameAllEqv, extentAllLe]
      exact .lists ih xs ys
    unfold compare
    split
    case h_1 => contradiction
    case h_15 => exact .found
    all_goals
      rename_i step
      cases step
      rw [Node.same, extent, Nat.succ_le_succ_iff]
    · exact .after _ (SExpr.compareDecides depth _ _)
    · exact .after _ (ih _ _)
    · rw [Bool.and_assoc, Nat.max_le]
      exact .after _ ((ih _ _).both (ih _ _))
    · rw [Bool.and_assoc, Nat.max_le]
      exact .after _ ((ih _ _).both (ih _ _))
    · rw [Bool.and_assoc, Nat.max_le, Nat.max_le]
      exact (ih _ _).both ((ih _ _).both (ih _ _))
    · exact all _ _
    · exact all _ _
    · exact .after _ (ih _ _)
    · exact .after _ (ih _ _)
    · exact all _ _
    · exact .after _ (ih _ _)
    · rw [Nat.max_le]
      exact (ih _ _).both (all _ _)
    · rw [Bool.and_assoc, Nat.max_le]
      exact (ih _ _).both ((ih _ _).before _)

theorem compareSame {depth : Nat} {a b : Node} (same : a.same b = true) : compare depth a b ≠ some false := by
  intro different
  have decides := compareDecides depth a b
  rw [different, same] at decides
  cases decides.truth

end Node

end Scriptlet
