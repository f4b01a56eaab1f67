import Scriptlet.Proofs.Settling

/-! Lowering respects equality. Equal trees go through the same steps in the same order, so they are lowered to
equal values, or refused for the same construct, or neither has enough depth. -/
namespace Scriptlet

inductive LowersAlike {α : Type} (enough : Prop) (R : α → α → Prop) :
    Except LowerError α → Except LowerError α → Prop where
  | ok {a b} (value : R a b) : LowersAlike enough R (.ok a) (.ok b)
  | unsupported (what : Construct) (p q : Place) :
      LowersAlike enough R (.error (.unsupported what p)) (.error (.unsupported what q))
  | tooDeep (short : ¬ enough) : LowersAlike enough R (.error .tooDeep) (.error .tooDeep)

namespace LowersAlike

variable {α β : Type} {enough enough' : Prop} {R : α → α → Prop} {S : β → β → Prop} {x y : Except LowerError α}

theorem mono (alike : LowersAlike enough R x y) (implies : enough' → enough) : LowersAlike enough' R x y := by
  cases alike with
  | ok value => exact .ok value
  | unsupported what p q => exact .unsupported what p q
  | tooDeep short => exact .tooDeep (mt implies short)

theorem bind {f g : α → Except LowerError β} (first : LowersAlike enough R x y)
    (next : ∀ a b, R a b → LowersAlike enough' S (f a) (g b)) :
    LowersAlike (enough ∧ enough') S (x >>= f) (y >>= g) := by
  cases first with
  | ok value => exact (next _ _ value).mono And.right
  | unsupported what p q => exact .unsupported what p q
  | tooDeep short => exact .tooDeep fun both => short both.1

theorem step {f g : α → Except LowerError β} (first : LowersAlike enough R x y)
    (next : ∀ a b, R a b → LowersAlike True S (f a) (g b)) : LowersAlike enough S (x >>= f) (y >>= g) :=
  (first.bind next).mono fun enough => ⟨enough, trivial⟩

theorem map {f g : α → β} (first : LowersAlike enough R x y) (last : ∀ a b, R a b → S (f a) (g b)) :
    LowersAlike enough S (x >>= fun a => .ok (f a)) (y >>= fun b => .ok (g b)) :=
  first.step fun a b value => .ok (last a b value)

theorem each {f : β → Except LowerError α} {enough : β → Prop} {xs ys : List β}
    (all : List.Forall₂ (fun x y => LowersAlike (enough x) R (f x) (f y)) xs ys) :
    LowersAlike (∀ x ∈ xs, enough x) (List.Forall₂ R) (xs.mapM f) (ys.mapM f) := by
  induction all with
  | nil => exact .ok .nil
  | cons head _ ih =>
    rw [List.mapM_cons, List.mapM_cons]
    refine (head.bind fun a b value => ih.map fun as bs values => ?_).mono List.forall_mem_cons.mp
    exact List.Forall₂.cons value values

end LowersAlike

namespace SExpr

def Same (v w : SExpr) : Prop := v.same w = true

namespace Same

theorem sym (name : String) : Same (.sym name) (.sym name) := by
  simp [Same, same]

theorem names (names : List String) : List.Forall₂ Same (names.map .sym) (names.map .sym) := by
  induction names with
  | nil => exact .nil
  | cons name more ih => exact .cons (sym name) ih

theorem list {vs ws : List SExpr} (each : List.Forall₂ Same vs ws) : Same (.list vs) (.list ws) := by
  rw [Same, same]
  induction each with
  | nil => rfl
  | cons head _ ih =>
    rw [sameAll, head, ih]
    rfl

theorem form (word : String) {vs ws : List SExpr} (each : List.Forall₂ Same vs ws) :
    Same (.list (.sym word :: vs)) (.list (.sym word :: ws)) :=
  list (.cons (sym word) each)

end Same

end SExpr

namespace Node
open SExpr (Same)

theorem sequenceSame {vs ws : List SExpr} (each : List.Forall₂ Same vs ws) : Same (sequence vs) (sequence ws) := by
  cases each with
  | nil => exact .form "progn" .nil
  | cons head tail => cases tail with
    | nil => exact head
    | cons next more => exact .form "progn" (.cons head (.cons next more))

theorem keySame {a b : Node} (same : a.same b = true) : Option.Rel Same a.key? b.key? := by
  revert same
  fun_cases Node.same a b with
  | case1 p k v q k' w =>
    intro same
    rw [Bool.and_eq_true, beq_iff_eq] at same
    obtain ⟨rfl, value⟩ := same
    cases k with
    | string => exact .some value
    | _ => exact .none
  | case2 p name q name' =>
    intro same
    exact .some (by simpa [Same, SExpr.same] using same)
  | case16 => exact fun no => by cases no
  | _ => exact fun _ => .none

theorem pairAlike {x x' y y' : Except LowerError SExpr} {enough enough' : Prop}
    (left : LowersAlike enough Same x y) (right : LowersAlike enough' Same x' y') (word : String) :
    LowersAlike (enough ∧ enough') Same (do let v ← x; let v' ← x'; .ok (SExpr.list [.sym word, v, v']))
      (do let w ← y; let w' ← y'; .ok (SExpr.list [.sym word, w, w'])) :=
  left.bind fun _ _ left => right.map fun _ _ right => .form word (.cons left (.cons right .nil))

theorem lowerSame (depth : Nat) {a b : Node} (same : a.same b = true) :
    LowersAlike (a.height ≤ depth) Same (lower depth a) (lower depth b) := by
  induction depth generalizing a b with
  | zero => exact .tooDeep (Nat.not_le.mpr a.heightPositive)
  | succ depth ih =>
    have all : ∀ {xs ys : List Node}, sameAll xs ys = true →
        LowersAlike (heightAll xs ≤ depth) (List.Forall₂ Same) (xs.mapM (lower depth)) (ys.mapM (lower depth)) := by
      intro xs ys same
      rw [heightAllLe]
      exact .each ((sameAllEach same).imp fun _ _ => ih)
    revert same
    fun_cases Node.same a b with
    | case1 p k v q k' w =>
      intro same
      rw [Bool.and_eq_true, beq_iff_eq] at same
      obtain ⟨rfl, value⟩ := same
      rw [lower, lower]
      refine .ok ?_
      split
      · exact .form "quote" (.cons value .nil)
      · exact value
    | case2 p name q name' =>
      intro same
      obtain rfl := beq_iff_eq.mp same
      exact .ok (.sym name)
    | case3 p op x q op' y =>
      intro same
      rw [Bool.and_eq_true, beq_iff_eq] at same
      obtain ⟨rfl, operand⟩ := same
      rw [lower, lower, height, Nat.succ_le_succ_iff]
      refine (ih operand).step fun v w value => ?_
      split
      · exact .ok (.form "-" (.cons (Parse.intSame 0) (.cons value .nil)))
      · split
        · exact .ok (.form "not" (.cons value .nil))
        · exact .unsupported _ p q
    | case4 p op x x' q op' y y' =>
      intro same
      simp only [Bool.and_eq_true, beq_iff_eq] at same
      obtain ⟨⟨rfl, left⟩, right⟩ := same
      rw [lower, lower, height, Nat.succ_le_succ_iff, Nat.max_le]
      cases binaryForms.lookup op with
      | none => exact .unsupported _ p q
      | some word => exact pairAlike (ih left) (ih right) word
    | case5 p op x x' q op' y y' =>
      intro same
      simp only [Bool.and_eq_true, beq_iff_eq] at same
      obtain ⟨⟨rfl, left⟩, right⟩ := same
      rw [lower, lower, height, Nat.succ_le_succ_iff, Nat.max_le]
      cases logicalForms.lookup op with
      | none => exact .unsupported _ p q
      | some word => exact pairAlike (ih left) (ih right) word
    | case6 p x x' x'' q y y' y'' =>
      intro same
      simp only [Bool.and_eq_true] at same
      obtain ⟨⟨cond, yes⟩, no⟩ := same
      rw [lower, lower, height, Nat.succ_le_succ_iff, Nat.max_le, Nat.max_le]
      exact (ih cond).bind fun _ _ cond => (ih yes).bind fun _ _ yes => (ih no).map fun _ _ no =>
        .form "if" (.cons cond (.cons yes (.cons no .nil)))
    | case7 p xs q ys =>
      intro same
      rw [lower, lower, height, Nat.succ_le_succ_iff]
      exact (all same).map fun _ _ elements => .form "list" elements
    | case8 p xs q ys =>
      intro same
      rw [lower, lower, height, Nat.succ_le_succ_iff]
      exact (all same).map fun _ _ entries => sequenceSame entries
    | case9 p key isMethod params x q key' isMethod' params' y =>
      intro same
      simp only [Bool.and_eq_true, beq_iff_eq] at same
      obtain ⟨⟨⟨rfl, rfl⟩, rfl⟩, value⟩ := same
      rw [lower, lower, height, Nat.succ_le_succ_iff]
      refine (ih value).map fun _ _ value => .form "define" (.cons ?_ (.cons value .nil))
      split
      · exact .form key (Same.names params)
      · exact .sym key
    | case10 p name x q name' y =>
      intro same
      rw [Bool.and_eq_true, beq_iff_eq] at same
      obtain ⟨rfl, value⟩ := same
      rw [lower, lower, height, Nat.succ_le_succ_iff]
      exact (ih value).map fun _ _ value => .form "define" (.cons (.sym name) (.cons value .nil))
    | case11 p xs q ys =>
      intro same
      rw [lower, lower, height, Nat.succ_le_succ_iff]
      exact (all same).map fun _ _ statements => sequenceSame statements
    | case12 p params x q params' y =>
      intro same
      rw [Bool.and_eq_true, beq_iff_eq] at same
      obtain ⟨rfl, body⟩ := same
      rw [lower, lower, height, Nat.succ_le_succ_iff]
      exact (ih body).map fun _ _ body => .form "lambda" (.cons (.list (Same.names params)) (.cons body .nil))
    | case13 p f xs q g ys =>
      intro same
      rw [Bool.and_eq_true] at same
      rw [lower, lower, height, Nat.succ_le_succ_iff, Nat.max_le]
      exact (ih same.1).bind fun _ _ callee => (all same.2).map fun _ _ args => .list (.cons callee args)
    | case14 p x x' computed q y y' computed' =>
      intro same
      simp only [Bool.and_eq_true, beq_iff_eq] at same
      obtain ⟨⟨target, key⟩, rfl⟩ := same
      cases computed with
      | true =>
        rw [lower, lower, height, Nat.succ_le_succ_iff, Nat.max_le]
        exact (ih target).bind fun _ _ target => (ih key).map fun _ _ key =>
          .form "get" (.cons target (.cons key .nil))
      | false =>
        rw [lower, lower, height, Nat.succ_le_succ_iff]
        refine (ih target).step fun _ _ target => ?_
        have names := keySame key
        simp only [Bool.false_eq_true, if_false]
        generalize x'.key? = name, y'.key? = name' at names
        cases names with
        | none => exact .unsupported _ p q
        | some name => exact .ok (.form "get" (.cons target (.cons name .nil)))
    | case15 p q => exact fun _ => .unsupported .bare p q
    | case16 => exact fun no => by cases no

theorem compareForms {depth : Nat} {a b : Node} (different : a.form ≠ b.form) :
    compare (depth + 1) a b = some false := by
  unfold compare
  split
  case h_1 => contradiction
  case h_15 => rw [Bool.eq_false_iff.mpr fun same => different (sameForm same)]
  all_goals exact absurd rfl different

theorem differNegates (depth : Nat) (a b : Node) :
    a.differ? (depth + 1) b = (compare (depth + 1) a b).map (!·) := by
  unfold differ?
  split
  · rfl
  · rename_i different
    rw [compareForms different]
    rfl

theorem equalityRespected :
    Equivalence (fun a b : { x : Node // x.Floatless } => a.val.same b.val = true) ∧
    (∀ a b : Node, a.Floatless → b.Floatless → (a.same b = true ↔ a.settled.unplaced = b.settled.unplaced)) ∧
    (∀ depth (a b : Node), a.differ? (depth + 1) b = (compare (depth + 1) a b).map (!·)) ∧
    (∀ depth (a b : Node), Decides (a.extent ≤ depth) (a.same b) (compare depth a b)) ∧
    ∀ depth (a b : Node), a.same b = true →
      LowersAlike (a.height ≤ depth) (fun v w => v.same w = true) (a.lower depth) (b.lower depth) :=
  ⟨sameEquivalence, sameIff, differNegates, compareDecides, fun depth _ _ => lowerSame depth⟩

def callSample (p : Place) (one : SExpr) (op : String) : Node :=
  .call p (.member p (.ident p "box") (.literal p .string (.list [one, .str "x"])) false)
    [.unary p op (.literal p .bool one)]

theorem equalityRespectedSample :
    (callSample ⟨1, 1⟩ (.bool true) "-").Floatless ∧ (callSample ⟨7, 2⟩ (.int 1) "-").Floatless ∧
    (callSample ⟨1, 1⟩ (.bool true) "-").same (callSample ⟨7, 2⟩ (.int 1) "-") = true ∧
    (∃ v w, (callSample ⟨1, 1⟩ (.bool true) "-").lower 9 = .ok v ∧
      (callSample ⟨7, 2⟩ (.int 1) "-").lower 9 = .ok w ∧ v.same w = true) ∧
    (callSample ⟨1, 1⟩ (.bool true) "~").same (callSample ⟨7, 2⟩ (.int 1) "~") = true ∧
    ∃ what p q, (callSample ⟨1, 1⟩ (.bool true) "~").lower 9 = .error (.unsupported what p) ∧
      (callSample ⟨7, 2⟩ (.int 1) "~").lower 9 = .error (.unsupported what q) := by
  obtain ⟨_, sees, _, _, lowers⟩ := equalityRespected
  have first : (callSample ⟨1, 1⟩ (.bool true) "-").Floatless := by
    simp [callSample, Floatless, leaves, leavesAll, SExpr.Floatless, SExpr.atoms, SExpr.atomsAll]
  have second : (callSample ⟨7, 2⟩ (.int 1) "-").Floatless := by
    simp [callSample, Floatless, leaves, leavesAll, SExpr.Floatless, SExpr.atoms, SExpr.atomsAll]
  have known : (callSample ⟨1, 1⟩ (.bool true) "-").same (callSample ⟨7, 2⟩ (.int 1) "-") = true :=
    (sees _ _ first second).mpr rfl
  have unknown : (callSample ⟨1, 1⟩ (.bool true) "~").same (callSample ⟨7, 2⟩ (.int 1) "~") = true := by
    decide +kernel
  refine ⟨first, second, known, ?_, unknown, ?_⟩
  · have value : ((callSample ⟨1, 1⟩ (.bool true) "-").lower 9).toOption.isSome = true := by decide +kernel
    have alike := lowers 9 _ _ known
    generalize lower _ (callSample ⟨1, 1⟩ _ _) = x, lower _ (callSample ⟨7, 2⟩ _ _) = y at alike value ⊢
    cases alike with
    | ok same => exact ⟨_, _, rfl, rfl, same⟩
    | _ => cases value
  · have refused : ((callSample ⟨1, 1⟩ (.bool true) "~").lower 9).toOption.isSome = false := by decide +kernel
    have shallow : (callSample ⟨1, 1⟩ (.bool true) "~").height ≤ 9 := by decide +kernel
    have alike := lowers 9 _ _ unknown
    generalize lower _ (callSample ⟨1, 1⟩ _ _) = x, lower _ (callSample ⟨7, 2⟩ _ _) = y at alike refused ⊢
    cases alike with
    | ok same => cases refused
    | unsupported what p q => exact ⟨what, p, q, rfl, rfl⟩
    | tooDeep short => exact absurd shallow short

end Node

end Scriptlet
