import Scriptlet.Proofs.Repetition
import Scriptlet.SExpr

/-! The atoms of a value from left to right, and how deep it is nested. A function that goes down a value
with a limited depth has a result if and only if it has one for every atom and the depth suffices, and it
fails with the complaint about an atom or the one about the depth. -/
namespace Scriptlet

namespace SExpr

mutual

def atoms : SExpr → List SExpr
  | .list items => atomsAll items
  | v => [v]

def atomsAll : List SExpr → List SExpr
  | [] => []
  | v :: more => atoms v ++ atomsAll more

end

theorem atomsList (items : List SExpr) : (list items).atoms = atomsAll items := by
  rw [atoms]

theorem atomsOfMember {v : SExpr} {items : List SExpr} (member : v ∈ items) {a : SExpr}
    (inside : a ∈ v.atoms) : a ∈ (list items).atoms := by
  rw [atomsList]
  induction items with
  | nil => cases member
  | cons w more ih =>
    rw [atomsAll, List.mem_append]
    rcases List.mem_cons.mp member with rfl | later
    · exact Or.inl inside
    · exact Or.inr (ih later)

theorem memberOfAtom {items : List SExpr} {a : SExpr} (inside : a ∈ (list items).atoms) :
    ∃ v ∈ items, a ∈ v.atoms := by
  rw [atomsList] at inside
  induction items with
  | nil => cases inside
  | cons v more ih =>
    rw [atomsAll, List.mem_append] at inside
    rcases inside with here | later
    · exact ⟨v, List.mem_cons_self, here⟩
    · obtain ⟨w, member, inside⟩ := ih later
      exact ⟨w, List.mem_cons_of_mem v member, inside⟩

mutual

def height : SExpr → Nat
  | .list items => heightAll items + 1
  | _ => 1

def heightAll : List SExpr → Nat
  | [] => 0
  | v :: more => max (height v) (heightAll more)

end

theorem heightList (items : List SExpr) : (list items).height = heightAll items + 1 := by
  rw [height]

theorem heightAllLe {items : List SExpr} {depth : Nat} :
    heightAll items ≤ depth ↔ ∀ v ∈ items, v.height ≤ depth := by
  induction items with
  | nil =>
    rw [heightAll]
    exact ⟨fun _ _ member => absurd member List.not_mem_nil, fun _ => Nat.zero_le _⟩
  | cons v more ih => rw [heightAll, Nat.max_le, ih, List.forall_mem_cons]

def IsAtom (v : SExpr) : Prop := ∀ items, v ≠ .list items

theorem IsAtom.atoms {v : SExpr} (atom : IsAtom v) : v.atoms = [v] := by
  rw [SExpr.atoms]
  exact atom

theorem IsAtom.height {v : SExpr} (atom : IsAtom v) : v.height = 1 := by
  rw [SExpr.height]
  exact atom

theorem listOrAtom (v : SExpr) : (∃ items, v = .list items) ∨ IsAtom v := by
  cases v with
  | list items => exact Or.inl ⟨items, rfl⟩
  | _ => exact Or.inr fun _ same => by cases same

theorem heightPositive (v : SExpr) : 0 < v.height := by
  rcases listOrAtom v with ⟨items, rfl⟩ | atom
  · rw [heightList]
    exact Nat.succ_pos _
  · rw [atom.height]
    exact Nat.one_pos

end SExpr

open SExpr

/- A function that goes down lists to their atoms, with one complaint about values that are nested too
deeply for it. -/
structure Descends {ε β : Type} (f : Nat → SExpr → Except ε β) (deep : ε) : Prop where
  zero : ∀ v, f 0 v = .error deep
  atom : ∀ depth {v}, IsAtom v → f (depth + 1) v = f 1 v
  list : ∀ depth items, ∃ join : List β → β,
    f (depth + 1) (.list items) = (items.mapM (f depth) >>= fun parts => .ok (join parts))

namespace Descends

variable {ε β : Type} {f : Nat → SExpr → Except ε β} {deep : ε}

theorem listOk (descends : Descends f deep) {depth : Nat} {items : List SExpr} :
    (∃ b, f (depth + 1) (.list items) = .ok b) ↔ ∀ v ∈ items, ∃ b, f depth v = .ok b := by
  obtain ⟨join, step⟩ := descends.list depth items
  rw [step]
  constructor
  · rintro ⟨b, ok⟩ v member
    obtain ⟨parts, each, _⟩ := exceptBindOk.mp ok
    exact mapMResult each member
  · intro each
    obtain ⟨parts, all⟩ := mapMTotal each
    exact ⟨join parts, exceptBindOk.mpr ⟨parts, all, rfl⟩⟩

theorem listError (descends : Descends f deep) {depth : Nat} {items : List SExpr} {e : ε}
    (failed : f (depth + 1) (.list items) = .error e) : ∃ v ∈ items, f depth v = .error e := by
  obtain ⟨join, step⟩ := descends.list depth items
  rcases exceptBindError.mp (step.symm.trans failed) with failed | ⟨_, _, same⟩
  · exact mapMError failed
  · cases same

theorem okIff (descends : Descends f deep) {v : SExpr} {depth : Nat} :
    (∃ b, f depth v = .ok b) ↔ v.height ≤ depth ∧ ∀ a ∈ v.atoms, ∃ b, f 1 a = .ok b := by
  induction depth generalizing v with
  | zero =>
    rw [descends.zero]
    exact ⟨fun ⟨_, same⟩ => (nomatch same), fun enough => absurd enough.1 (Nat.not_le.mpr v.heightPositive)⟩
  | succ depth ih =>
    rcases listOrAtom v with ⟨items, rfl⟩ | atom
    · rw [descends.listOk, heightList, Nat.succ_le_succ_iff, heightAllLe]
      constructor
      · intro each
        refine ⟨fun v member => (ih.mp (each v member)).1, fun a inside => ?_⟩
        obtain ⟨v, member, inside⟩ := memberOfAtom inside
        exact (ih.mp (each v member)).2 a inside
      · rintro ⟨enough, atoms⟩ v member
        exact ih.mpr ⟨enough v member, fun a inside => atoms a (atomsOfMember member inside)⟩
    · rw [descends.atom depth atom, atom.height, atom.atoms, List.forall_mem_singleton]
      exact ⟨fun ok => ⟨Nat.succ_le_succ (Nat.zero_le _), ok⟩, And.right⟩

theorem errorCases (descends : Descends f deep) {v : SExpr} {depth : Nat} {e : ε}
    (failed : f depth v = .error e) :
    (∃ a ∈ v.atoms, f 1 a = .error e) ∨ e = deep ∧ depth < v.height := by
  induction depth generalizing v with
  | zero =>
    rw [descends.zero] at failed
    cases failed
    exact Or.inr ⟨rfl, v.heightPositive⟩
  | succ depth ih =>
    rcases listOrAtom v with ⟨items, rfl⟩ | atom
    · obtain ⟨v, member, failed⟩ := descends.listError failed
      rcases ih failed with ⟨a, inside, failed⟩ | ⟨same, deeper⟩
      · exact Or.inl ⟨a, atomsOfMember member inside, failed⟩
      · have within := heightAllLe.mp (Nat.le_refl (heightAll items)) v member
        exact Or.inr ⟨same, by rw [heightList]; omega⟩
    · rw [descends.atom depth atom] at failed
      exact Or.inl ⟨v, by simp [atom.atoms], failed⟩

theorem failsAlike (descends : Descends f deep) {v : SExpr} {bad : ε}
    (alike : ∀ a ∈ v.atoms, ∀ e, f 1 a = .error e → e = bad) (found : ∃ a ∈ v.atoms, f 1 a = .error bad)
    {depth : Nat} (enough : v.height ≤ depth) : f depth v = .error bad := by
  cases result : f depth v with
  | ok b =>
    obtain ⟨a, inside, failed⟩ := found
    obtain ⟨b, ok⟩ := (descends.okIff.mp ⟨b, result⟩).2 a inside
    rw [ok] at failed
    cases failed
  | error e =>
    rcases descends.errorCases result with ⟨a, inside, failed⟩ | ⟨_, short⟩
    · rw [alike a inside e failed]
    · exact absurd enough (Nat.not_le.mpr short)

end Descends

end Scriptlet
