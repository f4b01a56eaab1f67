import Scriptlet.Proofs.RoundTrips
import Scriptlet.Proofs.Leaves

/-! The values and trees of scripts have every text there is, unless they are nested too deeply for it. -/
namespace Scriptlet
open Transport

namespace SExpr

theorem scriptDescends : Descends script .tooDeep where
  zero _ := rfl
  atom depth v atom := by
    cases v with
    | list items => exact absurd rfl (atom items)
    | _ => rfl
  list depth items := ⟨_, rfl⟩

theorem intCharsOk {n : Int} (small : n.natAbs < 10 ^ Numeral.maxDigits) : ∃ text, intChars n = .ok text := by
  obtain ⟨text, written⟩ := Numeral.writable small
  exact ⟨text, by rw [intChars, written]⟩

end SExpr

open SExpr (TextError)

def AllSmall (atoms : List SExpr) : Prop := ∀ n, .int n ∈ atoms → n.natAbs < 10 ^ Numeral.maxDigits

theorem AllSmall.left {a b : List SExpr} (small : AllSmall (a ++ b)) : AllSmall a :=
  fun n inside => small n (List.mem_append_left b inside)

theorem AllSmall.right {a b : List SExpr} (small : AllSmall (a ++ b)) : AllSmall b :=
  fun n inside => small n (List.mem_append_right a inside)

theorem AllSmall.tail {a : SExpr} {b : List SExpr} (small : AllSmall (a :: b)) : AllSmall b :=
  fun n inside => small n (List.mem_cons_of_mem a inside)

namespace Parse

theorem compiledScript {a : SExpr} (compiled : IsCompiled a) : ∃ text, a.script 1 = .ok text := by
  cases a with
  | int n => exact SExpr.intCharsOk (compiled.small n rfl)
  | list items => exact absurd rfl (compiled.atom items)
  | «foreign» value => exact absurd rfl (compiled.native value)
  | _ => exact ⟨_, rfl⟩

theorem Carries.scriptFails {tokens : List Token} {v : SExpr} (carries : Carries tokens v) {depth : Nat}
    {e : TextError} (failed : v.script depth = .error e) : e = .tooDeep ∧ depth < v.height := by
  rcases SExpr.scriptDescends.errorCases failed with ⟨a, inside, failed⟩ | deep
  · obtain ⟨text, ok⟩ := compiledScript (carries.atoms a inside)
    rw [ok] at failed
    cases failed
  · exact deep

end Parse

namespace Json

theorem charsAllOk {items : List Json} (each : ∀ j ∈ items, ∃ text, j.chars = .ok text) :
    ∃ texts, charsAll items = .ok texts := by
  induction items with
  | nil => exact ⟨[], by rw [charsAll]⟩
  | cons j more ih =>
    obtain ⟨⟨text, head⟩, rest⟩ := List.forall_mem_cons.mp each
    obtain ⟨texts, tail⟩ := ih rest
    rw [charsAll, head, tail]
    exact ⟨text :: texts, rfl⟩

theorem encodedText {depth : Nat} {v : SExpr} {j : Json} (encoded : encode depth v = .ok j)
    (small : AllSmall v.atoms) : ∃ text, j.chars = .ok text := by
  induction depth generalizing v j with
  | zero => cases encoded
  | succ depth ih =>
    cases v with
    | null => cases encoded; rw [chars]; exact ⟨_, rfl⟩
    | bool b => cases encoded; rw [chars]; exact ⟨_, rfl⟩
    | int n =>
      cases encoded
      rw [chars]
      exact SExpr.intCharsOk (small n (by simp [SExpr.atoms]))
    | float x =>
      simp only [encode] at encoded
      split at encoded
      · cases encoded
        rw [chars]
        exact ⟨_, rfl⟩
      · cases encoded
    | str s =>
      simp only [encode] at encoded
      split at encoded
      · cases encoded
      · cases encoded
        rw [chars]
        exact ⟨_, rfl⟩
    | sym name =>
      simp only [encode] at encoded
      split at encoded
      · cases encoded
      · cases encoded
        rw [chars]
        exact ⟨_, rfl⟩
    | list items =>
      rw [encode] at encoded
      cases parts : items.mapM (encode depth) with
      | error e =>
        rw [parts] at encoded
        cases encoded
      | ok js =>
        rw [parts] at encoded
        cases encoded
        have each : ∀ j ∈ js, ∃ text, j.chars = .ok text := by
          intro j member
          obtain ⟨v, here, made⟩ := mapMSource parts member
          exact ih made fun n inside => small n (SExpr.atomsOfMember here inside)
        obtain ⟨texts, all⟩ := charsAllOk each
        rw [chars, all]
        exact ⟨_, rfl⟩
    | «foreign» value => cases encoded

end Json

namespace Node

def Shown (budget need : Nat) {α : Type} (result : Except TextError α) : Prop :=
  (∃ a, result = .ok a) ∨ result = .error .tooDeep ∧ budget < need

namespace Shown

variable {α β : Type} {budget need more : Nat}

theorem ok (a : α) : Shown budget need (.ok a : Except TextError α) := Or.inl ⟨a, rfl⟩

theorem mono {x : Except TextError α} (shown : Shown budget need x) (le : need ≤ more) : Shown budget more x :=
  shown.imp_right fun short => ⟨short.1, Nat.lt_of_lt_of_le short.2 le⟩

theorem bind {x : Except TextError α} {f : α → Except TextError β} (first : Shown budget need x)
    (next : ∀ a, Shown budget need (f a)) : Shown budget need (x >>= f) := by
  rcases first with ⟨a, rfl⟩ | ⟨rfl, short⟩
  · exact next a
  · exact Or.inr ⟨rfl, short⟩

theorem map {x : Except TextError α} {f : α → β} (first : Shown budget need x) :
    Shown budget need (x >>= fun a => .ok (f a)) := first.bind fun a => ok (f a)

end Shown

theorem mapMShown {f : Node → Except TextError (List Char)} {budget : Nat} {xs : List Node}
    (each : ∀ x ∈ xs, Shown budget (height x + 1) (f x)) : Shown budget (heightAll xs + 1) (xs.mapM f) := by
  induction xs with
  | nil => exact .ok []
  | cons x xs ih =>
    obtain ⟨first, rest⟩ := List.forall_mem_cons.mp each
    have left : height x + 1 ≤ heightAll (x :: xs) + 1 := by rw [heightAll]; omega
    have right : heightAll xs + 1 ≤ heightAll (x :: xs) + 1 := by rw [heightAll]; omega
    rw [List.mapM_cons]
    exact (first.mono left).bind fun _ => ((ih rest).mono right).map

theorem listingShown {x : Node} {need : Nat} (size : height x = need + 1)
    (step : ∀ depth, Shown depth (need + 1) (listing (depth + 1) x)) (depth : Nat) :
    Shown depth (height x + 1) (listing depth x) := by
  rw [size]
  cases depth with
  | zero => exact Or.inr ⟨by rw [listing], Nat.succ_pos _⟩
  | succ depth => exact (step depth).imp_right fun short => ⟨short.1, Nat.succ_lt_succ short.2⟩

theorem literalShown (p : Place) (kind : LiteralKind) {a : SExpr} (leaf : IsLeaf a)
    (small : ∀ n, a = .int n → n.natAbs < 10 ^ Numeral.maxDigits) (depth : Nat) :
    Shown depth (height (.literal p kind a) + 1) (listing depth (.literal p kind a)) := by
  refine listingShown (by rw [height]) (fun depth => ?_) depth
  rw [listing]
  cases depth with
  | zero => exact Or.inr ⟨rfl, Nat.one_pos⟩
  | succ depth =>
    cases leaf with
    | number unsigned =>
      cases unsigned with
      | int n =>
        obtain ⟨text, written⟩ := SExpr.intCharsOk (small n rfl)
        rw [SExpr.listing, written]
        exact .ok _
      | float code => exact .ok _
    | string => exact .ok _
    | bool => exact .ok _
    | null => exact .ok _
    | name word => exact .ok _

theorem smallMember {x : Node} {xs : List Node} (small : AllSmall (leavesAll xs)) (member : x ∈ xs) :
    AllSmall x.leaves := fun n inside => small n (leavesOfMember member inside)

theorem Fits.shown {position : Position} {x : Node} (fits : Fits position x) (small : AllSmall x.leaves)
    (depth : Nat) : Shown depth (height x + 1) (listing depth x) := by
  induction fits generalizing depth with
  | number unsigned =>
    rw [leaves] at small
    exact literalShown _ _ (.number unsigned) (fun n same => small n (by simp [same])) depth
  | string => exact literalShown _ _ .string (by simp) depth
  | bool => exact literalShown _ _ .bool (by simp) depth
  | null => exact literalShown _ _ .null (by simp) depth
  | ident => exact listingShown (by rw [height]) (fun depth => by rw [listing]; exact .ok _) depth
  | unary _ _ ih =>
    rw [leaves] at small
    refine listingShown (by rw [height]) (fun depth => ?_) depth
    rw [listing]
    exact (ih small depth).map
  | binary _ _ _ left right | logical _ _ _ left right | index _ _ left right =>
    rw [leaves] at small
    refine listingShown (by rw [height]) (fun depth => ?_) depth
    rw [listing]
    refine ((left small.left depth).mono ?_).bind fun _ => ((right small.right depth).mono ?_).map <;> omega
  | ternary _ _ _ cond yes no =>
    rw [leaves] at small
    refine listingShown (by rw [height]) (fun depth => ?_) depth
    rw [listing]
    refine ((cond small.left depth).mono ?_).bind fun _ => ((yes small.right.left depth).mono ?_).bind fun _ =>
      ((no small.right.right depth).mono ?_).map <;> omega
  | array _ each | object _ each | block _ each =>
    rw [leaves] at small
    refine listingShown (by rw [height]) (fun depth => ?_) depth
    rw [listing]
    exact (mapMShown fun x member => each x member (smallMember small member) depth).map
  | arrow _ _ ih | arrowOfBlock _ _ ih =>
    rw [leaves] at small
    refine listingShown (by rw [height]) (fun depth => ?_) depth
    rw [listing]
    exact (ih small.right depth).map
  | call _ _ callee args =>
    rw [leaves] at small
    refine listingShown (by rw [height]) (fun depth => ?_) depth
    rw [listing]
    have rest := mapMShown fun x member => args x member (smallMember small.right member) depth
    refine ((callee small.left depth).mono ?_).bind fun _ => (rest.mono ?_).map <;> omega
  | @name _ x q word _ _ target =>
    rw [leaves] at small
    refine listingShown (by rw [height]) (fun depth => ?_) depth
    rw [listing]
    have key := literalShown q .string (IsLeaf.string (s := word)) (by simp) depth
    rw [height] at key
    have tall : 1 ≤ height x := heightPositive x
    exact (target small.left depth).bind fun _ => (key.mono (Nat.succ_le_succ tall)).map
  | method _ _ _ ih =>
    rw [leaves] at small
    refine listingShown (by rw [height]) (fun depth => ?_) depth
    rw [listing]
    exact (ih small.tail.right depth).map
  | plain _ _ ih =>
    rw [leaves] at small
    refine listingShown (by rw [height]) (fun depth => ?_) depth
    rw [listing]
    exact (ih small.tail.right depth).map
  | assignment _ _ ih =>
    rw [leaves] at small
    refine listingShown (by rw [height]) (fun depth => ?_) depth
    rw [listing]
    exact (ih small.tail depth).map
  | expression _ ih => exact ih small depth

end Node

end Scriptlet
