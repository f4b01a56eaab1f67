import Scriptlet.Compile
import Scriptlet.Proofs.Comparison
import Scriptlet.Proofs.TiedRules

/-! Trees without their places. Trees that differ in nothing else have the same S-expression, or are refused
for the same reason. -/
namespace Scriptlet

inductive Family where
  | token | parse | numeral | exhausted | construct | depth
  deriving DecidableEq, Repr

def Parse.Cause.family : Parse.Cause → Family
  | .numeral _ => .numeral
  | .exhausted => .exhausted
  | _ => .parse

def LowerError.family : LowerError → Family
  | .unsupported .. => .construct
  | .tooDeep => .depth

def CompileError.family : CompileError → Family
  | .token _ => .token
  | .parse e => e.cause.family
  | .lowering e => e.family

inductive EndsAlike {α : Type} (R : α → α → Prop) : Except CompileError α → Except CompileError α → Prop where
  | ok {a b} (value : R a b) : EndsAlike R (.ok a) (.ok b)
  | error {e e'} (family : e.family = e'.family) : EndsAlike R (.error e) (.error e')

namespace EndsAlike

variable {α β : Type} {R : α → α → Prop} {S : β → β → Prop} {x y : Except CompileError α}

theorem bind {f g : α → Except CompileError β} (first : EndsAlike R x y)
    (next : ∀ a b, R a b → EndsAlike S (f a) (g b)) : EndsAlike S (x >>= f) (y >>= g) := by
  cases first with
  | ok value => exact next _ _ value
  | error family => exact .error family

theorem imp {T : α → α → Prop} (ends : EndsAlike R x y) (weaker : ∀ a b, R a b → T a b) : EndsAlike T x y := by
  cases ends with
  | ok value => exact .ok (weaker _ _ value)
  | error family => exact .error family

end EndsAlike

def LowerError.unplaced : LowerError → LowerError
  | .unsupported what _ => .unsupported what default
  | .tooDeep => .tooDeep

theorem LowerError.unplacedFamily (e : LowerError) : e.unplaced.family = e.family := by
  cases e with
  | unsupported what place => rfl
  | tooDeep => rfl

namespace Node

mutual

def unplaced : Node → Node
  | .literal _ kind value => .literal default kind value
  | .ident _ name => .ident default name
  | .unary _ op x => .unary default op x.unplaced
  | .binary _ op x y => .binary default op x.unplaced y.unplaced
  | .logical _ op x y => .logical default op x.unplaced y.unplaced
  | .ternary _ x y z => .ternary default x.unplaced y.unplaced z.unplaced
  | .array _ xs => .array default (unplacedAll xs)
  | .object _ xs => .object default (unplacedAll xs)
  | .property _ key isMethod params value => .property default key isMethod params value.unplaced
  | .assignment _ name value => .assignment default name value.unplaced
  | .block _ xs => .block default (unplacedAll xs)
  | .arrow _ params body => .arrow default params body.unplaced
  | .call _ callee args => .call default callee.unplaced (unplacedAll args)
  | .member _ target key computed => .member default target.unplaced key.unplaced computed
  | .bare _ => .bare default

def unplacedAll : List Node → List Node
  | [] => []
  | x :: xs => x.unplaced :: unplacedAll xs

end

theorem unplacedKey (key : Node) : key.unplaced.key? = key.key? := by
  cases key with
  | literal _ kind _ => cases kind <;> rfl
  | _ => rfl

theorem mapErrorBind {ε ε' α β : Type} (g : ε → ε') (x : Except ε α) (f : α → Except ε β) :
    (x >>= f).mapError g = x.mapError g >>= fun a => (f a).mapError g := by
  cases x with
  | error e => rfl
  | ok a => rfl

theorem mapMUnplaced {f : Node → Except LowerError SExpr}
    (each : ∀ x, f x.unplaced = (f x).mapError LowerError.unplaced) (xs : List Node) :
    (unplacedAll xs).mapM f = (xs.mapM f).mapError LowerError.unplaced := by
  induction xs with
  | nil => rfl
  | cons x xs ih =>
    rw [unplacedAll, List.mapM_cons, List.mapM_cons, mapErrorBind, each, ih]
    simp only [mapErrorBind]
    rfl

/- By induction on the depth: lowering never looks at a place, and puts one into a complaint only. -/
theorem lowerUnplaced (depth : Nat) (x : Node) :
    lower depth x.unplaced = (lower depth x).mapError LowerError.unplaced := by
  induction depth generalizing x with
  | zero => rfl
  | succ depth ih =>
    have all := mapMUnplaced ih
    cases x with
    | literal | ident | bare => rfl
    | unary _ op x =>
      rw [unplaced, lower, lower, ih, mapErrorBind]
      refine congrArg _ (funext fun v => ?_)
      split
      · rfl
      · split <;> rfl
    | binary _ op x y =>
      rw [unplaced, lower, lower]
      cases binaryForms.lookup op with
      | none => rfl
      | some form =>
        simp only [ih, mapErrorBind]
        rfl
    | logical _ op x y =>
      rw [unplaced, lower, lower]
      cases logicalForms.lookup op with
      | none => rfl
      | some form =>
        simp only [ih, mapErrorBind]
        rfl
    | member _ target key computed =>
      rw [unplaced, lower, lower, unplacedKey, ih, mapErrorBind]
      refine congrArg _ (funext fun v => ?_)
      cases computed with
      | true =>
        simp only [ih, mapErrorBind, if_true]
        rfl
      | false => cases key.key? <;> rfl
    | _ =>
      rw [unplaced, lower, lower]
      simp only [ih, all, mapErrorBind]
      rfl

end Node

structure Twin (x y : Node) : Prop where
  same : x.same y = true
  bare : x.unplaced = y.unplaced

theorem lowerTwin (depth : Nat) {x y : Node} (twin : Twin x y) : EndsAlike Eq (lower depth x) (lower depth y) := by
  have left := Node.lowerUnplaced depth x
  have right := Node.lowerUnplaced depth y
  rw [twin.bare, right] at left
  unfold lower
  generalize x.lower depth = result, y.lower depth = result' at left
  cases result with
  | ok v => cases result' with
    | ok w => exact .ok (Except.ok.inj left).symm
    | error e => cases left
  | error e => cases result' with
    | ok w => cases left
    | error e' =>
      refine .error ?_
      have same : e'.unplaced = e.unplaced := Except.error.inj left
      calc e.family
        _ = e.unplaced.family := e.unplacedFamily.symm
        _ = e'.unplaced.family := by rw [same]
        _ = e'.family := e'.unplacedFamily

namespace Twin
open Node (unplaced unplacedAll)

variable {xs ys : List Node}

theorem allSame (each : List.Forall₂ Twin xs ys) : Node.sameAll xs ys = true :=
  Node.sameAllOf (each.imp fun _ _ twin => twin.same)

theorem allBare (each : List.Forall₂ Twin xs ys) : unplacedAll xs = unplacedAll ys := by
  induction each with
  | nil => rfl
  | cons head _ ih => rw [unplacedAll, unplacedAll, head.bare, ih]

end Twin

theorem twinCongruent {B : Parse.Bond} [laws : B.Lawful] : Parse.Congruent B Twin where
  literal _ _ self := ⟨by simp [Node.same, self], rfl⟩
  ident word := ⟨by simp [Node.same, laws.value word], by simp [Node.unplaced, laws.value word]⟩
  unary word operand := ⟨by simp [Node.same, laws.value word, operand.same],
    by simp [Node.unplaced, laws.value word, operand.bare]⟩
  binary _ left right := ⟨by simp [Node.same, left.same, right.same], by simp [Node.unplaced, left.bare, right.bare]⟩
  logical _ left right := ⟨by simp [Node.same, left.same, right.same], by simp [Node.unplaced, left.bare, right.bare]⟩
  ternary cond yes no := ⟨by simp [Node.same, cond.same, yes.same, no.same],
    by simp [Node.unplaced, cond.bare, yes.bare, no.bare]⟩
  array _ elements := ⟨by simp [Node.same, Twin.allSame elements], by simp [Node.unplaced, Twin.allBare elements]⟩
  object _ entries := ⟨by simp [Node.same, Twin.allSame entries], by simp [Node.unplaced, Twin.allBare entries]⟩
  property _ _ word value := ⟨by simp [Node.same, laws.value word, value.same],
    by simp [Node.unplaced, laws.value word, value.bare]⟩
  assignment word value := ⟨by simp [Node.same, laws.value word, value.same],
    by simp [Node.unplaced, laws.value word, value.bare]⟩
  block _ statements := ⟨by simp [Node.same, Twin.allSame statements],
    by simp [Node.unplaced, Twin.allBare statements]⟩
  arrow _ _ body := ⟨by simp [Node.same, body.same], by simp [Node.unplaced, body.bare]⟩
  call callee args := ⟨by simp [Node.same, callee.same, Twin.allSame args],
    by simp [Node.unplaced, callee.bare, Twin.allBare args]⟩
  member _ target key := ⟨by simp [Node.same, target.same, key.same],
    by simp [Node.unplaced, target.bare, key.bare]⟩

end Scriptlet
