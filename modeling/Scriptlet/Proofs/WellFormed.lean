import Scriptlet.Node.Lowering
import Scriptlet.Proofs.Ebnf
import Scriptlet.Proofs.Repetition

/-! The trees that scripts have. Where a node stands decides what it can be, and a tree that is well
formed fails to have an S-expression only if it is nested too deeply. -/
namespace Scriptlet

namespace Node

inductive IsUnsigned : SExpr → Prop where
  | int (n : Nat) : IsUnsigned (.int n)
  | float (code : Fin Binary64.codes) : IsUnsigned (.float (.finite false code))

/- Where a node stands: for a value, directly in a block, directly in an object, or as a body. -/
inductive Position where
  | value | statement | entry | body

def unaryOperators : List String := ["-", "!"]

def binaryOperators : List String := ["+", "-", "*", "/", "%", "==", "!=", "<", ">", "<=", ">="]

def logicalOperators : List String := ["&&", "||"]

def IsName (name : String) : Prop := Ebnf.IsName name.toList

inductive Fits : Position → Node → Prop where
  | number {p v} (unsigned : IsUnsigned v) : Fits .value (.literal p .number v)
  | string {p s} : Fits .value (.literal p .string (.str s))
  | bool {p b} : Fits .value (.literal p .bool (.bool b))
  | null {p} : Fits .value (.literal p .null .null)
  | ident {p name} (word : IsName name) : Fits .value (.ident p name)
  | unary {p op x} (operator : op ∈ unaryOperators) (operand : Fits .value x) :
      Fits .value (.unary p op x)
  | binary {p op x y} (operator : op ∈ binaryOperators) (left : Fits .value x) (right : Fits .value y) :
      Fits .value (.binary p op x y)
  | logical {p op x y} (operator : op ∈ logicalOperators) (left : Fits .value x) (right : Fits .value y) :
      Fits .value (.logical p op x y)
  | ternary {p x y z} (cond : Fits .value x) (yes : Fits .value y) (no : Fits .value z) :
      Fits .value (.ternary p x y z)
  | array {p xs} (elements : ∀ x ∈ xs, Fits .value x) : Fits .value (.array p xs)
  | object {p xs} (entries : ∀ x ∈ xs, Fits .entry x) : Fits .value (.object p xs)
  | arrow {p params x} (words : ∀ name ∈ params, IsName name) (result : Fits .value x) :
      Fits .value (.arrow p params x)
  | arrowOfBlock {p params x} (words : ∀ name ∈ params, IsName name) (body : Fits .body x) :
      Fits .value (.arrow p params x)
  | call {p f xs} (callee : Fits .value f) (args : ∀ x ∈ xs, Fits .value x) : Fits .value (.call p f xs)
  | index {p x y} (target : Fits .value x) (key : Fits .value y) : Fits .value (.member p x y true)
  | name {p x q name} (target : Fits .value x) (word : IsName name) :
      Fits .value (.member p x (.literal q .string (.str name)) false)
  | method {p key params x} (word : IsName key) (words : ∀ name ∈ params, IsName name)
      (body : Fits .body x) : Fits .entry (.property p key true params x)
  | plain {p key x} (word : IsName key) (value : Fits .value x) : Fits .entry (.property p key false [] x)
  | block {p xs} (statements : ∀ x ∈ xs, Fits .statement x) : Fits .body (.block p xs)
  | assignment {p name x} (word : IsName name) (value : Fits .value x) :
      Fits .statement (.assignment p name x)
  | expression {x} (value : Fits .value x) : Fits .statement x

theorem binaryForm {op : String} (operator : op ∈ binaryOperators) : ∃ form, binaryForms.lookup op = some form := by
  have all : ∀ op ∈ binaryOperators, (binaryForms.lookup op).isSome = true := by decide
  exact Option.isSome_iff_exists.mp (all op operator)

theorem logicalForm {op : String} (operator : op ∈ logicalOperators) :
    ∃ form, logicalForms.lookup op = some form := by
  have all : ∀ op ∈ logicalOperators, (logicalForms.lookup op).isSome = true := by decide
  exact Option.isSome_iff_exists.mp (all op operator)

mutual

/- How deep a tree is nested. The name after a point has no depth of its own. -/
def height : Node → Nat
  | .literal .. | .ident .. | .bare .. => 1
  | .unary _ _ x | .property _ _ _ _ x | .assignment _ _ x | .arrow _ _ x | .member _ x _ false =>
    height x + 1
  | .binary _ _ x y | .logical _ _ x y | .member _ x y true => max (height x) (height y) + 1
  | .ternary _ x y z => max (height x) (max (height y) (height z)) + 1
  | .array _ xs | .object _ xs | .block _ xs => heightAll xs + 1
  | .call _ f xs => max (height f) (heightAll xs) + 1

def heightAll : List Node → Nat
  | [] => 0
  | x :: xs => max (height x) (heightAll xs)

end

theorem heightAllLe {xs : List Node} {depth : Nat} : heightAll xs ≤ depth ↔ ∀ x ∈ xs, x.height ≤ depth := by
  induction xs with
  | nil => simp [heightAll]
  | cons x xs ih => rw [heightAll, Nat.max_le, ih, List.forall_mem_cons]

theorem heightPositive (x : Node) : 0 < x.height := by
  cases x with
  | member _ _ _ computed => cases computed <;> exact Nat.succ_pos _
  | _ => exact Nat.succ_pos _

def Within (budget need : Nat) {α : Type} (result : Except LowerError α) : Prop :=
  (need ≤ budget → ∃ a, result = .ok a) ∧ (budget < need → result = .error .tooDeep)

namespace Within

variable {α β : Type} {budget need more : Nat}

theorem ok (a : α) : Within budget 0 (.ok a : Except LowerError α) :=
  ⟨fun _ => ⟨a, rfl⟩, fun short => absurd short (Nat.not_lt_zero _)⟩

theorem bind {x : Except LowerError α} {f : α → Except LowerError β} (first : Within budget need x)
    (next : ∀ a, Within budget more (f a)) : Within budget (max need more) (x >>= f) := by
  constructor
  · intro enough
    obtain ⟨a, rfl⟩ := first.1 (Nat.le_trans (Nat.le_max_left _ _) enough)
    exact (next a).1 (Nat.le_trans (Nat.le_max_right _ _) enough)
  · intro short
    by_cases enough : need ≤ budget
    · obtain ⟨a, rfl⟩ := first.1 enough
      have rest : budget < more := by omega
      exact (next a).2 rest
    · rw [first.2 (Nat.not_le.mp enough)]
      rfl

theorem map {x : Except LowerError α} {f : α → β} (first : Within budget need x) :
    Within budget need (x >>= fun a => .ok (f a)) := by
  have whole := first.bind fun a => ok (f a)
  rwa [Nat.max_zero] at whole

end Within

theorem mapMWithin {f : Node → Except LowerError SExpr} {budget : Nat} {xs : List Node}
    (each : ∀ x ∈ xs, Within budget (height x) (f x)) : Within budget (heightAll xs) (xs.mapM f) := by
  induction xs with
  | nil => exact .ok []
  | cons x xs ih =>
    obtain ⟨first, rest⟩ := List.forall_mem_cons.mp each
    rw [List.mapM_cons, heightAll]
    exact first.bind fun a => (ih rest).map

theorem lowerWithin {x : Node} {need : Nat} (size : height x = need + 1)
    (step : ∀ depth, Within depth need (lower (depth + 1) x)) (depth : Nat) :
    Within depth (height x) (lower depth x) := by
  rw [size]
  cases depth with
  | zero =>
    refine ⟨fun enough => absurd enough (Nat.not_succ_le_zero _), fun _ => ?_⟩
    rw [lower]
  | succ depth =>
    obtain ⟨enough, short⟩ := step depth
    exact ⟨fun le => enough (Nat.le_of_succ_le_succ le), fun lt => short (Nat.lt_of_succ_lt_succ lt)⟩

theorem Fits.lowers {position : Position} {x : Node} (fits : Fits position x) (depth : Nat) :
    Within depth (height x) (lower depth x) := by
  induction fits generalizing depth with
  | number => exact lowerWithin (by rw [height]) (fun _ => by simpa [lower] using .ok _) depth
  | string => exact lowerWithin (by rw [height]) (fun _ => by simpa [lower] using .ok _) depth
  | bool => exact lowerWithin (by rw [height]) (fun _ => by simpa [lower] using .ok _) depth
  | null => exact lowerWithin (by rw [height]) (fun _ => by simpa [lower] using .ok _) depth
  | ident => exact lowerWithin (by rw [height]) (fun _ => by simpa [lower] using .ok _) depth
  | unary operator _ ih =>
    refine lowerWithin (by rw [height]) (fun depth => ?_) depth
    rw [lower]
    simp only [unaryOperators, List.mem_cons, List.not_mem_nil, or_false] at operator
    rcases operator with rfl | rfl
    · exact (ih depth).map
    · exact (ih depth).map
  | binary operator _ _ left right =>
    refine lowerWithin (by rw [height]) (fun depth => ?_) depth
    obtain ⟨form, known⟩ := binaryForm operator
    rw [lower, known]
    exact (left depth).bind fun _ => (right depth).map
  | logical operator _ _ left right =>
    refine lowerWithin (by rw [height]) (fun depth => ?_) depth
    obtain ⟨form, known⟩ := logicalForm operator
    rw [lower, known]
    exact (left depth).bind fun _ => (right depth).map
  | ternary _ _ _ cond yes no =>
    refine lowerWithin (by rw [height]) (fun depth => ?_) depth
    rw [lower]
    exact (cond depth).bind fun _ => (yes depth).bind fun _ => (no depth).map
  | array _ elements =>
    refine lowerWithin (by rw [height]) (fun depth => ?_) depth
    rw [lower]
    exact (mapMWithin fun x member => elements x member depth).map
  | object _ entries =>
    refine lowerWithin (by rw [height]) (fun depth => ?_) depth
    rw [lower]
    exact (mapMWithin fun x member => entries x member depth).map
  | arrow _ _ ih =>
    refine lowerWithin (by rw [height]) (fun depth => ?_) depth
    rw [lower]
    exact (ih depth).map
  | arrowOfBlock _ _ ih =>
    refine lowerWithin (by rw [height]) (fun depth => ?_) depth
    rw [lower]
    exact (ih depth).map
  | call _ _ callee args =>
    refine lowerWithin (by rw [height]) (fun depth => ?_) depth
    rw [lower]
    exact (callee depth).bind fun _ => (mapMWithin fun x member => args x member depth).map
  | index _ _ target key =>
    refine lowerWithin (by rw [height]) (fun depth => ?_) depth
    rw [lower]
    exact (target depth).bind fun _ => (key depth).map
  | name _ _ target =>
    refine lowerWithin (by rw [height]) (fun depth => ?_) depth
    rw [lower]
    exact (target depth).map
  | method _ _ _ ih =>
    refine lowerWithin (by rw [height]) (fun depth => ?_) depth
    rw [lower]
    exact (ih depth).map
  | plain _ _ ih =>
    refine lowerWithin (by rw [height]) (fun depth => ?_) depth
    rw [lower]
    exact (ih depth).map
  | block _ statements =>
    refine lowerWithin (by rw [height]) (fun depth => ?_) depth
    rw [lower]
    exact (mapMWithin fun x member => statements x member depth).map
  | assignment _ _ ih =>
    refine lowerWithin (by rw [height]) (fun depth => ?_) depth
    rw [lower]
    exact (ih depth).map
  | expression _ ih => exact ih depth

end Node

end Scriptlet
