import Scriptlet.Proofs.Nesting
import Scriptlet.Proofs.WellFormed

/-! The atoms of an S-expression are those of its tree in their order, with words of the compiler
between them. -/
namespace Scriptlet

def vocabulary : List String :=
  ["+", "-", "*", "/", "%", "=", "!=", "<", ">", "<=", ">=", "and", "or", "not", "if", "lambda", "define",
   "progn", "list", "get", "quote"]

/- What lowering adds at once: a word, or a minus sign with the zero that it takes from. -/
def IsInserted (group : List SExpr) : Prop :=
  group = [.sym "-", .int 0] ∨ ∃ word ∈ vocabulary, group = [.sym word]

inductive Interleaves {α : Type} : List α → List (List α) → List α → Prop where
  | nil : Interleaves [] [] []
  | keep {x xs groups zs} (more : Interleaves xs groups zs) : Interleaves (x :: xs) groups (x :: zs)
  | insert {xs group groups zs} (more : Interleaves xs groups zs) :
      Interleaves xs (group :: groups) (group ++ zs)

theorem Interleaves.append {α : Type} {xs xs' zs zs' : List α} {groups groups' : List (List α)}
    (first : Interleaves xs groups zs) (second : Interleaves xs' groups' zs') :
    Interleaves (xs ++ xs') (groups ++ groups') (zs ++ zs') := by
  induction first with
  | nil => exact second
  | keep _ ih => exact .keep ih
  | insert _ ih =>
    rw [List.append_assoc]
    exact .insert ih

theorem Interleaves.all {α : Type} (xs : List α) : Interleaves xs [] xs := by
  induction xs with
  | nil => exact .nil
  | cons x xs ih => exact .keep ih

def SExpr.isSymbol : SExpr → Bool
  | .sym _ => true
  | _ => false

def SExpr.isZero : SExpr → Bool
  | .int n => n == 0
  | _ => false

namespace Node

mutual

def leaves : Node → List SExpr
  | .literal _ _ v => [v]
  | .ident _ name => [.sym name]
  | .unary _ _ x => leaves x
  | .binary _ _ x y | .logical _ _ x y | .member _ x y _ => leaves x ++ leaves y
  | .ternary _ x y z => leaves x ++ (leaves y ++ leaves z)
  | .array _ xs | .object _ xs | .block _ xs => leavesAll xs
  | .property _ key _ params x => .sym key :: (params.map .sym ++ leaves x)
  | .assignment _ name x => .sym name :: leaves x
  | .arrow _ params x => params.map .sym ++ leaves x
  | .call _ f xs => leaves f ++ leavesAll xs
  | .bare _ => []

def leavesAll : List Node → List SExpr
  | [] => []
  | x :: xs => leaves x ++ leavesAll xs

end

mutual

def nodes : Node → List Node
  | .literal p k v => [.literal p k v]
  | .ident p name => [.ident p name]
  | .unary p op x => .unary p op x :: nodes x
  | .binary p op x y => .binary p op x y :: (nodes x ++ nodes y)
  | .logical p op x y => .logical p op x y :: (nodes x ++ nodes y)
  | .ternary p x y z => .ternary p x y z :: (nodes x ++ (nodes y ++ nodes z))
  | .array p xs => .array p xs :: nodesAll xs
  | .object p xs => .object p xs :: nodesAll xs
  | .property p key isMethod params x => .property p key isMethod params x :: nodes x
  | .assignment p name x => .assignment p name x :: nodes x
  | .block p xs => .block p xs :: nodesAll xs
  | .arrow p params x => .arrow p params x :: nodes x
  | .call p f xs => .call p f xs :: (nodes f ++ nodesAll xs)
  | .member p x y true => .member p x y true :: (nodes x ++ nodes y)
  | .member p x y false => .member p x y false :: nodes x
  | .bare p => [.bare p]

def nodesAll : List Node → List Node
  | [] => []
  | x :: xs => nodes x ++ nodesAll xs

end

/- How many words a node adds. A block or an object with one entry is that entry. -/
def words : Node → Nat
  | .literal _ .string _ | .unary .. | .binary .. | .logical .. | .ternary .. | .array .. | .arrow ..
  | .member .. | .assignment .. | .property .. => 1
  | .block _ xs | .object _ xs => if xs.length = 1 then 0 else 1
  | _ => 0

def zeros : Node → Nat
  | .unary _ op _ => if op = "-" then 1 else 0
  | _ => 0

def total (count : Node → Nat) : List Node → Nat
  | [] => 0
  | n :: more => count n + total count more

theorem totalAppend (count : Node → Nat) (first second : List Node) :
    total count (first ++ second) = total count first + total count second := by
  induction first with
  | nil => rw [List.nil_append, total, Nat.zero_add]
  | cons n more ih => rw [List.cons_append, total, total, ih, Nat.add_assoc]

end Node

def Keeps (leaves : List SExpr) (nodes : List Node) (atoms : List SExpr) : Prop :=
  ∃ groups, Interleaves leaves groups atoms ∧ (∀ group ∈ groups, IsInserted group) ∧
    groups.flatten.countP SExpr.isSymbol = Node.total Node.words nodes ∧
    groups.flatten.countP SExpr.isZero = Node.total Node.zeros nodes

namespace Keeps

variable {leaves leaves' atoms atoms' : List SExpr} {nodes nodes' : List Node} {n : Node}

theorem all (leaves : List SExpr) : Keeps leaves [] leaves :=
  ⟨[], .all leaves, fun _ member => absurd member List.not_mem_nil, rfl, rfl⟩

theorem append (first : Keeps leaves nodes atoms) (second : Keeps leaves' nodes' atoms') :
    Keeps (leaves ++ leaves') (nodes ++ nodes') (atoms ++ atoms') := by
  obtain ⟨groups, order, inserted, symbols, zeros⟩ := first
  obtain ⟨groups', order', inserted', symbols', zeros'⟩ := second
  refine ⟨groups ++ groups', order.append order', ?_, ?_, ?_⟩
  · intro group member
    rcases List.mem_append.mp member with left | right
    · exact inserted group left
    · exact inserted' group right
  · rw [List.flatten_append, List.countP_append, symbols, symbols', Node.totalAppend]
  · rw [List.flatten_append, List.countP_append, zeros, zeros', Node.totalAppend]

theorem last {leaf : SExpr} (inner : Keeps leaves nodes atoms) :
    Keeps (leaves ++ [leaf]) nodes (atoms ++ [leaf]) := by
  have whole := inner.append (all [leaf])
  rwa [List.append_nil] at whole

theorem silent (inner : Keeps leaves nodes atoms) (noWord : n.words = 0) (noZero : n.zeros = 0) :
    Keeps leaves (n :: nodes) atoms := by
  obtain ⟨groups, order, inserted, symbols, zeros⟩ := inner
  refine ⟨groups, order, inserted, ?_, ?_⟩
  · simp [symbols, Node.total, noWord]
  · simp [zeros, Node.total, noZero]

theorem word {text : String} (known : text ∈ vocabulary) (inner : Keeps leaves nodes atoms)
    (oneWord : n.words = 1) (noZero : n.zeros = 0) : Keeps leaves (n :: nodes) (.sym text :: atoms) := by
  obtain ⟨groups, order, inserted, symbols, zeros⟩ := inner
  refine ⟨[.sym text] :: groups, .insert order, ?_, ?_, ?_⟩
  · exact List.forall_mem_cons.mpr ⟨Or.inr ⟨text, known, rfl⟩, inserted⟩
  · simp [List.countP_cons, symbols, Node.total, oneWord, SExpr.isSymbol, Nat.add_comm]
  · simp [zeros, Node.total, noZero, SExpr.isZero]

theorem minus (inner : Keeps leaves nodes atoms) (oneWord : n.words = 1) (oneZero : n.zeros = 1) :
    Keeps leaves (n :: nodes) (.sym "-" :: .int 0 :: atoms) := by
  obtain ⟨groups, order, inserted, symbols, zeros⟩ := inner
  refine ⟨[.sym "-", .int 0] :: groups, .insert order, ?_, ?_, ?_⟩
  · exact List.forall_mem_cons.mpr ⟨Or.inl rfl, inserted⟩
  · simp [List.countP_cons, symbols, Node.total, oneWord, SExpr.isSymbol, Nat.add_comm]
  · simp [zeros, Node.total, oneZero, SExpr.isZero, Nat.add_comm]

end Keeps

namespace Node

theorem listKeeps {f : Node → Except LowerError SExpr} {xs : List Node} {vs : List SExpr}
    (each : ∀ x ∈ xs, ∀ v, f x = .ok v → Keeps x.leaves x.nodes v.atoms)
    (all : List.Forall₂ (fun x v => f x = .ok v) xs vs) :
    Keeps (leavesAll xs) (nodesAll xs) (SExpr.atomsAll vs) := by
  induction all with
  | nil =>
    rw [leavesAll, nodesAll, SExpr.atomsAll]
    exact .all []
  | cons head _ ih =>
    obtain ⟨first, rest⟩ := List.forall_mem_cons.mp each
    rw [leavesAll, nodesAll, SExpr.atomsAll]
    exact (first _ head).append (ih rest)

theorem sequenceKeeps {n : Node} {leaves : List SExpr} {nodes : List Node} {vs : List SExpr}
    (inner : Keeps leaves nodes (SExpr.atomsAll vs)) (count : n.words = if vs.length = 1 then 0 else 1)
    (noZero : n.zeros = 0) : Keeps leaves (n :: nodes) (sequence vs).atoms := by
  unfold sequence
  split
  · rw [SExpr.atomsAll, SExpr.atomsAll, List.append_nil] at inner
    exact inner.silent count noZero
  · rename_i several
    have long : vs.length ≠ 1 := by
      intro one
      obtain ⟨v, rfl⟩ := List.length_eq_one_iff.mp one
      exact several v rfl
    rw [if_neg long] at count
    rw [SExpr.atomsList, SExpr.atomsAll, SExpr.atoms]
    · exact inner.word (by decide) count noZero
    · intro items same
      cases same

theorem atomsSym (name : String) : (SExpr.sym name).atoms = [.sym name] := by
  simp only [SExpr.atoms]

theorem atomsNames (names : List String) : SExpr.atomsAll (names.map .sym) = names.map .sym := by
  induction names with
  | nil => rw [List.map_nil, SExpr.atomsAll]
  | cons name names ih => rw [List.map_cons, SExpr.atomsAll, atomsSym, ih, List.singleton_append]

theorem atomsForm (word : String) (items : List SExpr) :
    (SExpr.list (.sym word :: items)).atoms = .sym word :: SExpr.atomsAll items := by
  rw [SExpr.atomsList, SExpr.atomsAll, atomsSym, List.singleton_append]

theorem atomsOne (v : SExpr) : SExpr.atomsAll [v] = v.atoms := by
  rw [SExpr.atomsAll, SExpr.atomsAll, List.append_nil]

theorem atomsTwo (v w : SExpr) : SExpr.atomsAll [v, w] = v.atoms ++ w.atoms := by
  rw [SExpr.atomsAll, atomsOne]

theorem lookupWord {table : List (String × String)} {op form : String}
    (all : ∀ entry ∈ table, entry.2 ∈ vocabulary) (known : table.lookup op = some form) :
    form ∈ vocabulary := by
  obtain ⟨before, after, rfl, _⟩ := List.lookup_eq_some_iff.mp known
  exact all (op, form) (List.mem_append_right _ List.mem_cons_self)

theorem lowerPositive {depth : Nat} {x : Node} {v : SExpr} (ok : lower depth x = .ok v) :
    ∃ less, depth = less + 1 := by
  cases depth with
  | zero =>
    rw [lower] at ok
    cases ok
  | succ less => exact ⟨less, rfl⟩

theorem pairKeeps {n x y : Node} {word : String} {depth : Nat} {v : SExpr} (known : word ∈ vocabulary)
    (left : ∀ {depth v}, lower depth x = .ok v → Keeps x.leaves x.nodes v.atoms)
    (right : ∀ {depth v}, lower depth y = .ok v → Keeps y.leaves y.nodes v.atoms)
    (oneWord : n.words = 1) (noZero : n.zeros = 0)
    (ok : (do
      let a ← lower depth x
      let b ← lower depth y
      Except.ok (SExpr.list [.sym word, a, b])) = .ok v) :
    Keeps (x.leaves ++ y.leaves) (n :: (x.nodes ++ y.nodes)) v.atoms := by
  obtain ⟨a, first, next⟩ := exceptBindOk.mp ok
  obtain ⟨b, second, same⟩ := exceptBindOk.mp next
  cases same
  rw [atomsForm, atomsTwo]
  exact ((left first).append (right second)).word known oneWord noZero

theorem arrowKeeps {p : Place} {params : List String} {x : Node} {depth : Nat} {v : SExpr}
    (body : ∀ {depth v}, lower depth x = .ok v → Keeps x.leaves x.nodes v.atoms)
    (ok : lower depth (.arrow p params x) = .ok v) :
    Keeps (arrow p params x).leaves (arrow p params x).nodes v.atoms := by
  obtain ⟨depth, rfl⟩ := lowerPositive ok
  rw [lower] at ok
  obtain ⟨w, inner, same⟩ := exceptBindOk.mp ok
  cases same
  rw [leaves, nodes, atomsForm, atomsTwo, SExpr.atomsList, atomsNames]
  exact ((Keeps.all _).append (body inner)).word (by decide) rfl rfl

theorem Fits.keeps {position : Position} {x : Node} (fits : Fits position x) {depth : Nat} {v : SExpr}
    (ok : lower depth x = .ok v) : Keeps x.leaves x.nodes v.atoms := by
  induction fits generalizing depth v with
  | expression _ ih => exact ih ok
  | number unsigned =>
    obtain ⟨depth, rfl⟩ := lowerPositive ok
    rw [lower] at ok
    cases ok
    rw [leaves, nodes, if_neg (by decide)]
    cases unsigned with
    | int n =>
      simp only [SExpr.atoms]
      exact (Keeps.all _).silent rfl rfl
    | float code =>
      simp only [SExpr.atoms]
      exact (Keeps.all _).silent rfl rfl
  | string =>
    obtain ⟨depth, rfl⟩ := lowerPositive ok
    rw [lower] at ok
    cases ok
    rw [leaves, nodes, if_pos rfl, atomsForm, atomsOne]
    simp only [SExpr.atoms]
    exact (Keeps.all _).word (by decide) rfl rfl
  | bool =>
    obtain ⟨depth, rfl⟩ := lowerPositive ok
    rw [lower] at ok
    cases ok
    rw [leaves, nodes, if_neg (by decide)]
    simp only [SExpr.atoms]
    exact (Keeps.all _).silent rfl rfl
  | null =>
    obtain ⟨depth, rfl⟩ := lowerPositive ok
    rw [lower] at ok
    cases ok
    rw [leaves, nodes, if_neg (by decide)]
    simp only [SExpr.atoms]
    exact (Keeps.all _).silent rfl rfl
  | ident =>
    obtain ⟨depth, rfl⟩ := lowerPositive ok
    rw [lower] at ok
    cases ok
    rw [leaves, nodes, atomsSym]
    exact (Keeps.all _).silent rfl rfl
  | unary operator _ ih =>
    obtain ⟨depth, rfl⟩ := lowerPositive ok
    rw [lower] at ok
    obtain ⟨w, inner, form⟩ := exceptBindOk.mp ok
    simp only [unaryOperators, List.mem_cons, List.not_mem_nil, or_false] at operator
    rcases operator with rfl | rfl
    · cases form
      rw [leaves, nodes, atomsForm, atomsTwo]
      simp only [SExpr.atoms, List.singleton_append]
      exact (ih inner).minus rfl rfl
    · cases form
      rw [leaves, nodes, atomsForm, atomsOne]
      exact (ih inner).word (by decide) rfl rfl
  | binary operator _ _ left right =>
    obtain ⟨depth, rfl⟩ := lowerPositive ok
    obtain ⟨form, known⟩ := binaryForm operator
    rw [lower, known] at ok
    rw [leaves, nodes]
    exact pairKeeps (lookupWord (by decide) known) left right rfl rfl ok
  | logical operator _ _ left right =>
    obtain ⟨depth, rfl⟩ := lowerPositive ok
    obtain ⟨form, known⟩ := logicalForm operator
    rw [lower, known] at ok
    rw [leaves, nodes]
    exact pairKeeps (lookupWord (by decide) known) left right rfl rfl ok
  | ternary _ _ _ cond yes no =>
    obtain ⟨depth, rfl⟩ := lowerPositive ok
    rw [lower] at ok
    obtain ⟨a, first, next⟩ := exceptBindOk.mp ok
    obtain ⟨b, second, last⟩ := exceptBindOk.mp next
    obtain ⟨c, third, same⟩ := exceptBindOk.mp last
    cases same
    rw [leaves, nodes, atomsForm, SExpr.atomsAll, atomsTwo]
    exact ((cond first).append ((yes second).append (no third))).word (by decide) rfl rfl
  | array _ elements =>
    obtain ⟨depth, rfl⟩ := lowerPositive ok
    rw [lower] at ok
    obtain ⟨vs, all, same⟩ := exceptBindOk.mp ok
    cases same
    rw [leaves, nodes, atomsForm]
    have inner := listKeeps (fun x member _ => elements x member) (mapMOk.mp all)
    exact inner.word (by decide) rfl rfl
  | object _ entries =>
    obtain ⟨depth, rfl⟩ := lowerPositive ok
    rw [lower] at ok
    obtain ⟨vs, all, same⟩ := exceptBindOk.mp ok
    cases same
    rw [leaves, nodes]
    have inner := listKeeps (fun x member _ => entries x member) (mapMOk.mp all)
    exact sequenceKeeps inner (by rw [words, (mapMOk.mp all).length_eq]) rfl
  | block _ statements =>
    obtain ⟨depth, rfl⟩ := lowerPositive ok
    rw [lower] at ok
    obtain ⟨vs, all, same⟩ := exceptBindOk.mp ok
    cases same
    rw [leaves, nodes]
    have inner := listKeeps (fun x member _ => statements x member) (mapMOk.mp all)
    exact sequenceKeeps inner (by rw [words, (mapMOk.mp all).length_eq]) rfl
  | arrow _ _ ih => exact arrowKeeps ih ok
  | arrowOfBlock _ _ ih => exact arrowKeeps ih ok
  | call _ _ callee args =>
    obtain ⟨depth, rfl⟩ := lowerPositive ok
    rw [lower] at ok
    obtain ⟨w, first, next⟩ := exceptBindOk.mp ok
    obtain ⟨vs, all, same⟩ := exceptBindOk.mp next
    cases same
    rw [leaves, nodes, SExpr.atomsList, SExpr.atomsAll]
    have inner := listKeeps (fun x member _ => args x member) (mapMOk.mp all)
    exact ((callee first).append inner).silent rfl rfl
  | index _ _ target key =>
    obtain ⟨depth, rfl⟩ := lowerPositive ok
    rw [lower] at ok
    rw [leaves, nodes]
    have known : "get" ∈ vocabulary := by decide
    exact pairKeeps known target key rfl rfl ok
  | name _ _ target =>
    -- The name is a bare string, so it brings an atom and no node.
    obtain ⟨depth, rfl⟩ := lowerPositive ok
    rw [lower] at ok
    obtain ⟨a, first, same⟩ := exceptBindOk.mp ok
    cases same
    rw [leaves, leaves, nodes, atomsForm, atomsTwo]
    simp only [SExpr.atoms]
    exact (target first).last.word (by decide) rfl rfl
  | method _ _ _ ih =>
    obtain ⟨depth, rfl⟩ := lowerPositive ok
    rw [lower] at ok
    obtain ⟨w, inner, same⟩ := exceptBindOk.mp ok
    cases same
    rw [leaves, nodes, if_pos rfl, atomsForm, atomsTwo, atomsForm, atomsNames]
    exact ((Keeps.all (.sym _ :: _)).append (ih inner)).word (by decide) rfl rfl
  | plain _ _ ih =>
    obtain ⟨depth, rfl⟩ := lowerPositive ok
    rw [lower] at ok
    obtain ⟨w, inner, same⟩ := exceptBindOk.mp ok
    cases same
    rw [leaves, nodes, if_neg Bool.false_ne_true, atomsForm, atomsTwo, atomsSym]
    exact ((Keeps.all [.sym _]).append (ih inner)).word (by decide) rfl rfl
  | assignment _ _ ih =>
    obtain ⟨depth, rfl⟩ := lowerPositive ok
    rw [lower] at ok
    obtain ⟨w, inner, same⟩ := exceptBindOk.mp ok
    cases same
    rw [leaves, nodes, atomsForm, atomsTwo, atomsSym]
    exact ((Keeps.all [.sym _]).append (ih inner)).word (by decide) rfl rfl

end Node

end Scriptlet
