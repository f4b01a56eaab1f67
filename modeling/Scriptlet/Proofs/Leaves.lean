import Scriptlet.Proofs.Nesting
import Scriptlet.Proofs.ScannerSteps
import Scriptlet.Proofs.Yield

/-! The atoms that a script can bring into its S-expression: names, numbers in range, truth values, the
null, and its strings, which are the values of its string tokens and the names after its points. -/
namespace Scriptlet
open Transport

inductive IsLeaf : SExpr → Prop where
  | number {v} (unsigned : Node.IsUnsigned v) : IsLeaf v
  | string {s} : IsLeaf (.str s)
  | bool {b} : IsLeaf (.bool b)
  | null : IsLeaf .null
  | name {name} (word : Node.IsName name) : IsLeaf (.sym name)

namespace Node

theorem leavesAllMem {a : SExpr} {xs : List Node} (inside : a ∈ leavesAll xs) : ∃ x ∈ xs, a ∈ x.leaves := by
  induction xs with
  | nil =>
    rw [leavesAll] at inside
    cases inside
  | cons x xs ih =>
    rw [leavesAll, List.mem_append] at inside
    rcases inside with here | later
    · exact ⟨x, List.mem_cons_self, here⟩
    · obtain ⟨y, member, inside⟩ := ih later
      exact ⟨y, List.mem_cons_of_mem x member, inside⟩

theorem leavesOfMember {a : SExpr} {x : Node} {xs : List Node} (member : x ∈ xs) (inside : a ∈ x.leaves) :
    a ∈ leavesAll xs := by
  induction xs with
  | nil => cases member
  | cons y ys ih =>
    rw [leavesAll, List.mem_append]
    rcases List.mem_cons.mp member with rfl | later
    · exact Or.inl inside
    · exact Or.inr (ih later)

theorem leafOfNames {names : List String} (words : ∀ name ∈ names, IsName name) :
    ∀ a ∈ names.map SExpr.sym, IsLeaf a := by
  intro a inside
  obtain ⟨name, member, rfl⟩ := List.mem_map.mp inside
  exact .name (words name member)

theorem Fits.leaf {position : Position} {x : Node} (fits : Fits position x) : ∀ a ∈ x.leaves, IsLeaf a := by
  induction fits with
  | number unsigned =>
    rw [leaves]
    exact List.forall_mem_singleton.mpr (.number unsigned)
  | string =>
    rw [leaves]
    exact List.forall_mem_singleton.mpr .string
  | bool =>
    rw [leaves]
    exact List.forall_mem_singleton.mpr .bool
  | null =>
    rw [leaves]
    exact List.forall_mem_singleton.mpr .null
  | ident word =>
    rw [leaves]
    exact List.forall_mem_singleton.mpr (.name word)
  | unary _ _ operand =>
    rw [leaves]
    exact operand
  | binary _ _ _ left right | logical _ _ _ left right | index _ _ left right =>
    rw [leaves]
    exact List.forall_mem_append.mpr ⟨left, right⟩
  | ternary _ _ _ cond yes no =>
    rw [leaves]
    exact List.forall_mem_append.mpr ⟨cond, List.forall_mem_append.mpr ⟨yes, no⟩⟩
  | array _ each | object _ each | block _ each =>
    rw [leaves]
    intro a inside
    obtain ⟨x, member, inside⟩ := leavesAllMem inside
    exact each x member a inside
  | arrow words _ body | arrowOfBlock words _ body =>
    rw [leaves]
    exact List.forall_mem_append.mpr ⟨leafOfNames words, body⟩
  | call _ _ callee args =>
    rw [leaves]
    refine List.forall_mem_append.mpr ⟨callee, fun a inside => ?_⟩
    obtain ⟨x, member, inside⟩ := leavesAllMem inside
    exact args x member a inside
  | name _ _ target =>
    rw [leaves, leaves]
    exact List.forall_mem_append.mpr ⟨target, List.forall_mem_singleton.mpr .string⟩
  | method word words _ body =>
    rw [leaves]
    exact List.forall_mem_cons.mpr ⟨.name word, List.forall_mem_append.mpr ⟨leafOfNames words, body⟩⟩
  | plain word _ value =>
    rw [leaves]
    exact List.forall_mem_cons.mpr ⟨.name word, value⟩
  | assignment word _ value =>
    rw [leaves]
    exact List.forall_mem_cons.mpr ⟨.name word, value⟩
  | expression _ ih => exact ih

end Node

theorem Interleaves.cases {α : Type} {xs zs : List α} {groups : List (List α)}
    (order : Interleaves xs groups zs) {a : α} : a ∈ zs ↔ a ∈ xs ∨ ∃ group ∈ groups, a ∈ group := by
  induction order with
  | nil => simp
  | keep _ ih => simp [ih, or_assoc]
  | insert _ ih => simp [ih, or_left_comm]

namespace Parse

def HoldsSentinel (tokens : List Token) : Prop :=
  ∃ t ∈ tokens, t.kind = .string ∧ sentinel ∈ t.value.toList

instance (tokens : List Token) : Decidable (HoldsSentinel tokens) :=
  inferInstanceAs (Decidable (∃ t ∈ tokens, t.kind = .string ∧ sentinel ∈ t.value.toList))

theorem nameChars {name : String} (word : Node.IsName name) :
    ∀ c ∈ name.toList, c.isAlphanum = true ∨ c = '_' := by
  obtain ⟨_, c, rest, same, start, parts⟩ := word
  rw [same]
  refine List.forall_mem_cons.mpr ⟨?_, parts⟩
  rcases start with alpha | under
  · exact Or.inl (by simp [Char.isAlphanum, alpha])
  · exact Or.inr under

theorem nameNoSentinel {name : String} (word : Node.IsName name) : sentinel ∉ name.toList := by
  intro inside
  exact absurd (nameChars word _ inside) (by decide)

theorem numberAtomCases {text : String} {a : SExpr} (value : numberAtom text = some a) :
    (∃ n, a = .int n ∧ n.natAbs < 10 ^ Numeral.maxDigits) ∨ ∃ x, a = .float x := by
  unfold numberAtom at value
  split at value
  · cases value
  · rename_i m read
    split at value
    · obtain ⟨n, ok, same⟩ := Option.map_eq_some_iff.mp value
      cases found : m.toInt with
      | error e =>
        rw [found] at ok
        cases ok
      | ok k =>
        rw [found] at ok
        cases ok
        exact Or.inl ⟨n, same.symm, Numeral.toIntSmall read found⟩
    · cases value
      exact Or.inr ⟨_, rfl⟩

theorem tokenAtomString {t : Token} {text : String} :
    tokenAtom false false t = some (.str text) ↔ t.kind = .string ∧ t.value = text := by
  constructor
  · intro value
    unfold tokenAtom at value
    split at value
    · cases value
    · rename_i kind
      cases value
      exact ⟨kind, rfl⟩
    · rcases numberAtomCases value with ⟨_, same, _⟩ | ⟨_, same⟩ <;> cases same
    · cases value
    · cases value
    · cases value
    · cases value
  · rintro ⟨kind, rfl⟩
    simp [tokenAtom, kind]

theorem tokenAtomInt {t : Token} {n : Int} (value : tokenAtom false false t = some (.int n)) :
    n.natAbs < 10 ^ Numeral.maxDigits := by
  unfold tokenAtom at value
  split at value
  · cases value
  · cases value
  · rcases numberAtomCases value with ⟨_, same, small⟩ | ⟨_, same⟩
    · cases same
      exact small
    · cases same
  · cases value
  · cases value
  · cases value
  · cases value

namespace Spells

variable {s : List Token} {atoms : List SExpr} {keys : List Place}

theorem small (spells : Spells s atoms keys) : ∀ n, .int n ∈ atoms → n.natAbs < 10 ^ Numeral.maxDigits := by
  intro n inside
  induction spells with
  | nil => cases inside
  | mark _ _ ih => exact ih inside
  | atom value _ ih =>
    rcases List.mem_cons.mp inside with rfl | later
    · exact tokenAtomInt value
    · exact ih later
  | key _ _ ih =>
    rcases List.mem_cons.mp inside with same | later
    · cases same
    · exact ih later
  | name _ _ _ ih =>
    rcases List.mem_cons.mp inside with same | later
    · cases same
    · exact ih later

theorem strings (spells : Spells s atoms keys) {text : String} (inside : .str text ∈ atoms) :
    ∃ t ∈ s, t.value = text ∧ (t.kind = .string ∨ t.kind = .ident) := by
  induction spells with
  | nil => cases inside
  | mark _ _ ih =>
    obtain ⟨t, member, found⟩ := ih inside
    exact ⟨t, List.mem_cons_of_mem _ member, found⟩
  | atom value _ ih =>
    rcases List.mem_cons.mp inside with rfl | later
    · obtain ⟨kind, same⟩ := tokenAtomString.mp value
      exact ⟨_, List.mem_cons_self, same, Or.inl kind⟩
    · obtain ⟨t, member, found⟩ := ih later
      exact ⟨t, List.mem_cons_of_mem _ member, found⟩
  | key _ _ ih =>
    rcases List.mem_cons.mp inside with same | later
    · cases same
    · obtain ⟨t, member, found⟩ := ih later
      exact ⟨t, List.mem_cons_of_mem _ member, found⟩
  | name _ word _ ih =>
    rcases List.mem_cons.mp inside with same | later
    · cases same
      exact ⟨_, List.mem_cons_of_mem _ List.mem_cons_self, rfl, Or.inr word⟩
    · obtain ⟨t, member, found⟩ := ih later
      exact ⟨t, List.mem_cons_of_mem _ (List.mem_cons_of_mem _ member), found⟩

theorem stringToken (spells : Spells s atoms keys) {t : Token} (member : t ∈ s) (kind : t.kind = .string) :
    .str t.value ∈ atoms ∨ Node.IsName t.value := by
  induction spells with
  | nil => cases member
  | mark silent _ ih =>
    rcases List.mem_cons.mp member with rfl | later
    · rw [kind] at silent
      cases silent
    · exact ih later
  | atom value _ ih =>
    rcases List.mem_cons.mp member with rfl | later
    · rw [tokenAtomString.mpr ⟨kind, rfl⟩] at value
      cases value
      exact Or.inl List.mem_cons_self
    · exact (ih later).imp_left (List.mem_cons_of_mem _)
  | key word _ ih =>
    rcases List.mem_cons.mp member with rfl | later
    · rcases word with ident | ⟨_, key⟩
      · rw [ident] at kind
        cases kind
      · exact Or.inr ((isKeyIff _).mp key)
    · exact (ih later).imp_left (List.mem_cons_of_mem _)
  | name point word _ ih =>
    rcases List.mem_cons.mp member with rfl | later
    · rw [point] at kind
      cases kind
    · rcases List.mem_cons.mp later with rfl | later
      · rw [word] at kind
        cases kind
      · exact (ih later).imp_left (List.mem_cons_of_mem _)

theorem sentinelIff (spells : Spells s atoms keys) (shaped : AllShaped s) :
    HoldsSentinel s ↔ ∃ text, .str text ∈ atoms ∧ sentinel ∈ text.toList := by
  constructor
  · rintro ⟨t, member, kind, holds⟩
    rcases spells.stringToken member kind with inside | word
    · exact ⟨t.value, inside, holds⟩
    · exact absurd holds (nameNoSentinel word)
  · rintro ⟨text, inside, holds⟩
    obtain ⟨t, member, rfl, kind | kind⟩ := spells.strings inside
    · exact ⟨t, member, kind, holds⟩
    · exact absurd holds (nameNoSentinel (nameOfIdent (shaped t member) kind))

end Spells

inductive IsCompiled : SExpr → Prop where
  | leaf {a} (leaf : IsLeaf a) (small : ∀ n, a = .int n → n.natAbs < 10 ^ Numeral.maxDigits) : IsCompiled a
  | word {text} (known : text ∈ vocabulary) : IsCompiled (.sym text)

namespace IsCompiled

variable {a : SExpr}

theorem small (compiled : IsCompiled a) : ∀ n, a = .int n → n.natAbs < 10 ^ Numeral.maxDigits := by
  cases compiled with
  | leaf _ small => exact small
  | word => exact fun _ same => (nomatch same)

theorem finite (compiled : IsCompiled a) {x : Binary64} (same : a = .float x) : x.isFinite = true := by
  subst same
  cases compiled with
  | leaf leaf _ =>
    cases leaf with
    | number unsigned =>
      cases unsigned
      rfl

theorem atom (compiled : IsCompiled a) : a.IsAtom := by
  rintro items rfl
  cases compiled with
  | leaf leaf _ =>
    cases leaf with
    | number unsigned => cases unsigned

theorem native (compiled : IsCompiled a) : ∀ value, a ≠ .foreign value := by
  rintro value rfl
  cases compiled with
  | leaf leaf _ =>
    cases leaf with
    | number unsigned => cases unsigned

end IsCompiled

structure Carries (tokens : List Token) (v : SExpr) : Prop where
  atoms : ∀ a ∈ v.atoms, IsCompiled a
  strings : ∀ text, .str text ∈ v.atoms → ∃ t ∈ tokens, t.value = text
  sentinel : HoldsSentinel tokens ↔ ∃ text, .str text ∈ v.atoms ∧ sentinel ∈ text.toList

theorem insertedCases {group : List SExpr} (inserted : IsInserted group) {a : SExpr} (inside : a ∈ group) :
    a = .int 0 ∨ ∃ text ∈ vocabulary, a = .sym text := by
  rcases inserted with rfl | ⟨text, known, rfl⟩
  · rcases List.mem_cons.mp inside with rfl | later
    · exact Or.inr ⟨"-", by decide, rfl⟩
    · exact Or.inl (List.mem_singleton.mp later)
  · exact Or.inr ⟨text, known, List.mem_singleton.mp inside⟩

theorem loweredCarries {tree : Node} {body : List Token} {depth : Nat} {v : SExpr} (shaped : AllShaped body)
    (reads : ReadsProgram tree body) (lowered : tree.lower depth = .ok v) : Carries body v := by
  have fits := programFits shaped reads
  have spells := programSpelled reads
  obtain ⟨groups, order, inserted, _⟩ := fits.keeps lowered
  have kept : ∀ text, .str text ∈ v.atoms ↔ .str text ∈ tree.leaves := by
    intro text
    rw [order.cases]
    refine or_iff_left ?_
    rintro ⟨group, member, inside⟩
    rcases insertedCases (inserted group member) inside with same | ⟨_, _, same⟩ <;> cases same
  refine ⟨fun a inside => ?_, fun text inside => ?_, ?_⟩
  · rcases order.cases.mp inside with leaf | ⟨group, member, inside⟩
    · exact .leaf (fits.leaf a leaf) fun n same => spells.small n (same ▸ leaf)
    · rcases insertedCases (inserted group member) inside with rfl | ⟨text, known, rfl⟩
      · refine .leaf (.number (.int 0)) fun n same => ?_
        cases same
        exact Nat.pow_pos (by decide)
      · exact .word known
  · obtain ⟨t, member, same, _⟩ := spells.strings ((kept text).mp inside)
    exact ⟨t, member, same⟩
  · simp only [kept]
    exact spells.sentinelIff shaped

end Parse

end Scriptlet
