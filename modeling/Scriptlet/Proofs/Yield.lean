import Scriptlet.Proofs.Interleaving
import Scriptlet.Proofs.ParserOutput

/-! Compiling loses, repeats, reorders and invents no atom of a source. -/
namespace Scriptlet

namespace Node

def keyPlace? : Node → Option Place
  | .property place .. => some place
  | _ => none

def keysOf (nodes : List Node) : List Place := nodes.filterMap keyPlace?

def keys (tree : Node) : List Place := keysOf tree.nodes

theorem keysOfAppend (first second : List Node) : keysOf (first ++ second) = keysOf first ++ keysOf second :=
  List.filterMap_append

end Node

namespace Parse
open Token (Kind)

def numberAtom (text : String) : Option SExpr :=
  match Numeral.read? text.toList with
  | none => none
  | some n => if n.isWhole then n.toInt.toOption.map .int else some (.float n.toBinary)

/- The atom of a token. A name after a point is a string, and a string that is a key is a name. -/
def tokenAtom (asKey afterDot : Bool) (t : Token) : Option SExpr :=
  match t.kind with
  | .ident => some (if afterDot then .str t.value else .sym t.value)
  | .string => some (if asKey then .sym t.value else .str t.value)
  | .number => numberAtom t.value
  | .trueWord => some (.bool true)
  | .falseWord => some (.bool false)
  | .nullWord => some .null
  | _ => none

def sourceAtoms (keys : List Place) (afterDot : Bool) : List Token → List SExpr
  | [] => []
  | t :: more =>
    (tokenAtom (decide (t.place ∈ keys)) afterDot t).toList ++ sourceAtoms keys (decide (t.kind = .dot)) more

def isMark : Kind → Bool
  | .number | .string | .ident | .trueWord | .falseWord | .nullWord | .dot => false
  | _ => true

inductive Spells : List Token → List SExpr → List Place → Prop where
  | nil : Spells [] [] []
  | mark {t s atoms keys} (silent : isMark t.kind = true) (more : Spells s atoms keys) :
      Spells (t :: s) atoms keys
  | atom {t a s atoms keys} (value : tokenAtom false false t = some a) (more : Spells s atoms keys) :
      Spells (t :: s) (a :: atoms) keys
  | key {t s atoms keys} (word : IsKey t) (more : Spells s atoms keys) :
      Spells (t :: s) (.sym t.value :: atoms) (t.place :: keys)
  | name {dot t s atoms keys} (point : dot.kind = .dot) (word : t.kind = .ident)
      (more : Spells s atoms keys) : Spells (dot :: t :: s) (.str t.value :: atoms) keys

namespace Spells

variable {s s' : List Token} {atoms atoms' : List SExpr} {keys keys' : List Place}

theorem append (first : Spells s atoms keys) (second : Spells s' atoms' keys') :
    Spells (s ++ s') (atoms ++ atoms') (keys ++ keys') := by
  induction first with
  | nil => exact second
  | mark silent _ ih => exact .mark silent ih
  | atom value _ ih => exact .atom value ih
  | key word _ ih => exact .key word ih
  | name point word _ ih => exact .name point word ih

theorem newlines (skipped : Newlines s) : Spells s [] [] := by
  induction s with
  | nil => exact .nil
  | cons t s ih =>
    obtain ⟨first, rest⟩ := List.forall_mem_cons.mp skipped
    exact .mark (by rw [first]; rfl) (ih rest)

theorem keysInside (spells : Spells s atoms keys) : ∀ place ∈ keys, place ∈ s.map Token.place := by
  induction spells with
  | nil => exact fun _ member => member
  | mark _ _ ih => exact fun place member => List.mem_cons_of_mem _ (ih place member)
  | atom _ _ ih => exact fun place member => List.mem_cons_of_mem _ (ih place member)
  | key _ _ ih =>
    refine List.forall_mem_cons.mpr ⟨List.mem_cons_self, ?_⟩
    exact fun place member => List.mem_cons_of_mem _ (ih place member)
  | name _ _ _ ih =>
    exact fun place member => List.mem_cons_of_mem _ (List.mem_cons_of_mem _ (ih place member))

end Spells

theorem markAtom {t : Token} (silent : isMark t.kind = true) (asKey afterDot : Bool) :
    tokenAtom asKey afterDot t = none ∧ decide (t.kind = .dot) = false := by
  unfold tokenAtom
  generalize t.kind = k at silent
  cases k <;> simp_all [isMark]

theorem atomNoDot {t : Token} {a : SExpr} (value : tokenAtom false false t = some a) :
    decide (t.kind = .dot) = false := by
  unfold tokenAtom at value
  generalize t.kind = k at value
  cases k <;> simp_all

theorem keyAtom {t : Token} (word : IsKey t) :
    tokenAtom true false t = some (.sym t.value) ∧ decide (t.kind = .dot) = false := by
  unfold tokenAtom
  rcases word with kind | ⟨kind, _⟩ <;> simp [kind]

theorem nameAtom {t : Token} (word : t.kind = .ident) (asKey : Bool) :
    tokenAtom asKey true t = some (.str t.value) ∧ decide (t.kind = .dot) = false := by
  unfold tokenAtom
  simp [word]

theorem dotAtom {t : Token} (point : t.kind = .dot) (asKey afterDot : Bool) :
    tokenAtom asKey afterDot t = none ∧ decide (t.kind = .dot) = true := by
  unfold tokenAtom
  simp [point]

/- No two tokens stand at one place, so the places of the keys tell the keys from the other tokens. -/
theorem spelledAtoms {s : List Token} {atoms : List SExpr} {keys all : List Place}
    (spells : Spells s atoms keys) (places : (s.map Token.place).Nodup)
    (agree : ∀ t ∈ s, t.place ∈ all ↔ t.place ∈ keys) : sourceAtoms all false s = atoms := by
  induction spells with
  | nil => rfl
  | mark silent _ ih =>
    obtain ⟨_, rest⟩ := List.forall_mem_cons.mp agree
    obtain ⟨none, noDot⟩ := markAtom silent (decide (_ ∈ all)) false
    rw [sourceAtoms, none, noDot, ih places.of_cons rest]
    rfl
  | atom value more ih =>
    obtain ⟨first, rest⟩ := List.forall_mem_cons.mp agree
    have fresh := (List.nodup_cons.mp places).1
    have other := mt first.mp fun inside => fresh (more.keysInside _ inside)
    rw [sourceAtoms, decide_eq_false other, value, atomNoDot value, ih places.of_cons rest]
    rfl
  | @key t s _ keys word _ ih =>
    obtain ⟨first, rest⟩ := List.forall_mem_cons.mp agree
    have fresh := (List.nodup_cons.mp places).1
    obtain ⟨value, noDot⟩ := keyAtom word
    have others : ∀ u ∈ s, u.place ∈ all ↔ u.place ∈ keys := by
      intro u member
      have apart : u.place ≠ t.place := fun same => fresh (same ▸ List.mem_map_of_mem member)
      rw [rest u member, List.mem_cons, or_iff_right apart]
    rw [sourceAtoms, decide_eq_true (first.mpr List.mem_cons_self), value, noDot, ih places.of_cons others]
    rfl
  | name point word _ ih =>
    obtain ⟨_, rest⟩ := List.forall_mem_cons.mp agree
    obtain ⟨_, others⟩ := List.forall_mem_cons.mp rest
    obtain ⟨none, dot⟩ := dotAtom point (decide (_ ∈ all)) false
    obtain ⟨value, noDot⟩ := nameAtom word (decide (_ ∈ all))
    rw [sourceAtoms, none, dot, sourceAtoms, value, noDot, ih places.of_cons.of_cons others]
    rfl

theorem climbInOrder {α : Type} (f : Node → List α)
    (joined : ∀ (link : Link) left right, f (link.join left right) = f left ++ f right)
    (least : Nat) (left : Node) (links : List Link) :
    f (climb least left links).val.1 ++ (climb least left links).val.2.flatMap (fun link => f link.operand) =
      f left ++ links.flatMap (fun link => f link.operand) := by
  fun_induction climb least left links with
  | case1 => rfl
  | case2 => rfl
  | case3 least left link rest binds right shorter whole ih ih' =>
    rw [ih', joined, List.append_assoc, ih, List.flatMap_cons]

theorem climbAll {least : Nat} {left : Node} {links : List Link} (zero : least = 0) :
    (climb least left links).val.2 = [] := by
  fun_induction climb least left links with
  | case1 => rfl
  | case2 least left link rest weak =>
    rw [zero] at weak
    exact absurd weak (Nat.not_lt_zero _)
  | case3 least left link rest binds right shorter whole _ ih' => exact ih' zero

theorem chainInOrder {α : Type} {f : Node → List α}
    (joined : ∀ (link : Link) left right, f (link.join left right) = f left ++ f right)
    (first : Node) (links : List Link) :
    f (chainTree first links) = f first ++ links.flatMap (fun link => f link.operand) := by
  have order := climbInOrder f joined 0 first links
  rwa [climbAll rfl, List.flatMap_nil, List.append_nil] at order

theorem suffixesInOrder {α : Type} {f : Node → List α} {g : Suffix → List α}
    (applied : ∀ (suffix : Suffix) x, f (suffix.apply x) = f x ++ g suffix) (x : Node)
    (suffixes : List Suffix) : f (suffixes.foldl Suffix.apply x) = f x ++ suffixes.flatMap g := by
  induction suffixes generalizing x with
  | nil => exact (List.append_nil _).symm
  | cons suffix more ih => rw [List.foldl_cons, ih, applied, List.append_assoc, List.flatMap_cons]

theorem joinLeaves (link : Link) (left right : Node) :
    (link.join left right).leaves = left.leaves ++ right.leaves := by
  unfold Link.join
  split <;> rw [Node.leaves]

theorem joinKeys (link : Link) (left right : Node) :
    (link.join left right).keys = left.keys ++ right.keys := by
  unfold Link.join Node.keys
  split <;> rw [Node.nodes, ← Node.keysOfAppend] <;> rfl

def Suffix.leaves : Suffix → List SExpr
  | .name t => [.str t.value]
  | .index key => key.leaves
  | .arguments args => Node.leavesAll args

def Suffix.keys : Suffix → List Place
  | .name _ => []
  | .index key => key.keys
  | .arguments args => Node.keysOf (Node.nodesAll args)

theorem applyLeaves (suffix : Suffix) (x : Node) : (suffix.apply x).leaves = x.leaves ++ suffix.leaves := by
  cases suffix with
  | name t => rw [Suffix.apply, Node.leaves, Node.leaves, Suffix.leaves]
  | index key => rw [Suffix.apply, Node.leaves, Suffix.leaves]
  | arguments args => rw [Suffix.apply, Node.leaves, Suffix.leaves]

theorem applyKeys (suffix : Suffix) (x : Node) : (suffix.apply x).keys = x.keys ++ suffix.keys := by
  unfold Node.keys
  cases suffix with
  | name t =>
    rw [Suffix.apply, Node.nodes, Suffix.keys, List.append_nil]
    rfl
  | index key =>
    rw [Suffix.apply, Node.nodes, Suffix.keys, Node.keys, ← Node.keysOfAppend]
    rfl
  | arguments args =>
    rw [Suffix.apply, Node.nodes, Suffix.keys, ← Node.keysOfAppend]
    rfl

def Phrase.Spelled (used : List Token) : Phrase → Prop
  | .expression x | .chain x | .operand x | .primary x | .body x | .block x | .statement x | .entry x =>
    Spells used x.leaves x.keys
  | .links all =>
    Spells used (all.flatMap fun link => link.operand.leaves) (all.flatMap fun link => link.operand.keys)
  | .suffixes all => Spells used (all.flatMap Suffix.leaves) (all.flatMap Suffix.keys)
  | .items closing xs =>
    isMark closing = true → Spells used (Node.leavesAll xs) (Node.keysOf (Node.nodesAll xs))
  | .statements xs | .entries xs => Spells used (Node.leavesAll xs) (Node.keysOf (Node.nodesAll xs))
  | .names all => Spells used ((all.map Token.value).map .sym) []

theorem numberAtomOk {t : Token} {s rest : List Token} {v : SExpr} (ok : number t s = .ok (v, rest)) :
    numberAtom t.value = some v := by
  unfold number at ok
  unfold numberAtom
  cases read : Numeral.read? t.value.toList with
  | none =>
    simp only [read] at ok
    exact absurd ok failOk
  | some n =>
    simp only [read] at ok ⊢
    split at ok
    · rename_i whole
      rw [if_pos whole]
      cases value : n.toInt with
      | ok k =>
        simp only [value] at ok
        cases ok
        rfl
      | error e =>
        simp only [value] at ok
        exact absurd ok failOk
    · rename_i part
      rw [if_neg part]
      split at ok
      · cases ok
        rfl
      · exact absurd ok failOk

theorem Spells.markOf {t : Token} {k : Kind} {s : List Token} {atoms : List SExpr} {keys : List Place}
    (kind : t.kind = k) (silent : isMark k = true) (more : Spells s atoms keys) :
    Spells (t :: s) atoms keys := .mark (kind ▸ silent) more

theorem operatorSilent {k : Kind} {strength : Nat} (binds : k.precedence? = some strength) :
    isMark k = true := by
  cases k <;> simp_all [Kind.precedence?, isMark]

theorem Spells.ident {t : Token} {s : List Token} {atoms : List SExpr} {keys : List Place}
    (word : t.kind = .ident) (more : Spells s atoms keys) : Spells (t :: s) (.sym t.value :: atoms) keys :=
  .atom (by simp [tokenAtom, word]) more

theorem Spells.literal {t : Token} {kind : LiteralKind} {v : SExpr}
    (value : tokenAtom false false t = some v) :
    Spells [t] (Node.literal t.place kind v).leaves (Node.literal t.place kind v).keys := by
  rw [Node.leaves, Node.keys, Node.nodes]
  exact .atom value .nil

theorem Spells.cons {x : Node} {xs : List Node} {a b : List Token} (first : Spells a x.leaves x.keys)
    (more : Spells b (Node.leavesAll xs) (Node.keysOf (Node.nodesAll xs))) :
    Spells (a ++ b) (Node.leavesAll (x :: xs)) (Node.keysOf (Node.nodesAll (x :: xs))) := by
  rw [Node.leavesAll, Node.nodesAll, Node.keysOfAppend]
  exact first.append more

theorem Spells.nilList {b : List Token} (marks : Spells b [] []) :
    Spells b (Node.leavesAll []) (Node.keysOf (Node.nodesAll [])) := by
  rw [Node.leavesAll, Node.nodesAll]
  exact marks

theorem Spells.arrow {p : Place} {params : List String} {x : Node} {a b : List Token}
    (names : Spells a (params.map .sym) []) (body : Spells b x.leaves x.keys) :
    Spells (a ++ b) (Node.arrow p params x).leaves (Node.arrow p params x).keys := by
  rw [Node.leaves, Node.keys, Node.nodes]
  exact names.append body

theorem Spells.property {key : Token} {isMethod : Bool} {params : List String} {x : Node} {a b : List Token}
    (word : IsKey key) (names : Spells a (params.map .sym) []) (body : Spells b x.leaves x.keys) :
    Spells (key :: (a ++ b)) (Node.property key.place key.value isMethod params x).leaves
      (Node.property key.place key.value isMethod params x).keys := by
  rw [Node.leaves, Node.keys, Node.nodes]
  exact .key word (names.append body)

theorem readsSpelled {phrase : Phrase} {used rest : List Token} (reads : Reads phrase used rest) :
    phrase.Spelled used := by
  induction reads with
  | single _ _ ih => exact ih
  | choice mark colon _ _ _ cond left right =>
    simp only [Phrase.Spelled] at cond left right ⊢
    have whole := cond.append (.markOf mark rfl (left.append (.markOf colon rfl right)))
    simp only [Node.keys, ← Node.keysOfAppend] at whole
    rw [Node.leaves, Node.keys, Node.nodes]
    exact whole
  | chain _ _ first more =>
    simp only [Phrase.Spelled]
    rw [chainInOrder joinLeaves, chainInOrder joinKeys]
    exact first.append more
  | noLink => exact .nil
  | link binds _ _ right more => exact .mark (operatorSilent binds) (right.append more)
  | sign mark _ ih =>
    simp only [Phrase.Spelled]
    rw [Node.leaves, Node.keys, Node.nodes]
    rcases mark with kind | kind
    · exact .markOf kind rfl ih
    · exact .markOf kind rfl ih
  | suffixed _ _ target more =>
    simp only [Phrase.Spelled]
    rw [suffixesInOrder applyLeaves, suffixesInOrder applyKeys]
    exact target.append more
  | noSuffix => exact .nil
  | name mark word _ ih => exact .name mark word ih
  | index opening closing _ _ key more =>
    exact .markOf opening rfl (key.append (.markOf closing rfl more))
  | call opening _ _ args more => exact .markOf opening rfl ((args rfl).append more)
  | number kind value => exact .literal (by simp only [tokenAtom, kind, numberAtomOk value])
  | string kind => exact .literal (by simp [tokenAtom, kind])
  | truth kind => exact .literal (by simp only [tokenAtom, kind])
  | falsity kind => exact .literal (by simp only [tokenAtom, kind])
  | null kind => exact .literal (by simp only [tokenAtom, kind])
  | ident kind =>
    simp only [Phrase.Spelled]
    rw [Node.leaves, Node.keys, Node.nodes]
    exact .ident kind .nil
  | @arrowOfName t _ _ _ _ kind mark _ body =>
    have param : Spells [t] ([t.value].map .sym) [] := .ident kind .nil
    exact .arrow param (.markOf mark rfl body)
  | arrowOfNames opening mark _ _ _ names body =>
    exact .markOf opening rfl (.arrow names (.markOf mark rfl body))
  | group opening closing _ _ ih =>
    have whole := ih.append (.markOf closing rfl .nil)
    rw [List.append_nil, List.append_nil] at whole
    exact .markOf opening rfl whole
  | array opening _ ih =>
    simp only [Phrase.Spelled]
    rw [Node.leaves, Node.keys, Node.nodes]
    exact .markOf opening rfl (ih rfl)
  | object opening skipped _ ih =>
    simp only [Phrase.Spelled]
    rw [Node.leaves, Node.keys, Node.nodes]
    exact .markOf opening rfl ((Spells.newlines skipped).append ih)
  | noItem close => exact fun silent => .nilList (.markOf close silent .nil)
  | lastItem close _ item => exact fun silent => item.cons (.nilList (.markOf close silent .nil))
  | item comma _ _ item more => exact fun silent => item.cons (.markOf comma rfl (more silent))
  | noName close => exact .markOf close rfl .nil
  | lastName close word => exact .ident word (.markOf close rfl .nil)
  | oneName comma word _ ih => exact .ident word (.markOf comma rfl ih)
  | blockBody skipped _ ih => exact (Spells.newlines skipped).append ih
  | expressionBody skipped _ _ ih => exact (Spells.newlines skipped).append ih
  | block opening skipped _ ih =>
    simp only [Phrase.Spelled]
    rw [Node.leaves, Node.keys, Node.nodes]
    exact .markOf opening rfl ((Spells.newlines skipped).append ih)
  | noStatement close => exact .nilList (.markOf close rfl .nil)
  | lastStatement close _ item => exact item.cons (.nilList (.markOf close rfl .nil))
  | oneStatement newline skipped _ _ item more =>
    exact item.cons (.markOf newline rfl ((Spells.newlines skipped).append more))
  | assignment word mark _ value =>
    simp only [Phrase.Spelled]
    rw [Node.leaves, Node.keys, Node.nodes]
    exact .ident word (.markOf mark rfl value)
  | expression _ value => exact value
  | noEntry close => exact .nilList (.markOf close rfl .nil)
  | lastEntry close skipped _ item =>
    exact item.cons (.nilList ((Spells.newlines skipped).append (.markOf close rfl .nil)))
  | oneEntry comma skipped skipped' _ _ item more =>
    have after := (Spells.newlines skipped').append more
    exact item.cons ((Spells.newlines skipped).append (.markOf comma rfl after))
  | method word opening skipped _ _ names block =>
    have body := (Spells.newlines skipped).append block
    exact .property word (.markOf opening rfl names) body
  | @plain _ colon _ _ _ word mark _ value =>
    have noParams : Spells [colon] (([] : List String).map .sym) [] := .markOf mark rfl .nil
    exact .property word noParams value

theorem programSpelled {tree : Node} {body : List Token} (reads : ReadsProgram tree body) :
    Spells body tree.leaves tree.keys := by
  obtain ⟨before, used, after, rfl, skipped, skipped', _, inner⟩ := reads
  have whole := (Spells.newlines skipped).append ((readsSpelled inner).append (Spells.newlines skipped'))
  rwa [List.append_nil, List.append_nil] at whole

theorem compileOk {nesting lowering : Nat} {source : String} {v : SExpr}
    (ok : compile nesting lowering source = .ok v) :
    ∃ tree, parse nesting source = .ok tree ∧ tree.lower lowering = .ok v := by
  obtain ⟨tree, parsed, lowered⟩ := exceptBindOk.mp ok
  refine ⟨tree, parsed, ?_⟩
  unfold lower at lowered
  split at lowered
  · rename_i same
    cases lowered
    exact same
  · cases lowered

theorem compiledAtomsInOrder {nesting lowering : Nat} {source : String} {v : SExpr}
    (ok : compile nesting lowering source = .ok v) :
    ∃ stream tree groups, tokenize source = .ok stream ∧ parse nesting source = .ok tree ∧
      Interleaves (sourceAtoms tree.keys false stream.body) groups v.atoms ∧
      (∀ group ∈ groups, IsInserted group) ∧
      groups.flatten.countP SExpr.isSymbol = Node.total Node.words tree.nodes ∧
      groups.flatten.countP SExpr.isZero = Node.total Node.zeros tree.nodes := by
  obtain ⟨tree, parsed, lowered⟩ := compileOk ok
  obtain ⟨stream, tokens, sound, reads⟩ := parseReads parsed
  have same := spelledAtoms (programSpelled reads) sound.places fun _ _ => Iff.rfl
  obtain ⟨groups, order, counts⟩ := (programFits sound.shaped reads).keeps lowered
  rw [← same] at order
  exact ⟨stream, tree, groups, tokens, parsed, order, counts⟩

def ledgerSource : String :=
  "\x7b 'k': -f.x['s'], m(a, b) \x7b\n c = a ? [1.5, 0] : \x7b\x7d\n !c && null\n \x7d, 'g': y => \x7b y \x7d \x7d"

theorem ledgerAtomsInOrder : ∃ v, compile 9 9 ledgerSource = .ok v ∧
    ∃ stream tree groups, tokenize ledgerSource = .ok stream ∧ parse 9 ledgerSource = .ok tree ∧
      Interleaves (sourceAtoms tree.keys false stream.body) groups v.atoms ∧
      (∀ group ∈ groups, IsInserted group) ∧
      groups.flatten.countP SExpr.isSymbol = Node.total Node.words tree.nodes ∧
      groups.flatten.countP SExpr.isZero = Node.total Node.zeros tree.nodes := by
  have accepted : (compile 9 9 ledgerSource).toOption.isSome = true := by decide +kernel
  obtain ⟨v, ok⟩ := okOfSome accepted
  exact ⟨v, ok, compiledAtomsInOrder ok⟩

end Parse

end Scriptlet
