import Scriptlet.Compile
import Scriptlet.Proofs.Derivation
import Scriptlet.Proofs.ParserReads
import Scriptlet.Proofs.TokenShapes

/-! The parser makes well-formed trees. -/
namespace Scriptlet.Parse
open Token (Kind)
open Node (Fits IsName)

def AllShaped (tokens : List Token) : Prop := ∀ t ∈ tokens, Token.Shaped t.value.toList t.kind

theorem nameOfIdent {t : Token} (shaped : Token.Shaped t.value.toList t.kind) (word : t.kind = .ident) :
    IsName t.value := by
  rw [word] at shaped
  have key : isKey (String.ofList t.value.toList) = true := shaped
  rw [String.ofList_toList] at key
  exact (isKeyIff _).mp key

theorem nameOfKey {t : Token} (shaped : Token.Shaped t.value.toList t.kind) (word : IsKey t) :
    IsName t.value := by
  rcases word with ident | ⟨_, key⟩
  · exact nameOfIdent shaped ident
  · exact (isKeyIff _).mp key

theorem signText {t : Token} (shaped : Token.Shaped t.value.toList t.kind)
    (mark : t.kind = .notOp ∨ t.kind = .minus) : t.value ∈ Node.unaryOperators := by
  have listed : (t.value.toList, t.kind) ∈ Kind.marks := by
    rcases mark with kind | kind <;> rw [kind] at shaped ⊢ <;> exact shaped
  have table : ∀ entry ∈ Kind.marks, entry.2 = .notOp ∨ entry.2 = .minus →
      String.ofList entry.1 ∈ Node.unaryOperators := by decide
  simpa using table _ listed mark

theorem operatorText {t : Token} {strength : Nat} (shaped : Token.Shaped t.value.toList t.kind)
    (binds : t.kind.precedence? = some strength) :
    (t.kind = .andOp ∨ t.kind = .orOp) ∧ t.value ∈ Node.logicalOperators ∨
      ¬ (t.kind = .andOp ∨ t.kind = .orOp) ∧ t.value ∈ Node.binaryOperators := by
  have listed : (t.value.toList, t.kind) ∈ Kind.marks := by
    generalize t.kind = k at shaped binds
    cases k <;> simp_all [Kind.precedence?, Token.Shaped]
  have table : ∀ entry ∈ Kind.marks, entry.2.precedence?.isSome = true →
      (entry.2 = .andOp ∨ entry.2 = .orOp) ∧ String.ofList entry.1 ∈ Node.logicalOperators ∨
        ¬ (entry.2 = .andOp ∨ entry.2 = .orOp) ∧ String.ofList entry.1 ∈ Node.binaryOperators := by decide
  simpa using table _ listed (by simp [binds])

def LinkFits (link : Link) : Prop :=
  Token.Shaped link.op.value.toList link.op.kind ∧ link.op.kind.precedence? = some link.strength ∧
    Fits .value link.operand

def SuffixFits : Suffix → Prop
  | .name t => IsName t.value
  | .index key => Fits .value key
  | .arguments args => ∀ x ∈ args, Fits .value x

theorem joinFits {link : Link} {left right : Node} (fits : LinkFits link) (first : Fits .value left)
    (second : Fits .value right) : Fits .value (link.join left right) := by
  obtain ⟨shaped, binds, _⟩ := fits
  unfold Link.join
  rcases operatorText shaped binds with ⟨kind | kind, text⟩ | ⟨kind, text⟩
  · rw [kind]
    exact .logical text first second
  · rw [kind]
    exact .logical text first second
  · split
    · exact absurd (Or.inl ‹_›) kind
    · exact absurd (Or.inr ‹_›) kind
    · exact .binary text first second

theorem climbFits {least : Nat} {left : Node} {links : List Link} (first : Fits .value left)
    (all : ∀ link ∈ links, LinkFits link) :
    Fits .value (climb least left links).val.1 ∧
      ∀ link ∈ (climb least left links).val.2, LinkFits link := by
  fun_induction climb least left links with
  | case1 => exact ⟨first, all⟩
  | case2 => exact ⟨first, all⟩
  | case3 least left link rest binds right shorter whole ih ih' =>
    obtain ⟨head, others⟩ := List.forall_mem_cons.mp all
    obtain ⟨operand, left⟩ := ih head.2.2 others
    exact ih' (joinFits head first operand) left

theorem suffixFits {x : Node} {suffix : Suffix} (target : Fits .value x) (fits : SuffixFits suffix) :
    Fits .value (suffix.apply x) := by
  cases suffix with
  | name t => exact .name target fits
  | index key => exact .index target fits
  | arguments args => exact .call target fits

theorem suffixesFit {x : Node} {suffixes : List Suffix} (target : Fits .value x)
    (all : ∀ suffix ∈ suffixes, SuffixFits suffix) : Fits .value (suffixes.foldl Suffix.apply x) := by
  induction suffixes generalizing x with
  | nil => exact target
  | cons suffix more ih =>
    obtain ⟨first, rest⟩ := List.forall_mem_cons.mp all
    exact ih (suffixFits target first) rest

def Phrase.WellFormed : Phrase → Prop
  | .expression x | .chain x | .operand x | .primary x => Node.Fits .value x
  | .links all => ∀ link ∈ all, LinkFits link
  | .suffixes all => ∀ suffix ∈ all, SuffixFits suffix
  | .items _ xs => ∀ x ∈ xs, Node.Fits .value x
  | .names all => ∀ name ∈ all.map Token.value, IsName name
  | .body x => Node.Fits .value x ∨ Node.Fits .body x
  | .block x => Node.Fits .body x
  | .statements xs => ∀ x ∈ xs, Node.Fits .statement x
  | .statement x => Node.Fits .statement x
  | .entries xs => ∀ x ∈ xs, Node.Fits .entry x
  | .entry x => Node.Fits .entry x

theorem bodyFits {p : Place} {params : List String} {x : Node} (words : ∀ name ∈ params, IsName name)
    (body : Node.Fits .value x ∨ Node.Fits .body x) : Node.Fits .value (.arrow p params x) := by
  rcases body with value | block
  · exact .arrow words value
  · exact .arrowOfBlock words block

theorem AllShaped.left {a b : List Token} (shaped : AllShaped (a ++ b)) : AllShaped a :=
  fun t member => shaped t (List.mem_append_left _ member)

theorem AllShaped.right {a b : List Token} (shaped : AllShaped (a ++ b)) : AllShaped b :=
  fun t member => shaped t (List.mem_append_right _ member)

theorem AllShaped.head {t : Token} {a : List Token} (shaped : AllShaped (t :: a)) :
    Token.Shaped t.value.toList t.kind := shaped t List.mem_cons_self

theorem AllShaped.tail {t : Token} {a : List Token} (shaped : AllShaped (t :: a)) : AllShaped a :=
  fun t member => shaped t (List.mem_cons_of_mem _ member)

theorem readsFits {phrase : Phrase} {used rest : List Token} (reads : Reads phrase used rest)
    (shaped : AllShaped used) : phrase.WellFormed := by
  induction reads with
  | single _ _ ih => exact ih shaped
  | choice _ _ _ _ _ cond left right =>
    exact Fits.ternary (cond shaped.left) (left shaped.right.tail.left) (right shaped.right.tail.right.tail)
  | chain _ _ first more => exact (climbFits (first shaped.left) (more shaped.right)).1
  | noLink => exact fun _ member => absurd member List.not_mem_nil
  | link binds _ _ right more =>
    refine List.forall_mem_cons.mpr ⟨⟨shaped.head, binds, right shaped.tail.left⟩, ?_⟩
    exact more shaped.tail.right
  | sign mark _ ih => exact Fits.unary (signText shaped.head mark) (ih shaped.tail)
  | suffixed _ _ target more => exact suffixesFit (target shaped.left) (more shaped.right)
  | noSuffix => exact fun _ member => absurd member List.not_mem_nil
  | name _ word _ ih =>
    exact List.forall_mem_cons.mpr ⟨nameOfIdent shaped.tail.head word, ih shaped.tail.tail⟩
  | index _ _ _ _ key more =>
    exact List.forall_mem_cons.mpr ⟨key shaped.tail.left, more shaped.tail.right.tail⟩
  | call _ _ _ args more =>
    exact List.forall_mem_cons.mpr ⟨args shaped.tail.left, more shaped.tail.right⟩
  | number kind value =>
    have text := shaped.head
    rw [kind] at text
    exact Fits.number (numberUnsigned text value)
  | string => exact Fits.string
  | truth => exact Fits.bool
  | falsity => exact Fits.bool
  | null => exact Fits.null
  | ident kind => exact Fits.ident (nameOfIdent shaped.head kind)
  | arrowOfName kind _ _ body =>
    refine bodyFits ?_ (body shaped.tail.tail)
    exact List.forall_mem_singleton.mpr (nameOfIdent shaped.head kind)
  | arrowOfNames _ _ _ _ _ names body =>
    exact bodyFits (names shaped.tail.left) (body shaped.tail.right.tail)
  | group _ _ _ _ ih => exact ih shaped.tail.left
  | array _ _ ih => exact Fits.array (ih shaped.tail)
  | object _ _ _ ih => exact Fits.object (ih shaped.tail.right)
  | noItem => exact fun _ member => absurd member List.not_mem_nil
  | lastItem _ _ item => exact List.forall_mem_singleton.mpr (item shaped.left)
  | item _ _ _ item more => exact List.forall_mem_cons.mpr ⟨item shaped.left, more shaped.right.tail⟩
  | noName => exact fun _ member => absurd member List.not_mem_nil
  | lastName _ word => exact List.forall_mem_singleton.mpr (nameOfIdent shaped.head word)
  | oneName _ word _ ih =>
    exact List.forall_mem_cons.mpr ⟨nameOfIdent shaped.head word, ih shaped.tail.tail⟩
  | blockBody _ _ ih => exact Or.inr (ih shaped.right)
  | expressionBody _ _ _ ih => exact Or.inl (ih shaped.right)
  | block _ _ _ ih => exact Fits.block (ih shaped.tail.right)
  | noStatement => exact fun _ member => absurd member List.not_mem_nil
  | lastStatement _ _ item => exact List.forall_mem_singleton.mpr (item shaped.left)
  | oneStatement _ _ _ _ item more =>
    exact List.forall_mem_cons.mpr ⟨item shaped.left, more shaped.right.tail.right⟩
  | assignment word _ _ value => exact Fits.assignment (nameOfIdent shaped.head word) (value shaped.tail.tail)
  | expression _ value => exact Fits.expression (value shaped)
  | noEntry => exact fun _ member => absurd member List.not_mem_nil
  | lastEntry _ _ _ item => exact List.forall_mem_singleton.mpr (item shaped.left)
  | oneEntry _ _ _ _ _ item more =>
    exact List.forall_mem_cons.mpr ⟨item shaped.left, more shaped.right.right.tail.right⟩
  | method word _ _ _ _ names block =>
    have inner := shaped.tail.tail
    exact Fits.method (nameOfKey shaped.head word) (names inner.left) (block inner.right.right)
  | plain word _ _ value => exact Fits.plain (nameOfKey shaped.head word) (value shaped.tail.tail)

theorem parseReads {depth : Nat} {source : String} {tree : Node} (ok : parse depth source = .ok tree) :
    ∃ stream, tokenize source = .ok stream ∧ stream.Sound ∧ ReadsProgram tree stream.body := by
  obtain ⟨stream, tokens, found⟩ := exceptBindOk.mp ok
  have sound := tokenizeSound tokens
  unfold Token.Stream.parse at found
  split at found
  · rename_i accepted
    cases found
    exact ⟨stream, tokens, sound, (programRead sound.noEnd accepted).2⟩
  · cases found

theorem programFits {tree : Node} {body : List Token} (shaped : AllShaped body)
    (reads : ReadsProgram tree body) : Fits .value tree := by
  obtain ⟨before, used, after, rfl, _, _, _, inner⟩ := reads
  exact readsFits inner shaped.right.left

theorem parsedTreeLowers {nesting : Nat} {source : String} {tree : Node} (ok : parse nesting source = .ok tree) :
    Fits .value tree ∧
      (∀ depth, tree.height ≤ depth → ∃ v, tree.lower depth = .ok v) ∧
      (∀ depth what place, tree.lower depth ≠ .error (.unsupported what place)) ∧
      ∀ depth, (∃ v, compile nesting depth source = .ok v) ∨
        depth < tree.height ∧ compile nesting depth source = .error (.lowering .tooDeep) := by
  obtain ⟨stream, _, sound, reads⟩ := parseReads ok
  have fits := programFits sound.shaped reads
  refine ⟨fits, fun depth => (fits.lowers depth).1, ?_, ?_⟩
  · intro depth what place failed
    obtain ⟨enough, short⟩ := fits.lowers depth
    rcases Nat.lt_or_ge depth tree.height with less | more
    · rw [short less] at failed
      cases failed
    · obtain ⟨v, lowered⟩ := enough more
      rw [lowered] at failed
      cases failed
  · intro depth
    have step : compile nesting depth source = lower depth tree := by
      unfold compile
      rw [ok]
      rfl
    obtain ⟨enough, short⟩ := fits.lowers depth
    rw [step]
    unfold lower
    rcases Nat.lt_or_ge depth tree.height with less | more
    · rw [short less]
      exact Or.inr ⟨less, rfl⟩
    · obtain ⟨v, lowered⟩ := enough more
      rw [lowered]
      exact Or.inl ⟨v, rfl⟩

def areaSource : String :=
  "\x7b area(w, h) \x7b\n s = w * -h\n !s && s.x[0] != 'a' ? [s] : f(x => s)\n \x7d, 'k': 1.5 \x7d"

theorem areaLowers : ∃ tree, parse 9 areaSource = .ok tree ∧ Fits .value tree ∧
    ∃ v, compile 9 9 areaSource = .ok v := by
  have accepted : (parse 9 areaSource).toOption.isSome = true := by decide +kernel
  have lowered : (compile 9 9 areaSource).toOption.isSome = true := by decide +kernel
  obtain ⟨tree, ok⟩ := okOfSome accepted
  obtain ⟨fits, _, _, compiled⟩ := parsedTreeLowers ok
  refine ⟨tree, ok, fits, ?_⟩
  rcases compiled 9 with done | ⟨_, deep⟩
  · exact done
  · rw [deep] at lowered
    cases lowered

end Scriptlet.Parse
