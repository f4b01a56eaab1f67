import Scriptlet.Proofs.ScannerPaths
import Scriptlet.Proofs.Yield

/-! Where the nodes of a tree stand. A node is made from a token of its own and stands at it, or it has
none and stands where the first node inside it does. In the order of the tree these tokens are in the
order of the source, and no word of the source is left out. -/
namespace Scriptlet

namespace Node
open Parse (IsKey numberAtom)

def children : Node → List Node
  | .literal .. | .ident .. | .bare _ => []
  | .unary _ _ x | .property _ _ _ _ x | .assignment _ _ x | .arrow _ _ x => [x]
  | .binary _ _ x y | .logical _ _ x y | .member _ x y _ => [x, y]
  | .ternary _ x y z => [x, y, z]
  | .array _ xs | .object _ xs | .block _ xs => xs
  | .call _ f xs => f :: xs

inductive Part : Node → Node → Prop where
  | self {x} : Part x x
  | inside {x y z} (child : y ∈ x.children) (more : Part y z) : Part x z

/- The token that a node is made from, and after it the names of its parameters, if they are in brackets or
belong to a method. The node stands at the token. -/
inductive MadeFrom : Node → Token → List Token → Prop where
  | number {t v} (kind : t.kind = .number) (value : numberAtom t.value = some v) :
      MadeFrom (.literal t.place .number v) t []
  | string {t} (kind : t.kind = .string) : MadeFrom (.literal t.place .string (.str t.value)) t []
  | truth {t} (kind : t.kind = .trueWord) : MadeFrom (.literal t.place .bool (.bool true)) t []
  | falsity {t} (kind : t.kind = .falseWord) : MadeFrom (.literal t.place .bool (.bool false)) t []
  | null {t} (kind : t.kind = .nullWord) : MadeFrom (.literal t.place .null .null) t []
  | ident {t} (kind : t.kind = .ident) : MadeFrom (.ident t.place t.value) t []
  | unary {t x} (kind : t.kind = .notOp ∨ t.kind = .minus) : MadeFrom (.unary t.place t.value x) t []
  | array {t xs} (kind : t.kind = .lbracket) : MadeFrom (.array t.place xs) t []
  | object {t xs} (kind : t.kind = .lbrace) : MadeFrom (.object t.place xs) t []
  | block {t xs} (kind : t.kind = .lbrace) : MadeFrom (.block t.place xs) t []
  | assignment {t x} (kind : t.kind = .ident) : MadeFrom (.assignment t.place t.value x) t []
  | method {t names x} (key : IsKey t) (words : ∀ name ∈ names, name.kind = .ident) :
      MadeFrom (.property t.place t.value true (names.map Token.value) x) t names
  | plain {t x} (key : IsKey t) : MadeFrom (.property t.place t.value false [] x) t []
  | arrowOfName {t x} (kind : t.kind = .ident) : MadeFrom (.arrow t.place [t.value] x) t []
  | arrowOfNames {t names x} (kind : t.kind = .lparen) (words : ∀ name ∈ names, name.kind = .ident) :
      MadeFrom (.arrow t.place (names.map Token.value) x) t names

theorem MadeFrom.place {x : Node} {t : Token} {names : List Token} (made : MadeFrom x t names) :
    x.place = t.place := by
  cases made <;> rfl

inductive Joint : Node → Prop where
  | binary {op x y} : Joint (.binary x.place op x y)
  | logical {op x y} : Joint (.logical x.place op x y)
  | ternary {x y z} : Joint (.ternary x.place x y z)
  | call {f args} : Joint (.call f.place f args)
  | index {x y} : Joint (.member x.place x y true)

theorem Joint.first {x : Node} (joint : Joint x) :
    ∃ first rest, x.children = first :: rest ∧ x.place = first.place := by
  cases joint <;> exact ⟨_, _, rfl, rfl⟩

/- The nodes of a list, each with everything inside it, and their tokens in order. An access by name takes
the place of its target too, and the name after the point is its second part. -/
inductive Traced : List Node → List Token → Prop where
  | nil : Traced [] []
  | made {x t names xs ts} (made : MadeFrom x t names) (more : Traced (x.children ++ xs) ts) :
      Traced (x :: xs) (t :: (names ++ ts))
  | joint {x xs ts} (joint : Joint x) (more : Traced (x.children ++ xs) ts) : Traced (x :: xs) ts
  | access {x name xs a ts} (word : name.kind = .ident) (target : Traced [x] a) (more : Traced xs ts) :
      Traced (.member x.place x (.literal name.place .string (.str name.value)) false :: xs) (a ++ name :: ts)

namespace Traced

variable {xs ys : List Node} {ts us : List Token}

theorem append (first : Traced xs ts) (second : Traced ys us) : Traced (xs ++ ys) (ts ++ us) := by
  induction first with
  | nil => exact second
  | made made _ ih =>
    rw [List.append_assoc] at ih
    rw [List.cons_append, List.cons_append, List.append_assoc]
    exact .made made ih
  | joint joint _ ih =>
    rw [List.append_assoc] at ih
    exact .joint joint ih
  | access word target _ _ ih =>
    rw [List.append_assoc]
    exact .access word target ih

theorem split {zs : List Node} (traced : Traced zs ts) (whole : zs = xs ++ ys) :
    ∃ a b, ts = a ++ b ∧ Traced xs a ∧ Traced ys b := by
  induction traced generalizing xs with
  | nil =>
    obtain ⟨rfl, rfl⟩ := List.nil_eq_append_iff.mp whole
    exact ⟨[], [], rfl, .nil, .nil⟩
  | @made x t names zs ts made more ih =>
    cases xs with
    | nil =>
      subst whole
      exact ⟨[], _, rfl, .nil, .made made more⟩
    | cons x' xs =>
      obtain ⟨rfl, rfl⟩ := List.cons.inj whole
      obtain ⟨a, b, rfl, first, second⟩ := ih (List.append_assoc _ _ _).symm
      exact ⟨t :: (names ++ a), b, by simp, .made made first, second⟩
  | @joint x zs ts joint more ih =>
    cases xs with
    | nil =>
      subst whole
      exact ⟨[], _, rfl, .nil, .joint joint more⟩
    | cons x' xs =>
      obtain ⟨rfl, rfl⟩ := List.cons.inj whole
      obtain ⟨a, b, rfl, first, second⟩ := ih (List.append_assoc _ _ _).symm
      exact ⟨a, b, rfl, .joint joint first, second⟩
  | @access x name zs front ts word target more _ ih =>
    cases xs with
    | nil =>
      subst whole
      exact ⟨[], _, rfl, .nil, .access word target more⟩
    | cons x' xs =>
      obtain ⟨rfl, rfl⟩ := List.cons.inj whole
      obtain ⟨a, b, rfl, first, second⟩ := ih rfl
      exact ⟨front ++ name :: a, b, by simp, .access word target first, second⟩

theorem places (traced : Traced xs ts) : (xs.map place).Sublist (ts.map Token.place) := by
  induction traced with
  | nil => exact .slnil
  | @made x t names xs ts made _ ih =>
    rw [List.map_append] at ih
    have rest := (List.sublist_append_right _ _).trans ih
    rw [List.map_cons, List.map_cons, made.place, List.map_append]
    exact (rest.trans (List.sublist_append_right _ _)).cons_cons _
  | @joint x xs ts joint _ ih =>
    obtain ⟨first, rest, children, place⟩ := joint.first
    rw [children, List.cons_append, List.map_cons, List.map_append] at ih
    rw [List.map_cons, place]
    exact ((List.sublist_append_right _ _).cons_cons _).trans ih
  | access _ _ _ target more =>
    rw [List.map_append, List.map_cons]
    exact target.append (more.cons _)

end Traced

/- The places of a node and of the nodes inside it, among those of some tokens: either the node comes first
and has a place of its own, or it shares the first place. -/
def Spread (ts : List Token) (x : Node) : Prop :=
  (x.place :: x.children.map place).Sublist (ts.map Token.place) ∨
    ∃ first rest, x.children = first :: rest ∧ x.place = first.place ∧
      (x.children.map place).Sublist (ts.map Token.place)

theorem Spread.mono {ts us : List Token} {x : Node} (spread : Spread ts x) (more : ts.Sublist us) :
    Spread us x := by
  rcases spread with own | ⟨first, rest, children, place, shared⟩
  · exact .inl (own.trans (more.map _))
  · exact .inr ⟨first, rest, children, place, shared.trans (more.map _)⟩

theorem partsCons {holds : Node → Prop} {x : Node} {xs : List Node} (here : holds x)
    (inner : ∀ y ∈ x.children ++ xs, ∀ z, Part y z → holds z) : ∀ y ∈ x :: xs, ∀ z, Part y z → holds z := by
  refine List.forall_mem_cons.mpr ⟨fun z part => ?_, fun y later => inner y (List.mem_append_right _ later)⟩
  cases part with
  | self => exact here
  | inside child more => exact inner _ (List.mem_append_left _ child) z more

theorem Traced.parts {xs : List Node} {ts : List Token} (traced : Traced xs ts) :
    ∀ y ∈ xs, ∀ z, Part y z → Spread ts z := by
  induction traced with
  | nil => exact fun y member => absurd member List.not_mem_nil
  | @made x t names xs ts made more ih =>
    have wider : ts.Sublist (t :: (names ++ ts)) := (List.sublist_append_right names ts).cons t
    refine partsCons (.inl ?_) fun y member z part => (ih y member z part).mono wider
    have inner := more.places
    rw [List.map_append] at inner
    rw [made.place, List.map_cons, List.map_append]
    exact (((List.sublist_append_left _ _).trans inner).trans (List.sublist_append_right _ _)).cons_cons _
  | @joint x xs ts joint more ih =>
    refine partsCons (.inr ?_) ih
    obtain ⟨first, rest, children, place⟩ := joint.first
    have inner := more.places
    rw [List.map_append] at inner
    exact ⟨first, rest, children, place, (List.sublist_append_left _ _).trans inner⟩
  | @access x name xs a ts word target more ih ih' =>
    have back : (name :: ts).Sublist (a ++ name :: ts) := List.sublist_append_right _ _
    refine List.forall_mem_cons.mpr ⟨fun z part => ?_, fun y later z part => ?_⟩
    · cases part with
      | self =>
        refine .inr ⟨_, _, rfl, rfl, ?_⟩
        rw [List.map_append, List.map_cons]
        exact target.places.append ((List.nil_sublist _).cons_cons _)
      | inside child part =>
        rcases List.mem_cons.mp child with rfl | last
        · exact (ih _ List.mem_cons_self z part).mono (List.sublist_append_left _ _)
        · rw [List.mem_singleton.mp last] at part
          cases part with
          | self => exact .inl ((((List.nil_sublist ts).cons_cons name).trans back).map Token.place)
          | inside child _ => exact absurd child List.not_mem_nil
    · exact (ih' y later z part).mono ((List.sublist_cons_self _ _).trans back)

structure Settled (tokens : List Token) (x : Node) : Prop where
  token : ∃ t ∈ tokens, x.place = t.place
  first : ∀ y ∈ x.children, x.place = y.place ∨ x.place.Before y.place
  ordered : x.children.Pairwise fun y z => y.place.Before z.place

theorem Spread.settled {ts : List Token} {x : Node} (spread : Spread ts x)
    (ordered : (ts.map Token.place).Pairwise Place.Before) : Settled ts x := by
  have atToken : x.place ∈ ts.map Token.place → ∃ t ∈ ts, x.place = t.place := fun member => by
    obtain ⟨t, inside, same⟩ := List.mem_map.mp member
    exact ⟨t, inside, same.symm⟩
  rcases spread with own | ⟨first, rest, children, place, shared⟩
  · obtain ⟨later, inner⟩ := List.pairwise_cons.mp (ordered.sublist own)
    refine ⟨atToken (own.subset List.mem_cons_self), fun y child => ?_, List.pairwise_map.mp inner⟩
    exact .inr (later _ (List.mem_map_of_mem child))
  · have inner := List.pairwise_map.mp (ordered.sublist shared)
    refine ⟨atToken (shared.subset ?_), ?_, inner⟩
    · rw [place]
      exact List.mem_map_of_mem (children ▸ List.mem_cons_self)
    · rw [children] at inner ⊢
      rw [place]
      refine List.forall_mem_cons.mpr ⟨.inl rfl, fun y later => .inr ?_⟩
      exact (List.pairwise_cons.mp inner).1 y later

end Node

namespace Parse
open Token (Kind)
open Node (Traced MadeFrom Joint Part Settled)

def isWord : Kind → Bool
  | .number | .string | .ident | .trueWord | .falseWord | .nullWord => true
  | _ => false

structure Picks (used picked : List Token) : Prop where
  words : (used.filter fun t => isWord t.kind).Sublist picked
  inside : picked.Sublist used

namespace Picks

variable {used used' picked picked' : List Token} {t : Token}

theorem nil : Picks [] [] := ⟨.slnil, .slnil⟩

theorem append (first : Picks used picked) (second : Picks used' picked') :
    Picks (used ++ used') (picked ++ picked') := by
  refine ⟨?_, first.inside.append second.inside⟩
  rw [List.filter_append]
  exact first.words.append second.words

theorem take (t : Token) (more : Picks used picked) : Picks (t :: used) (t :: picked) := by
  refine ⟨?_, more.inside.cons_cons t⟩
  rw [List.filter_cons]
  split
  · exact more.words.cons_cons t
  · exact more.words.cons t

theorem skip {kind : Kind} (same : t.kind = kind) (mark : isWord kind = false) (more : Picks used picked) :
    Picks (t :: used) picked := by
  refine ⟨?_, more.inside.cons t⟩
  rw [List.filter_cons_of_neg (by simp [same, mark])]
  exact more.words

theorem newlines (skipped : Newlines used) : Picks used [] := by
  induction used with
  | nil => exact .nil
  | cons t used ih =>
    obtain ⟨newline, rest⟩ := List.forall_mem_cons.mp skipped
    exact (ih rest).skip newline rfl

theorem afterNewlines (skipped : Newlines used) (more : Picks used' picked) : Picks (used ++ used') picked :=
  (newlines skipped).append more

theorem closed (first : Picks used picked) (marks : Picks used' []) : Picks (used ++ used') picked := by
  have whole := first.append marks
  rwa [List.append_nil] at whole

end Picks

theorem joinTraced {link : Link} {left right : Node} {xs : List Node} {ts : List Token}
    (traced : Traced (left :: right :: xs) ts) : Traced (link.join left right :: xs) ts := by
  unfold Link.join
  split
  · exact .joint .logical traced
  · exact .joint .logical traced
  · exact .joint .binary traced

theorem climbTraced {least : Nat} {left : Node} {links : List Link} {ts : List Token}
    (traced : Traced (left :: links.map Link.operand) ts) :
    Traced ((climb least left links).val.1 :: (climb least left links).val.2.map Link.operand) ts := by
  fun_induction climb least left links generalizing ts with
  | case1 => exact traced
  | case2 => exact traced
  | case3 least left link rest binds right shorter whole ih ih' =>
    obtain ⟨a, b, rfl, first, second⟩ := traced.split (show _ = [left] ++ _ from rfl)
    exact ih' (joinTraced (first.append (ih second)))

theorem chainTraced {left : Node} {links : List Link} {ts : List Token}
    (traced : Traced (left :: links.map Link.operand) ts) : Traced [chainTree left links] ts := by
  have whole : Traced ((climb 0 left links).val.1 :: (climb 0 left links).val.2.map Link.operand) ts :=
    climbTraced traced
  rwa [climbAll rfl] at whole

def Phrase.Placed (used : List Token) : Phrase → Prop
  | .expression x | .chain x | .operand x | .primary x | .body x | .block x | .statement x | .entry x =>
    ∃ ts, Picks used ts ∧ Traced [x] ts
  | .links all => ∃ ts, Picks used ts ∧ Traced (all.map Link.operand) ts
  | .suffixes all => ∃ ts, Picks used ts ∧ ∀ x a, Traced [x] a → Traced [all.foldl Suffix.apply x] (a ++ ts)
  | .items closing xs => isWord closing = false → ∃ ts, Picks used ts ∧ Traced xs ts
  | .statements xs | .entries xs => ∃ ts, Picks used ts ∧ Traced xs ts
  | .names all => Picks used all ∧ ∀ name ∈ all, name.kind = .ident

theorem operatorNoWord {k : Kind} {strength : Nat} (binds : k.precedence? = some strength) :
    isWord k = false := by
  cases k <;> simp_all [Kind.precedence?, isWord]

theorem leafPlaced {x : Node} {t : Token} (made : MadeFrom x t []) (leaf : x.children = []) :
    ∃ ts, Picks [t] ts ∧ Traced [x] ts :=
  ⟨[t], .take t .nil, .made made (by rw [leaf]; exact .nil)⟩

theorem madePlaced {x : Node} {t : Token} {s : List Token} (made : MadeFrom x t [])
    (inner : ∃ ts, Picks s ts ∧ Traced x.children ts) : ∃ ts, Picks (t :: s) ts ∧ Traced [x] ts := by
  obtain ⟨ts, picks, traced⟩ := inner
  exact ⟨t :: ts, picks.take t, .made made (by rwa [List.append_nil])⟩

theorem readsPlaced {phrase : Phrase} {used rest : List Token} (reads : Reads phrase used rest) :
    phrase.Placed used := by
  induction reads with
  | single _ _ ih => exact ih
  | choice mark colon _ _ _ cond left right =>
    obtain ⟨a, picks, first⟩ := cond
    obtain ⟨b, picks', second⟩ := left
    obtain ⟨c, picks'', third⟩ := right
    refine ⟨a ++ (b ++ c), picks.append (.skip mark rfl (picks'.append (.skip colon rfl picks''))), ?_⟩
    exact .joint .ternary (first.append (second.append third))
  | chain _ _ first more =>
    obtain ⟨a, picks, operand⟩ := first
    obtain ⟨b, picks', links⟩ := more
    exact ⟨a ++ b, picks.append picks', chainTraced (operand.append links)⟩
  | noLink => exact ⟨[], .nil, .nil⟩
  | link binds _ _ right more =>
    obtain ⟨a, picks, operand⟩ := right
    obtain ⟨b, picks', links⟩ := more
    exact ⟨a ++ b, .skip rfl (operatorNoWord binds) (picks.append picks'), operand.append links⟩
  | sign mark _ ih => exact madePlaced (.unary mark) ih
  | suffixed _ _ target more =>
    obtain ⟨a, picks, first⟩ := target
    obtain ⟨b, picks', applied⟩ := more
    exact ⟨a ++ b, picks.append picks', applied _ a first⟩
  | noSuffix => exact ⟨[], .nil, fun x a target => by rwa [List.append_nil]⟩
  | @name dot name _ _ _ mark word _ ih =>
    obtain ⟨b, picks, applied⟩ := ih
    refine ⟨name :: b, .skip mark rfl (picks.take name), fun x a target => ?_⟩
    have next := applied _ (a ++ [name]) (.access word target .nil)
    rwa [List.append_assoc] at next
  | index opening closing _ _ key more =>
    obtain ⟨a, picks, inner⟩ := key
    obtain ⟨b, picks', applied⟩ := more
    refine ⟨a ++ b, .skip opening rfl (picks.append (.skip closing rfl picks')), fun x front target => ?_⟩
    rw [← List.append_assoc]
    exact applied _ _ (.joint .index (target.append inner))
  | call opening _ _ args more =>
    obtain ⟨a, picks, inner⟩ := args rfl
    obtain ⟨b, picks', applied⟩ := more
    refine ⟨a ++ b, .skip opening rfl (picks.append picks'), fun x front target => ?_⟩
    have whole := target.append inner
    rw [← List.append_assoc]
    exact applied _ _ (.joint .call (by rwa [List.append_nil]))
  | number kind value => exact leafPlaced (.number kind (numberAtomOk value)) rfl
  | string kind => exact leafPlaced (.string kind) rfl
  | truth kind => exact leafPlaced (.truth kind) rfl
  | falsity kind => exact leafPlaced (.falsity kind) rfl
  | null kind => exact leafPlaced (.null kind) rfl
  | ident kind => exact leafPlaced (.ident kind) rfl
  | arrowOfName kind mark _ body =>
    obtain ⟨ts, picks, inner⟩ := body
    exact madePlaced (.arrowOfName kind) ⟨ts, picks.skip mark rfl, inner⟩
  | @arrowOfNames o _ names _ _ _ _ opening mark _ _ _ params body =>
    obtain ⟨picks, words⟩ := params
    obtain ⟨ts, picks', inner⟩ := body
    exact ⟨o :: (names ++ ts), (picks.append (picks'.skip mark rfl)).take o,
      .made (.arrowOfNames opening words) inner⟩
  | group opening closing _ _ ih =>
    obtain ⟨ts, picks, inner⟩ := ih
    exact ⟨ts, (picks.closed (.skip closing rfl .nil)).skip opening rfl, inner⟩
  | array opening _ ih => exact madePlaced (.array opening) (ih rfl)
  | object opening skipped _ ih =>
    obtain ⟨ts, picks, inner⟩ := ih
    exact madePlaced (.object opening) ⟨ts, picks.afterNewlines skipped, inner⟩
  | noItem close => exact fun mark => ⟨[], .skip close mark .nil, .nil⟩
  | lastItem close _ item =>
    intro mark
    obtain ⟨ts, picks, inner⟩ := item
    exact ⟨ts, picks.closed (.skip close mark .nil), inner⟩
  | item comma _ _ item more =>
    intro mark
    obtain ⟨a, picks, first⟩ := item
    obtain ⟨b, picks', others⟩ := more mark
    exact ⟨a ++ b, picks.append (.skip comma rfl picks'), first.append others⟩
  | noName close => exact ⟨.skip close rfl .nil, List.forall_mem_nil _⟩
  | lastName close word => exact ⟨.take _ (.skip close rfl .nil), List.forall_mem_singleton.mpr word⟩
  | oneName comma word _ ih =>
    exact ⟨.take _ (.skip comma rfl ih.1), List.forall_mem_cons.mpr ⟨word, ih.2⟩⟩
  | blockBody skipped _ ih =>
    obtain ⟨ts, picks, inner⟩ := ih
    exact ⟨ts, picks.afterNewlines skipped, inner⟩
  | expressionBody skipped _ _ ih =>
    obtain ⟨ts, picks, inner⟩ := ih
    exact ⟨ts, picks.afterNewlines skipped, inner⟩
  | block opening skipped _ ih =>
    obtain ⟨ts, picks, inner⟩ := ih
    exact madePlaced (.block opening) ⟨ts, picks.afterNewlines skipped, inner⟩
  | noStatement close => exact ⟨[], .skip close rfl .nil, .nil⟩
  | lastStatement close _ item =>
    obtain ⟨ts, picks, inner⟩ := item
    exact ⟨ts, picks.closed (.skip close rfl .nil), inner⟩
  | oneStatement newline skipped _ _ item more =>
    obtain ⟨a, picks, first⟩ := item
    obtain ⟨b, picks', others⟩ := more
    exact ⟨a ++ b, picks.append (.skip newline rfl (picks'.afterNewlines skipped)), first.append others⟩
  | assignment word mark _ value =>
    obtain ⟨ts, picks, inner⟩ := value
    exact madePlaced (.assignment word) ⟨ts, picks.skip mark rfl, inner⟩
  | expression _ value => exact value
  | noEntry close => exact ⟨[], .skip close rfl .nil, .nil⟩
  | lastEntry close skipped _ item =>
    obtain ⟨ts, picks, inner⟩ := item
    exact ⟨ts, picks.closed (.afterNewlines skipped (.skip close rfl .nil)), inner⟩
  | oneEntry comma skipped skipped' _ _ item more =>
    obtain ⟨a, picks, first⟩ := item
    obtain ⟨b, picks', others⟩ := more
    have between := (picks'.afterNewlines skipped').skip comma rfl
    exact ⟨a ++ b, picks.append (between.afterNewlines skipped), first.append others⟩
  | @method key _ _ names _ _ _ _ word opening skipped _ _ params body =>
    obtain ⟨picks, words⟩ := params
    obtain ⟨ts, picks', inner⟩ := body
    exact ⟨key :: (names ++ ts), ((picks.append (picks'.afterNewlines skipped)).skip opening rfl).take key,
      .made (.method word words) inner⟩
  | plain word mark _ value =>
    obtain ⟨ts, picks, inner⟩ := value
    exact madePlaced (.plain word) ⟨ts, picks.skip mark rfl, inner⟩

theorem programPlaced {tree : Node} {body : List Token} (reads : ReadsProgram tree body) :
    ∃ words, Picks body words ∧ Traced [tree] words := by
  obtain ⟨before, used, after, rfl, skipped, skipped', _, inner⟩ := reads
  obtain ⟨words, picks, traced⟩ := readsPlaced inner
  exact ⟨words, (picks.closed (.newlines skipped')).afterNewlines skipped, traced⟩

theorem tokensInOrder {source : String} {stream : Token.Stream} (ok : tokenize source = .ok stream) :
    (stream.body.map Token.place).Pairwise Place.Before := by
  obtain ⟨final, _, rfl⟩ := Token.tokenizeIff.mp ok
  exact List.pairwise_map.mpr (List.pairwise_map.mpr (Token.Scanner.runTokens _).2.2)

theorem treeFollowsSource {depth : Nat} {source : String} {tree : Node} (ok : parse depth source = .ok tree) :
    ∃ stream words, tokenize source = .ok stream ∧ Picks stream.body words ∧ Traced [tree] words ∧
      ∀ x, Part tree x → Settled stream.body x := by
  obtain ⟨stream, tokens, _, reads⟩ := parseReads ok
  obtain ⟨words, picks, traced⟩ := programPlaced reads
  refine ⟨stream, words, tokens, picks, traced, fun x part => ?_⟩
  have spread := traced.parts tree List.mem_cons_self x part
  exact (spread.mono picks.inside).settled (tokensInOrder tokens)

def ordersSource : String :=
  "\x7b 'total': (a +\n b).sum(x => -x[0], [1]),\n  f(p, q) \x7b\n    r = p ? (q) : null\n  \x7d \x7d"

theorem treeFollowsOrders : ∃ tree, parse 12 ordersSource = .ok tree ∧
    ∃ stream words, tokenize ordersSource = .ok stream ∧ Picks stream.body words ∧ Traced [tree] words ∧
      ∀ x, Part tree x → Settled stream.body x := by
  have accepted : (parse 12 ordersSource).toOption.isSome = true := by decide +kernel
  obtain ⟨tree, ok⟩ := okOfSome accepted
  exact ⟨tree, ok, treeFollowsSource ok⟩

end Parse

end Scriptlet
