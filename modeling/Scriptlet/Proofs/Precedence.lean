import Mathlib.Data.List.TakeWhile
import Scriptlet.Proofs.Acceptance
import Scriptlet.Proofs.Yield

/-! A chain of operators without brackets is read as the tree that one gets by cutting it at its loosest
operator, the last one if there are several, and by reading both sides in the same way. The reader itself
never looks at a whole chain: it decides at each operator by how tightly that one binds. -/
namespace Scriptlet.Parse
open Token (Kind)

def levels : List (List Kind) :=
  [[.orOp], [.andOp], [.equal, .notEqual], [.less, .greater, .lessEq, .greaterEq], [.plus, .minus],
   [.star, .slash, .percent]]

def leaf? (t : Token) : Option Node :=
  match t.kind with
  | .ident => some (.ident t.place t.value)
  | .string => some (.literal t.place .string (.str t.value))
  | .trueWord => some (.literal t.place .bool (.bool true))
  | .falseWord => some (.literal t.place .bool (.bool false))
  | .nullWord => some (.literal t.place .null .null)
  | .number => match numberAtom t.value with
    | some (.float x) => if x.isFinite then some (.literal t.place .number (.float x)) else none
    | value => value.map (.literal t.place .number)
  | _ => none

structure Operand where
  token : Token
  leaf : Node
  simple : leaf? token = some leaf

structure Step where
  op : Token
  operand : Operand
  binary : op.kind ∈ levels.flatten

namespace Step

def level (step : Step) : Nat := levels.findIdx (step.op.kind ∈ ·) + 1

def join (step : Step) (left right : Node) : Node :=
  if step.op.kind ∈ [Kind.andOp, .orOp] then .logical left.place step.op.value left right
  else .binary left.place step.op.value left right

def tokens (steps : List Step) : List Token := steps.flatMap fun step => [step.op, step.operand.token]

def link (step : Step) : Link := ⟨step.op, step.level, step.operand.leaf⟩

theorem binds (step : Step) : step.op.kind.precedence? = some step.level := by
  obtain ⟨op, operand, binary⟩ := step
  show op.kind.precedence? = some (levels.findIdx (op.kind ∈ ·) + 1)
  generalize op.kind = k at binary
  revert binary
  cases k <;> decide

theorem joinLink (step : Step) (left right : Node) : step.link.join left right = step.join left right := by
  obtain ⟨op, operand, binary⟩ := step
  show Link.join ⟨op, _, _⟩ left right = join ⟨op, _, _⟩ left right
  unfold Link.join join
  cases op.kind <;> rfl

end Step

/- A chain cut at its last loosest operator. -/
structure Cut (steps : List Step) where
  before : List Step
  pivot : Step
  after : List Step
  whole : steps = before ++ pivot :: after
  loosest : ∀ step ∈ before, pivot.level ≤ step.level
  last : ∀ step ∈ after, pivot.level < step.level

namespace Cut

variable {steps : List Step}

theorem least (cut : Cut steps) : ∀ step ∈ steps, cut.pivot.level ≤ step.level := by
  intro step member
  rw [cut.whole, List.mem_append, List.mem_cons] at member
  rcases member with inside | same | inside
  · exact cut.loosest step inside
  · exact Nat.le_of_eq (congrArg Step.level same.symm)
  · exact Nat.le_of_lt (cut.last step inside)

theorem shorter (cut : Cut steps) :
    cut.before.length < steps.length ∧ cut.after.length < steps.length := by
  have length := congrArg List.length cut.whole
  rw [List.length_append, List.length_cons] at length
  omega

def behind (front : List Step) (cut : Cut steps) (tighter : ∀ step ∈ front, cut.pivot.level ≤ step.level) :
    Cut (front ++ steps) where
  before := front ++ cut.before
  pivot := cut.pivot
  after := cut.after
  whole := by rw [List.append_assoc, ← cut.whole]
  loosest := List.forall_mem_append.mpr ⟨tighter, cut.loosest⟩
  last := cut.last

def atFirst (step : Step) (tighter : ∀ other ∈ steps, step.level < other.level) : Cut (step :: steps) where
  before := []
  pivot := step
  after := steps
  whole := rfl
  loosest := List.forall_mem_nil _
  last := tighter

def cons (step : Step) (cut : Cut steps) : Cut (step :: steps) :=
  if looser : step.level < cut.pivot.level then
    atFirst step fun other member => Nat.lt_of_lt_of_le looser (cut.least other member)
  else cut.behind [step] (List.forall_mem_singleton.mpr (Nat.le_of_not_lt looser))

def of (first : Step) : (more : List Step) → Cut (first :: more)
  | [] => atFirst first (List.forall_mem_nil _)
  | next :: more => (of next more).cons first

theorem notFurther {before before' after after' middle : List Step} {pivot pivot' : Step}
    (last : ∀ step ∈ after, pivot.level < step.level)
    (loosest : ∀ step ∈ before', pivot'.level ≤ step.level) (left : before' = before ++ middle)
    (right : pivot :: after = middle ++ pivot' :: after') :
    before = before' ∧ pivot = pivot' ∧ after = after' := by
  cases middle with
  | nil =>
    obtain ⟨rfl, rfl⟩ := List.cons.inj right
    exact ⟨by rw [left, List.append_nil], rfl, rfl⟩
  | cons step middle =>
    obtain ⟨rfl, rfl⟩ := List.cons.inj right
    have tighter := last pivot' (List.mem_append_right _ List.mem_cons_self)
    have looser := loosest pivot (left ▸ List.mem_append_right _ List.mem_cons_self)
    omega

theorem unique (one two : Cut steps) : one = two := by
  have same : one.before = two.before ∧ one.pivot = two.pivot ∧ one.after = two.after := by
    rcases List.append_eq_append_iff.mp (one.whole.symm.trans two.whole) with
      ⟨middle, left, right⟩ | ⟨middle, left, right⟩
    · exact notFurther one.last two.loosest left right
    · obtain ⟨before, pivot, after⟩ := notFurther two.last one.loosest left right
      exact ⟨before.symm, pivot.symm, after.symm⟩
  obtain ⟨before, pivot, after, _, _, _⟩ := one
  obtain ⟨rfl, rfl, rfl⟩ := same
  rfl

end Cut

/- The tree of a chain, from the loosest operator down. -/
def reference (first : Node) : List Step → Node
  | [] => first
  | step :: more =>
    let cut := Cut.of step more
    cut.pivot.join (reference first cut.before) (reference cut.pivot.operand.leaf cut.after)
termination_by steps => steps.length
decreasing_by
  · exact (Cut.of step more).shorter.1
  · exact (Cut.of step more).shorter.2

theorem referenceNil (first : Node) : reference first [] = first := by rw [reference]

theorem referenceCut {steps : List Step} (cut : Cut steps) (first : Node) :
    reference first steps =
      cut.pivot.join (reference first cut.before) (reference cut.pivot.operand.leaf cut.after) := by
  cases steps with
  | nil => exact absurd cut.whole.symm (by simp)
  | cons step more =>
    rw [reference, cut.unique (Cut.of step more)]

/- Tighter operators right after an operator belong to its right side. What comes then is no tighter, so
it applies to all that stands before it. The induction is on the length of `outer`: the cut of the whole
chain is the cut of `outer`, and what is left of it there is shorter. -/
theorem referenceStep (step : Step) (first : Node) {inner : List Step}
    (tighter : ∀ other ∈ inner, step.level < other.level) (outer : List Step)
    (looser : ∀ next ∈ outer.head?, next.level ≤ step.level) :
    reference first (step :: (inner ++ outer)) =
      reference (step.join first (reference step.operand.leaf inner)) outer := by
  induction length : outer.length using Nat.strong_induction_on generalizing outer with
  | _ n ih =>
    cases outer with
    | nil =>
      rw [List.append_nil, referenceCut (Cut.atFirst step tighter), referenceNil]
      exact congrArg (fun tree => step.join tree _) (referenceNil first)
    | cons next more =>
      let cut := Cut.of next more
      have nextLooser : next.level ≤ step.level := looser next rfl
      have pivotLooser : cut.pivot.level ≤ step.level :=
        Nat.le_trans (cut.least next List.mem_cons_self) nextLooser
      have front : ∀ other ∈ step :: inner, cut.pivot.level ≤ other.level :=
        List.forall_mem_cons.mpr ⟨pivotLooser, fun other inside =>
          Nat.le_of_lt (Nat.lt_of_le_of_lt pivotLooser (tighter other inside))⟩
      have head : ∀ other ∈ cut.before.head?, other.level ≤ step.level := by
        intro other head
        obtain ⟨rest, shape⟩ := List.head?_eq_some_iff.mp head
        have whole := cut.whole
        rw [shape, List.cons_append] at whole
        exact (List.cons.inj whole).1 ▸ nextLooser
      have left := ih cut.before.length (length ▸ cut.shorter.1) cut.before head rfl
      calc reference first (step :: inner ++ next :: more)
          = cut.pivot.join (reference first (step :: inner ++ cut.before))
              (reference cut.pivot.operand.leaf cut.after) := referenceCut (cut.behind _ front) first
        _ = cut.pivot.join (reference (step.join first (reference step.operand.leaf inner)) cut.before)
              (reference cut.pivot.operand.leaf cut.after) := congrArg (cut.pivot.join · _) left
        _ = reference (step.join first (reference step.operand.leaf inner)) (next :: more) :=
          (referenceCut cut _).symm

theorem climbStop {least : Nat} {link : Link} (looser : link.strength < least) (left : Node)
    (rest : List Link) : (climb least left (link :: rest)).val = (left, link :: rest) := by
  rw [climb, if_pos looser]

theorem climbOn {least : Nat} {link : Link} (binds : ¬ link.strength < least) (left : Node)
    (rest : List Link) {right : Node} {others : List Link}
    (inner : (climb (link.strength + 1) link.operand rest).val = (right, others)) :
    (climb least left (link :: rest)).val = (climb least (link.join left right) others).val := by
  rw [climb, if_neg binds]
  show (climb least (link.join left (climb _ _ _).val.1) (climb _ _ _).val.2).val = _
  rw [inner]

theorem climbReference (least : Nat) (first : Node) (steps : List Step) :
    (climb least first (steps.map Step.link)).val =
      (reference first (steps.takeWhile (least ≤ ·.level)),
        (steps.dropWhile (least ≤ ·.level)).map Step.link) := by
  induction length : steps.length using Nat.strong_induction_on generalizing least first steps with
  | _ n ih =>
    cases steps with
    | nil =>
      rw [List.map_nil, climb, List.takeWhile_nil, referenceNil]
      rfl
    | cons step more =>
      rw [List.map_cons]
      by_cases looser : step.level < least
      · have stop : ¬ least ≤ step.level := Nat.not_le_of_lt looser
        rw [climbStop looser]
        simp [stop, referenceNil]
      · have binds : least ≤ step.level := Nat.le_of_not_lt looser
        let inner := more.takeWhile (step.level + 1 ≤ ·.level)
        let outer := more.dropWhile (step.level + 1 ≤ ·.level)
        have parts : inner ++ outer = more := List.takeWhile_append_dropWhile
        have shorter : more.length < n := by rw [← length]; exact Nat.lt_succ_self _
        have outerShorter : outer.length < n :=
          Nat.lt_of_le_of_lt (List.dropWhile_suffix _).length_le shorter
        have tighter : ∀ other ∈ inner, step.level < other.level := by
          intro other member
          have bound := List.mem_takeWhile_imp member
          exact of_decide_eq_true bound
        have inside : ∀ other ∈ inner, decide (least ≤ other.level) = true := fun other member =>
          decide_eq_true (Nat.le_trans binds (Nat.le_of_lt (tighter other member)))
        have head : ∀ next ∈ (outer.takeWhile (least ≤ ·.level)).head?, next.level ≤ step.level := by
          intro next head
          have stop := List.head?_dropWhile_not (fun other => decide (step.level + 1 ≤ other.level)) more
          rw [List.head?_takeWhile] at head
          rw [(Option.filter_eq_some_iff.mp head).1] at stop
          exact Nat.le_of_lt_succ (Nat.lt_of_not_le (of_decide_eq_false stop))
        have right := ih more.length shorter (step.level + 1) step.operand.leaf more rfl
        have whole := ih outer.length outerShorter least
          (step.join first (reference step.operand.leaf inner)) outer rfl
        rw [climbOn looser first _ right, Step.joinLink]
        refine whole.trans ?_
        rw [← parts, List.takeWhile_cons, List.dropWhile_cons, if_pos (decide_eq_true binds),
          if_pos (decide_eq_true binds), List.takeWhile_append_of_pos inside,
          List.dropWhile_append_of_pos inside, referenceStep step first tighter _ head]

theorem chainTreeReference (first : Node) (steps : List Step) :
    chainTree first (steps.map Step.link) = reference first steps := by
  have all : steps.takeWhile (0 ≤ ·.level) = steps := by simp
  rw [chainTree, climbReference, all]

def Ends (rest : List Token) : Prop :=
  headKind rest ∉ [Kind.dot, .lbracket, .lparen, .arrow] ++ levels.flatten

theorem Ends.noLink {rest : List Token} (ends : Ends rest) : (headKind rest).precedence? = none := by
  unfold Ends at ends
  generalize headKind rest = k at ends
  revert ends
  cases k <;> decide

def Stops (rest : List Token) : Prop := headKind rest ∉ [Kind.dot, .lbracket, .lparen, .arrow]

theorem Ends.stops {rest : List Token} (ends : Ends rest) (steps : List Step) :
    Stops (Step.tokens steps ++ rest) := by
  cases steps with
  | nil => exact fun inside => ends (List.mem_append_left _ inside)
  | cons step more =>
    have binary := step.binary
    show step.op.kind ∉ _
    generalize step.op.kind = k at binary
    revert binary
    cases k <;> decide

theorem numberOfAtom {t : Token} {v : SExpr} (value : numberAtom t.value = some v)
    (finite : ∀ x, v = .float x → x.isFinite = true) (s : List Token) : number t s = .ok (v, s) := by
  unfold numberAtom at value
  unfold number
  cases read : Numeral.read? t.value.toList with
  | none => simp [read] at value
  | some n =>
    simp only [read] at value ⊢
    split at value
    · rename_i whole
      rw [if_pos whole]
      cases read : n.toInt with
      | error e => simp [read, Except.toOption] at value
      | ok k =>
        simp only [read, Except.toOption, Option.map_some, Option.some.injEq] at value
        rw [← value]
        rfl
    · rename_i part
      cases value
      rw [if_neg part, if_pos (finite _ rfl)]
      rfl

theorem leafFinds {t : Token} {leaf : Node} (simple : leaf? t = some leaf) {rest : List Token}
    (stops : Stops rest) (depth : Nat) : primary (expression depth) (t :: rest) = .ok (leaf, rest) := by
  unfold leaf? at simple
  cases kind : t.kind <;> simp only [kind, reduceCtorEq, Option.some.injEq] at simple
  case ident => exact simple ▸ identFinds kind fun arrow => stops (by rw [arrow]; decide)
  case number =>
    split at simple
    · rename_i x value
      split at simple
      · rename_i finite
        cases simple
        refine numberFinds kind (numberOfAtom value (fun y same => ?_) rest)
        cases same
        exact finite
      · cases simple
    · rename_i noFloat
      obtain ⟨v, value, rfl⟩ := Option.map_eq_some_iff.mp simple
      refine numberFinds kind (numberOfAtom value (fun x same => ?_) rest)
      exact absurd (same ▸ value) (noFloat x)
  all_goals
    subst simple
    simp only [primary, bindStep (aheadApply _), kind]
    rfl

theorem leafStart {t : Token} {leaf : Node} (simple : leaf? t = some leaf) :
    t.kind ∉ [Kind.notOp, .minus, .newline] := by
  unfold leaf? at simple
  cases kind : t.kind <;> simp [kind] at simple ⊢

theorem Operand.finds (x : Operand) {rest : List Token} (stops : Stops rest) (depth : Nat) :
    unary (depth + 1) (x.token :: rest) = .ok (x.leaf, rest) := by
  have not : ∀ k ∈ [Kind.dot, .lbracket, .lparen, .arrow], headKind rest ≠ k := fun k inside same =>
    stops (same ▸ inside)
  have noSuffix : Finds depth (.suffixes []) [] rest :=
    noSuffixFinds (not .dot (by decide)) (not .lbracket (by decide)) (not .lparen (by decide))
  have plain : x.token.kind ≠ .notOp ∧ x.token.kind ≠ .minus := by
    have start := leafStart x.simple
    simp_all
  exact suffixedFinds (a := [x.token]) (b := []) plain (leafFinds x.simple stops depth) noSuffix

theorem linksRepeat {rest : List Token} (ends : Ends rest) (depth : Nat) (least : Int) (steps : List Step) :
    Reader.Repeats (linkTurn (unary (depth + 1)) least) (Step.tokens steps ++ rest)
      ((steps.takeWhile (least ≤ ·.level)).map Step.link)
      (Step.tokens (steps.dropWhile (least ≤ ·.level)) ++ rest) := by
  induction steps with
  | nil =>
    exact .stop (linkTurnFree ends.noLink)
  | cons step more ih =>
    have shape : Step.tokens (step :: more) ++ rest =
      step.op :: step.operand.token :: (Step.tokens more ++ rest) := rfl
    rw [shape, List.takeWhile_cons, List.dropWhile_cons]
    by_cases binds : least ≤ (step.level : Int)
    · have turn : linkTurn (unary (depth + 1)) least
          (step.op :: step.operand.token :: (Step.tokens more ++ rest)) =
            .ok (.more step.link, Step.tokens more ++ rest) := by
        unfold linkTurn
        rw [bindStep (peekApply _)]
        simp only [List.head?_cons, step.binds]
        rw [if_neg (Int.not_lt.mpr binds), bindStep (dropApply _), List.tail_cons,
          bindStep (step.operand.finds (ends.stops more) depth)]
        rfl
      rw [if_pos (decide_eq_true binds), if_pos (decide_eq_true binds)]
      refine .more turn ?_ ih
      simp only [List.length_cons]
      omega
    · have turn : linkTurn (unary (depth + 1)) least
          (step.op :: step.operand.token :: (Step.tokens more ++ rest)) =
            .ok (.stop, step.op :: step.operand.token :: (Step.tokens more ++ rest)) := by
        unfold linkTurn
        rw [bindStep (peekApply _)]
        simp only [List.head?_cons, step.binds]
        rw [if_pos (Int.not_le.mp binds)]
        rfl
      rw [if_neg (by simpa using binds), if_neg (by simpa using binds)]
      exact .stop turn

theorem chainReference {rest : List Token} (ends : Ends rest) (depth : Nat) (least : Int) (first : Operand)
    (steps : List Step) :
    chain (unary (depth + 1)) least (first.token :: (Step.tokens steps ++ rest)) =
      .ok (reference first.leaf (steps.takeWhile (least ≤ ·.level)),
        Step.tokens (steps.dropWhile (least ≤ ·.level)) ++ rest) := by
  unfold chain
  rw [bindStep (first.finds (ends.stops steps) depth),
    bindStep (Reader.collectIff.mpr (linksRepeat ends depth least steps)), chainTreeReference]
  rfl

theorem programReference {before after : List Token} (skipped : Newlines before) (skipped' : Newlines after)
    (first : Operand) (steps : List Step) (depth : Nat) :
    program (depth + 2) (before ++ first.token :: (Step.tokens steps ++ after)) =
      .ok (reference first.leaf steps, []) := by
  have closes : Closes after := .newlines skipped'
  have ends : Ends after := fun inside => absurd closes (by
    revert inside
    unfold Closes
    generalize headKind after = k
    cases k <;> decide)
  have start : headKind (first.token :: Step.tokens steps ++ after) ≠ .newline := by
    intro newline
    rw [List.cons_append, headKindCons] at newline
    exact leafStart first.simple (by rw [newline]; decide)
  have all : ∀ step ∈ steps, decide ((1 : Int) ≤ step.level) = true := by
    intro step _
    unfold Step.level
    simp
  have found := chainReference ends depth 1 first steps
  rw [List.takeWhile_eq_self_iff.mpr all, List.dropWhile_eq_nil_iff.mpr all] at found
  have inner : expression (depth + 2) (first.token :: Step.tokens steps ++ after) =
      .ok (reference first.leaf steps, after) := singleFinds found (closes.not (by decide))
  exact programOfExpression skipped skipped' start inner

theorem chainsReadAsReference (first : Operand) (steps : List Step) :
    (∀ source stream before after, tokenize source = .ok stream → Newlines before → Newlines after →
      stream.body = before ++ first.token :: (Step.tokens steps ++ after) →
      ∀ depth, parse (depth + 2) source = .ok (reference first.leaf steps)) ∧
    ∀ (depth : Nat) (least : Int) (rest : List Token), Ends rest →
      chain (unary (depth + 1)) least (first.token :: (Step.tokens steps ++ rest)) =
        .ok (reference first.leaf (steps.takeWhile (least ≤ ·.level)),
          Step.tokens (steps.dropWhile (least ≤ ·.level)) ++ rest) := by
  constructor
  · intro source stream before after tokens skipped skipped' body depth
    refine (parseOk tokens _ _).mpr ⟨[], ?_⟩
    rw [body]
    exact programReference skipped skipped' first steps depth
  · intro depth least rest ends
    exact chainReference ends depth least first steps

def mixedFirst : Operand := ⟨⟨.ident, "a", "a", 0, ⟨1, 1⟩⟩, .ident ⟨1, 1⟩ "a", rfl⟩

def mixedSteps : List Step :=
  [⟨⟨.minus, "-", "-", 2, ⟨1, 3⟩⟩, ⟨⟨.ident, "b", "b", 4, ⟨1, 5⟩⟩, .ident ⟨1, 5⟩ "b", rfl⟩, by decide⟩,
   ⟨⟨.star, "*", "*", 6, ⟨1, 7⟩⟩, ⟨⟨.number, "2", "2", 8, ⟨1, 9⟩⟩, .literal ⟨1, 9⟩ .number (.int 2), rfl⟩,
    by decide⟩,
   ⟨⟨.minus, "-", "-", 10, ⟨1, 11⟩⟩, ⟨⟨.ident, "c", "c", 12, ⟨1, 13⟩⟩, .ident ⟨1, 13⟩ "c", rfl⟩, by decide⟩,
   ⟨⟨.less, "<", "<", 14, ⟨1, 15⟩⟩,
    ⟨⟨.number, "3", "3", 16, ⟨1, 17⟩⟩, .literal ⟨1, 17⟩ .number (.int 3), rfl⟩, by decide⟩,
   ⟨⟨.orOp, "||", "||", 18, ⟨1, 19⟩⟩,
    ⟨⟨.trueWord, "true", "true", 21, ⟨1, 22⟩⟩, .literal ⟨1, 22⟩ .bool (.bool true), rfl⟩, by decide⟩]

def mixedDifference : Node :=
  .binary ⟨1, 1⟩ "-"
    (.binary ⟨1, 1⟩ "-" (.ident ⟨1, 1⟩ "a")
      (.binary ⟨1, 5⟩ "*" (.ident ⟨1, 5⟩ "b") (.literal ⟨1, 9⟩ .number (.int 2))))
    (.ident ⟨1, 13⟩ "c")

def mixedTree : Node :=
  .logical ⟨1, 1⟩ "||" (.binary ⟨1, 1⟩ "<" mixedDifference (.literal ⟨1, 17⟩ .number (.int 3)))
    (.literal ⟨1, 22⟩ .bool (.bool true))

def mixedLine : Token := ⟨.newline, "\n", "\n", 25, ⟨1, 26⟩⟩

def mixedStream : Token.Stream :=
  ⟨mixedFirst.token :: (Step.tokens mixedSteps ++ [mixedLine]), ⟨.eof, "", "", 26, ⟨2, 1⟩⟩⟩

theorem chainsReadAsReferenceMixed :
    tokenize "a - b * 2 - c < 3 || true\n" = .ok mixedStream ∧
      parse 2 "a - b * 2 - c < 3 || true\n" = .ok mixedTree ∧
      chain (unary 1) 5 mixedStream.body =
        .ok (mixedDifference, Step.tokens (mixedSteps.drop 3) ++ [mixedLine]) := by
  have tokens : tokenize "a - b * 2 - c < 3 || true\n" = .ok mixedStream := by decide +kernel
  have newline : Newlines [mixedLine] := List.forall_mem_singleton.mpr rfl
  have tree : reference mixedFirst.leaf mixedSteps = mixedTree := by cbv
  have part : reference mixedFirst.leaf (mixedSteps.take 3) = mixedDifference := by cbv
  have front : mixedSteps.takeWhile ((5 : Int) ≤ ·.level) = mixedSteps.take 3 := rfl
  have left : mixedSteps.dropWhile ((5 : Int) ≤ ·.level) = mixedSteps.drop 3 := rfl
  obtain ⟨whole, inside⟩ := chainsReadAsReference mixedFirst mixedSteps
  refine ⟨tokens, ?_, ?_⟩
  · rw [← tree]
    exact whole _ mixedStream [] [mixedLine] tokens (List.forall_mem_nil _) newline rfl 0
  · rw [← part, ← front, ← left]
    exact inside 0 5 [mixedLine] (by unfold Ends; decide)

end Scriptlet.Parse
