import Scriptlet.Proofs.Progress

/-! Two parsers side by side. A bond says which tokens belong together, and what the second parser may do
where the first one fails. Every rule of the grammar ties two parsers together if their parts are tied, so
a bond has to be looked at only where the two sides differ. -/
namespace Scriptlet.Parse
open Token (Kind)

variable {α β γ δ : Type}

def left (result : Except Failure (α × List Token)) : Except Failure (List Token) := result.map Prod.snd

def Lost (result : Except Failure (List Token)) : Prop := ∀ rest, result = .ok rest → headKind rest = .arrow

def Stays (p : Parser α) : Prop := ∀ s, headKind s = .arrow → Lost (left (p s))

/- `fails f r` allows the second parser to end in `r` where the first one fails with `f`. -/
structure Bond where
  words : Token → Token → Prop
  tokens : List Token → List Token → Prop
  fails : Failure → Except Failure (List Token) → Prop

/- Two newlines need not belong together, since one can stand for several. -/
class Bond.Lawful (B : Bond) : Prop where
  kind {t u} (word : B.words t u) : t.kind = u.kind
  value {t u} (word : B.words t u) : t.value = u.value
  head {s s'} (tied : B.tokens s s') : headKind s = headKind s'
  nil {s} (tied : B.tokens [] s) : s = []
  uncons {t s s'} (tied : B.tokens (t :: s) s') (word : t.kind ≠ .newline) :
    ∃ u rest, s' = u :: rest ∧ B.words t u ∧ B.tokens s rest
  skip {s s'} (tied : B.tokens s s') :
    B.tokens (s.dropWhile (·.kind = .newline)) (s'.dropWhile (·.kind = .newline))
  ahead {s s'} (tied : B.tokens s s') : arrowAhead 0 s = arrowAhead 0 s'
  fail {s s'} (cause : Cause) (tied : B.tokens s s') : B.fails ⟨cause, s⟩ (.error ⟨cause, s'⟩)
  invalidKey {t u s s'} (word : B.words t u) (tied : B.tokens s s') :
    B.fails ⟨.invalidKey t.raw, s⟩ (.error ⟨.invalidKey u.raw, s'⟩)
  outOfRange {t u s s'} (word : B.words t u) (tied : B.tokens s s') :
    B.fails ⟨.outOfRange t, s⟩ (.error ⟨.outOfRange u, s'⟩)
  lost {f s r} (fails : B.fails f (.ok s)) (after : headKind s = .arrow → Lost r) : B.fails f r

def Bond.sure (B : Bond) : Bond := { B with fails := fun f r => B.fails f r ∧ ∃ g, r = .error g }

instance {B : Bond} [laws : B.Lawful] : B.sure.Lawful where
  kind := laws.kind
  value := laws.value
  head := laws.head
  nil := laws.nil
  uncons := laws.uncons
  skip := laws.skip
  ahead := laws.ahead
  fail cause tied := ⟨laws.fail cause tied, _, rfl⟩
  invalidKey word tied := ⟨laws.invalidKey word tied, _, rfl⟩
  outOfRange word tied := ⟨laws.outOfRange word tied, _, rfl⟩
  lost := by
    rintro _ _ _ ⟨_, _, none⟩
    cases none

inductive Outcome (B : Bond) (R : α → β → Prop) :
    Except Failure (α × List Token) → Except Failure (β × List Token) → Prop where
  | ok {a b rest rest'} (value : R a b) (tied : B.tokens rest rest') : Outcome B R (.ok (a, rest)) (.ok (b, rest'))
  | failed {f result} (fails : B.fails f (left result)) : Outcome B R (.error f) result

def Ties (B : Bond) (R : α → β → Prop) (p : Parser α) (q : Parser β) : Prop :=
  ∀ s s', B.tokens s s' → Outcome B R (p s) (q s')

def TiesAt (k : Kind) (B : Bond) (R : α → β → Prop) (p : Parser α) (q : Parser β) : Prop :=
  ∀ s s', B.tokens s s' → headKind s = k → Outcome B R (p s) (q s')

inductive TurnTied (R : α → β → Prop) : Reader.Turn α → Reader.Turn β → Prop where
  | stop : TurnTied R .stop .stop
  | last {a b} (value : R a b) : TurnTied R (.last a) (.last b)
  | more {a b} (value : R a b) : TurnTied R (.more a) (.more b)

def Bond.Level (B : Bond) : Prop := ∀ s s', B.tokens s s' → s.length = s'.length

/- Two parsers that can take each other's place inside a rule. A repetition ends on both sides at once,
since either the lists have one length or both sides get on. -/
structure Parts (B : Bond) (R : α → β → Prop) (p : Parser α) (q : Parser β) : Prop where
  ties : Ties B R p q
  stays : Stays q
  paced : B.Level ∨ Forward p ∧ Forward q

theorem Parts.paces {B : Bond} {R : α → β → Prop} {p : Parser α} {q : Parser β} (parts : Parts B R p q)
    {turn : Parser (Reader.Turn γ)} {turn' : Parser (Reader.Turn δ)} (first : Forward p → Advances turn)
    (second : Forward q → Advances turn') : B.Level ∨ Advances turn ∧ Advances turn' :=
  parts.paced.imp_right fun both => ⟨first both.1, second both.2⟩

theorem leftError {result : Except Failure (α × List Token)} {f : Failure} (failed : left result = .error f) :
    result = .error f := exceptMapError.mp failed

theorem lostOk {result : Except Failure (α × List Token)}
    (each : ∀ a rest, result = .ok (a, rest) → headKind rest = .arrow) : Lost (left result) := by
  intro rest ok
  cases result with
  | error f => cases ok
  | ok found =>
    cases ok
    exact each found.1 found.2 rfl

theorem lostRest {result : Except Failure (α × List Token)} (lost : Lost (left result)) {a : α}
    {rest : List Token} (ok : result = .ok (a, rest)) : headKind rest = .arrow :=
  lost rest (by rw [ok]; rfl)

namespace Stays

theorem pure (a : α) : Stays (pure a : Parser α) := by
  rintro s arrow _ ⟨⟩
  exact arrow

theorem fail (cause : Cause) : Stays (fail cause : Parser α) := fun _ _ _ ok => (nomatch ok)

theorem bind {p : Parser α} {f : α → Parser β} (first : Stays p) (next : ∀ a, Stays (f a)) :
    Stays (p >>= f) := by
  refine fun s arrow => lostOk fun b rest ok => ?_
  obtain ⟨a, middle, head, tail⟩ := Reader.bindOk.mp ok
  exact lostRest (next a middle (lostRest (first s arrow) head)) tail

theorem nextKind {f : Kind → Parser α} (next : Stays (f .arrow)) : Stays (nextKind >>= f) := by
  intro s arrow
  rw [bindStep (nextKindApply s), arrow]
  exact next s arrow

theorem peek {f : Option Token → Parser α} (next : ∀ t, t.kind = .arrow → Stays (f (some t))) :
    Stays (Reader.peek >>= f) := by
  intro s arrow
  obtain ⟨t, more, rfl, kind⟩ := headKindSome arrow (by decide)
  exact next t kind _ arrow

theorem ahead {f : List Token → Parser α} (next : ∀ t more, t.kind = .arrow → Stays (f (t :: more))) :
    Stays (Reader.ahead >>= f) := by
  intro s arrow
  obtain ⟨t, more, rfl, kind⟩ := headKindSome arrow (by decide)
  exact next t more kind _ arrow

theorem take {k : Kind} (other : k ≠ .arrow) {f : Bool → Parser α} (next : Stays (f false)) :
    Stays (take k >>= f) := by
  intro s arrow
  have none : Parse.take k s = .ok (false, s) := by
    rw [takeApply, if_neg (arrow ▸ other.symm)]
  rw [bindStep none]
  exact next s arrow

theorem expectAs {k : Kind} (other : k ≠ .arrow) (what : String) : Stays (expectAs k what) := by
  refine fun s arrow => lostOk fun t rest ok => ?_
  obtain ⟨rfl, kind⟩ := expectAsOk.mp ok
  exact absurd (kind.symm.trans arrow) other

theorem skipNewlines : Stays skipNewlines := by
  intro s arrow
  have same : Parse.skipNewlines ([] ++ s) = .ok ((), s) :=
    skipNewlinesAppend (List.forall_mem_nil _) (arrow ▸ by decide)
  rw [List.nil_append] at same
  rw [same]
  rintro _ ⟨⟩
  exact arrow

theorem collect {turn : Parser (Reader.Turn α)} (stays : Stays turn) : Stays (Reader.collect turn) := by
  refine fun s arrow => lostOk fun as rest ok => ?_
  have turns := Reader.collectIff.mp ok
  clear ok
  induction turns with
  | stop head => exact lostRest (stays _ arrow) head
  | last head => exact lostRest (stays _ arrow) head
  | more head _ _ ih => exact ih (lostRest (stays _ arrow) head)
  | stuck head => exact lostRest (stays _ arrow) head

theorem collectAfter {turn : Parser (Reader.Turn α)} (stays : Stays turn) {s rest : List Token}
    {step : Reader.Turn α} (head : turn s = .ok (step, rest)) (arrow : headKind rest = .arrow) :
    Lost (left (Reader.collectFrom turn s)) := by
  refine lostOk fun as final ok => ?_
  cases Reader.repeatsOfCollectFrom ok with
  | stop again =>
    cases head.symm.trans again
    exact arrow
  | last again =>
    cases head.symm.trans again
    exact arrow
  | more again _ tail =>
    cases head.symm.trans again
    exact lostRest (stays.collect rest arrow) (Reader.collectIff.mpr tail)
  | stuck again =>
    cases head.symm.trans again
    exact arrow

end Stays

section Stays
variable {expr operand : Parser Node}

theorem suffixTurnStays : Stays (suffixTurn expr) := .nextKind (.pure _)

theorem linkTurnStays {least : Int} : Stays (linkTurn operand least) := by
  refine .peek fun t arrow => ?_
  simp only [arrow]
  exact .pure _

theorem propertyTurnStays : Stays (propertyTurn expr) := by
  have property : Stays (property expr) := by
    refine .peek fun t arrow => ?_
    simp only [arrow]
    exact .fail _
  exact .nextKind (.bind property fun _ => .bind .skipNewlines fun _ => .take (by decide) (.pure _))

theorem commaTurnStays {item : Parser α} (stays : Stays item) {closing : Kind} (other : closing ≠ .arrow) :
    Stays (commaTurn closing item) := by
  refine .nextKind ?_
  rw [if_neg other.symm]
  exact .bind stays fun _ => .take (by decide) (.pure _)

theorem statementTurnStays (stays : Stays expr) : Stays (statementTurn expr) := by
  have statement : Stays (statement expr) := by
    refine .ahead fun t more arrow => ?_
    cases more with
    | nil => exact stays
    | cons next more =>
      simp only [arrow]
      exact stays
  exact .nextKind (.bind statement fun _ => .nextKind (.fail _))

theorem primaryStays : Stays (primary expr) := by
  refine .ahead fun t more arrow => ?_
  simp only [arrow]
  exact .fail _

theorem signedStays : Stays (signed operand expr) := by
  refine .peek fun t arrow => ?_
  simp only [arrow]
  exact .bind primaryStays fun _ => .bind suffixTurnStays.collect fun _ => .pure _

theorem choiceStays (stays : Stays operand) : Stays (choice operand expr) :=
  .bind (.bind stays fun _ => .bind linkTurnStays.collect fun _ => .pure _) fun _ => .take (by decide) (.pure _)

theorem budgetStays (depth : Nat) : Stays (expression depth) ∧ Stays (unary depth) := by
  induction depth with
  | zero => exact ⟨.fail _, .fail _⟩
  | succ depth ih => exact ⟨choiceStays ih.2, signedStays⟩

end Stays

variable {B : Bond} [laws : B.Lawful]

namespace Ties

variable {R : α → β → Prop} {S : γ → δ → Prop}

omit laws in
theorem anywhere {p : Parser α} {q : Parser β} (ties : Ties B R p q) (k : Kind) : TiesAt k B R p q :=
  fun s s' tied _ => ties s s' tied

omit laws in
theorem pure {a : α} {b : β} (value : R a b) : Ties B R (Pure.pure a) (Pure.pure b) :=
  fun _ _ tied => .ok value tied

theorem fail {cause : Cause} : Ties B R (fail cause) (fail cause) :=
  fun _ _ tied => .failed (laws.fail cause tied)

theorem unexpected {what : String} : Ties B R (unexpected what) (unexpected what) := fail

theorem bind {p : Parser α} {q : Parser β} {f : α → Parser γ} {g : β → Parser δ} (first : Ties B R p q)
    (next : ∀ a b, R a b → Ties B S (f a) (g b)) (stays : ∀ b, Stays (g b)) :
    Ties B S (p >>= f) (q >>= g) := by
  intro s s' tied
  show Outcome B S (Reader.bind p f s) (Reader.bind q g s')
  unfold Reader.bind
  have outcome := first s s' tied
  generalize p s = result, q s' = result' at outcome ⊢
  cases outcome with
  | ok value tied => exact next _ _ value _ _ tied
  | failed fails =>
    refine .failed ?_
    cases result' with
    | error g => exact fails
    | ok found => exact laws.lost fails fun arrow => stays _ _ arrow

omit laws in
theorem after {p : Parser α} {q : Parser β} {f : α → Parser γ} {g : β → Parser δ} (first : Ties B.sure R p q)
    (next : ∀ a b, R a b → Ties B S (f a) (g b)) : Ties B S (p >>= f) (q >>= g) := by
  intro s s' tied
  show Outcome B S (Reader.bind p f s) (Reader.bind q g s')
  unfold Reader.bind
  have outcome := first s s' tied
  generalize p s = result, q s' = result' at outcome ⊢
  cases outcome with
  | ok value tied => exact next _ _ value _ _ tied
  | failed fails =>
    obtain ⟨fails, g, failed⟩ := fails
    cases result' with
    | error g => exact .failed fails
    | ok found => cases failed

omit laws in
theorem step {p q : Parser α} {f : α → Parser γ} {g : α → Parser δ} (first : Ties B.sure Eq p q)
    (next : ∀ a, Ties B S (f a) (g a)) : Ties B S (p >>= f) (q >>= g) :=
  after first fun a _ same => same ▸ next a

omit laws in
theorem ite {c d : Prop} [Decidable c] [Decidable d] (same : c ↔ d) {p p' : Parser α} {q q' : Parser β}
    (yes : Ties B R p q) (no : Ties B R p' q') : Ties B R (if c then p else p') (if d then q else q') := by
  by_cases holds : c
  · rw [if_pos holds, if_pos (same.mp holds)]
    exact yes
  · rw [if_neg holds, if_neg (mt same.mpr holds)]
    exact no

theorem skipNewlines : Ties B Eq skipNewlines skipNewlines := fun _ _ tied => .ok rfl (laws.skip tied)

theorem nextKind : Ties B Eq nextKind nextKind := fun _ _ tied => .ok (laws.head tied) tied

theorem branch {f : Kind → Parser α} {g : Kind → Parser β} (next : ∀ k, TiesAt k B R (f k) (g k)) :
    Ties B R (Parse.nextKind >>= f) (Parse.nextKind >>= g) := by
  intro s s' tied
  rw [bindStep (nextKindApply s), bindStep (nextKindApply s'), ← laws.head tied]
  exact next _ s s' tied rfl

/- A decision by the next token. Of two newlines nothing is known but that they are newlines. -/
theorem peek {f : Option Token → Parser α} {g : Option Token → Parser β} (none : Ties B R (f none) (g none))
    (newline : ∀ t u, t.kind = .newline → u.kind = .newline → Ties B R (f (some t)) (g (some u)))
    (word : ∀ t u, B.words t u → t.kind ≠ .newline → TiesAt t.kind B R (f (some t)) (g (some u))) :
    Ties B R (Reader.peek >>= f) (Reader.peek >>= g) := by
  intro s s' tied
  rw [bindStep (peekApply s), bindStep (peekApply s')]
  cases s with
  | nil =>
    obtain rfl := laws.nil tied
    exact none [] [] tied
  | cons t rest =>
    by_cases kind : t.kind = .newline
    · obtain ⟨u, rest', rfl, kind'⟩ := headKindSome ((laws.head tied).symm.trans kind) (by decide)
      exact newline t u kind kind' _ _ tied
    · obtain ⟨u, rest', rfl, same, _⟩ := laws.uncons tied kind
      exact word t u same kind _ _ tied rfl

end Ties

namespace TiesAt

variable {R : α → β → Prop} {k : Kind}

theorem drop (word : k ≠ .newline) {f : Unit → Parser α} {g : Unit → Parser β} (next : Ties B R (f ()) (g ())) :
    TiesAt k B R (Reader.drop >>= f) (Reader.drop >>= g) := by
  intro s s' tied head
  rw [bindStep (dropApply s), bindStep (dropApply s')]
  cases s with
  | nil =>
    obtain rfl := laws.nil tied
    exact next [] [] tied
  | cons t rest =>
    obtain ⟨u, rest', rfl, _, tied⟩ := laws.uncons tied (fun newline => word (head.symm.trans newline))
    exact next rest rest' tied

theorem fail {cause : Cause} : TiesAt k B R (fail cause) (fail cause) := Ties.fail.anywhere k

theorem unexpected {what : String} : TiesAt k B R (unexpected what) (unexpected what) := fail

omit laws in
theorem ite {c d : Prop} [Decidable c] [Decidable d] (same : c ↔ d) {p p' : Parser α} {q q' : Parser β}
    (yes : TiesAt k B R p q) (no : TiesAt k B R p' q') :
    TiesAt k B R (if c then p else p') (if d then q else q') := by
  by_cases holds : c
  · rw [if_pos holds, if_pos (same.mp holds)]
    exact yes
  · rw [if_neg holds, if_neg (mt same.mpr holds)]
    exact no

end TiesAt

namespace Ties

variable {R : α → β → Prop}

theorem take {kind : Kind} (word : kind ≠ .newline) : Ties B Eq (take kind) (take kind) := by
  refine .branch fun k => ?_
  by_cases same : k = kind
  · rw [if_pos same]
    exact .drop (same ▸ word) (.pure rfl)
  · rw [if_neg same]
    exact (Ties.pure rfl).anywhere k

theorem expectAs {kind : Kind} (word : kind ≠ .newline) (what : String) :
    Ties B B.words (expectAs kind what) (expectAs kind what) := by
  refine .peek .fail (fun t u newline newline' => ?_) fun t u same notNewline => ?_
  · simp only [newline, newline', if_neg word.symm]
    exact .fail
  · exact .ite (by rw [laws.kind same]) (.drop notNewline (.pure same)) .fail

theorem expect {kind : Kind} (word : kind ≠ .newline) : Ties B B.words (expect kind) (expect kind) :=
  expectAs word kind.label

theorem collectFrom {turn : Parser (Reader.Turn α)} {turn' : Parser (Reader.Turn β)}
    (ties : Ties B (TurnTied R) turn turn') (stays : Stays turn')
    (paced : B.Level ∨ Advances turn ∧ Advances turn') {s s' : List Token} (tied : B.tokens s s') :
    Outcome B (List.Forall₂ R) (Reader.collectFrom turn s) (Reader.collectFrom turn' s') := by
  have outcome := ties s s' tied
  generalize head : turn s = result, head' : turn' s' = result' at outcome
  cases outcome with
  | @failed f result' fails =>
    rw [Reader.collectFrom, head]
    refine .failed ?_
    cases result' with
    | error g =>
      rw [Reader.collectFrom, head']
      exact fails
    | ok found => exact laws.lost fails fun arrow => stays.collectAfter head' arrow
  | @ok a b rest rest' value tied' =>
    rw [Reader.collectFrom, Reader.collectFrom, head, head']
    cases value with
    | stop => exact .ok .nil tied'
    | last value => exact .ok (.cons value .nil) tied'
    | more value =>
      have together : rest.length < s.length ↔ rest'.length < s'.length := by
        rcases paced with level | ⟨advances, advances'⟩
        · rw [level _ _ tied, level _ _ tied']
        · exact iff_of_true (advances _ _ _ head) (advances' _ _ _ head')
      by_cases shorter : rest.length < s.length
      · simp only [if_pos shorter, if_pos (together.mp shorter)]
        have outcome := collectFrom ties stays paced tied'
        generalize Reader.collectFrom turn rest = result, Reader.collectFrom turn' rest' = result' at outcome ⊢
        cases outcome with
        | ok values final => exact .ok (.cons value values) final
        | failed fails =>
          refine .failed ?_
          cases result' with
          | error g => exact fails
          | ok found => exact fails
      · simp only [if_neg shorter, if_neg (mt together.mpr shorter)]
        exact .ok (.cons value .nil) tied'
termination_by s.length

theorem collect {turn : Parser (Reader.Turn α)} {turn' : Parser (Reader.Turn β)}
    (ties : Ties B (TurnTied R) turn turn') (stays : Stays turn')
    (paced : B.Level ∨ Advances turn ∧ Advances turn') :
    Ties B (List.Forall₂ R) (Reader.collect turn) (Reader.collect turn') :=
  fun _ _ tied => collectFrom ties stays paced tied

end Ties

section Exact
variable {fails : Failure → Except Failure (List Token) → Prop}

def Bond.exact (fails : Failure → Except Failure (List Token) → Prop) : Bond := ⟨Eq, Eq, fails⟩

theorem exactLawful (same : ∀ f, fails f (.error f))
    (lost : ∀ f s r, fails f (.ok s) → (headKind s = .arrow → Lost r) → fails f r) : (Bond.exact fails).Lawful where
  kind := congrArg Token.kind
  value := congrArg Token.value
  head := congrArg headKind
  nil := Eq.symm
  uncons tied _ := ⟨_, _, tied.symm, rfl, rfl⟩
  skip tied := congrArg _ tied
  ahead tied := congrArg _ tied
  fail cause tied := by
    cases tied
    exact same _
  invalidKey word tied := by
    cases word
    cases tied
    exact same _
  outOfRange word tied := by
    cases word
    cases tied
    exact same _
  lost := lost _ _ _

theorem exactLevel : (Bond.exact fails).Level := fun _ _ tied => congrArg List.length tied

end Exact

end Scriptlet.Parse
