import Mathlib.Data.List.Forall2
import Scriptlet.Reader

/-! What a repetition does, said without the function that computes it: the turns that `collect` takes,
and the results that `mapM` lines up with its items. Before that, where the outcome of a composed step
comes from. -/
namespace Scriptlet

namespace Reader

variable {σ ε α : Type}

inductive Repeats (turn : Reader σ ε (Turn α)) : List σ → List α → List σ → Prop where
  | stop {s rest} (head : turn s = .ok (.stop, rest)) : Repeats turn s [] rest
  | last {s a rest} (head : turn s = .ok (.last a, rest)) : Repeats turn s [a] rest
  | more {s a middle as rest} (head : turn s = .ok (.more a, middle))
      (shorter : middle.length < s.length) (tail : Repeats turn middle as rest) :
      Repeats turn s (a :: as) rest
  | stuck {s a rest} (head : turn s = .ok (.more a, rest)) (still : ¬ rest.length < s.length) :
      Repeats turn s [a] rest

theorem repeatsOfCollectFrom {turn : Reader σ ε (Turn α)} {s rest : List σ} {as : List α}
    (ok : collectFrom turn s = .ok (as, rest)) : Repeats turn s as rest := by
  fun_induction collectFrom turn s generalizing as rest with
  | case1 s e head => cases ok
  | case2 s after head => cases ok; exact .stop head
  | case3 s a after head => cases ok; exact .last head
  | case4 s a middle head shorter e tail => cases ok
  | case5 s a middle head shorter more final tail ih =>
    cases ok
    exact .more head shorter (ih tail)
  | case6 s a after head still => cases ok; exact .stuck head still

theorem collectFromOfRepeats {turn : Reader σ ε (Turn α)} {s rest : List σ} {as : List α}
    (turns : Repeats turn s as rest) : collectFrom turn s = .ok (as, rest) := by
  induction turns with
  | stop head => rw [collectFrom, head]
  | last head => rw [collectFrom, head]
  | more head shorter tail ih => rw [collectFrom, head]; simp [shorter, ih]
  | stuck head still => rw [collectFrom, head]; simp [still]

theorem collectIff {turn : Reader σ ε (Turn α)} {s rest : List σ} {as : List α} :
    collect turn s = .ok (as, rest) ↔ Repeats turn s as rest :=
  ⟨repeatsOfCollectFrom, collectFromOfRepeats⟩

inductive Turns (turn : Reader σ ε (Turn α)) : List σ → List α → List σ → Prop where
  | none {s} : Turns turn s [] s
  | more {s a middle as rest} (head : turn s = .ok (.more a, middle))
      (shorter : middle.length < s.length) (tail : Turns turn middle as rest) : Turns turn s (a :: as) rest

theorem collectError {turn : Reader σ ε (Turn α)} {s : List σ} {e : ε} :
    collect turn s = .error e ↔ ∃ as middle, Turns turn s as middle ∧ turn middle = .error e := by
  constructor
  · intro failed
    unfold collect at failed
    fun_induction collectFrom turn s with
    | case1 s e head =>
      cases failed
      exact ⟨[], s, .none, head⟩
    | case2 => cases failed
    | case3 => cases failed
    | case4 s a middle head shorter e tail ih =>
      cases failed
      obtain ⟨as, last, turns, fails⟩ := ih tail
      exact ⟨a :: as, last, .more head shorter turns, fails⟩
    | case5 => cases failed
    | case6 => cases failed
  · intro ⟨as, middle, turns, fails⟩
    unfold collect
    induction turns with
    | none => rw [collectFrom, fails]
    | more head shorter _ ih =>
      rw [collectFrom, head]
      simp only [if_pos shorter, ih fails]

end Reader

theorem exceptBindOk {ε α β : Type} {x : Except ε α} {f : α → Except ε β} {b : β} :
    (x >>= f) = .ok b ↔ ∃ a, x = .ok a ∧ f a = .ok b := by
  cases x with
  | error e => exact ⟨fun same => (nomatch same), fun ⟨_, same, _⟩ => (nomatch same)⟩
  | ok a => exact ⟨fun same => ⟨a, rfl, same⟩, fun ⟨_, same, tail⟩ => by cases same; exact tail⟩

theorem exceptBindError {ε α β : Type} {x : Except ε α} {f : α → Except ε β} {e : ε} :
    (x >>= f) = .error e ↔ x = .error e ∨ ∃ a, x = .ok a ∧ f a = .error e := by
  cases x with
  | error e' =>
    constructor
    · exact fun same => Or.inl (congrArg Except.error (Except.error.inj same))
    · rintro (same | ⟨_, same, _⟩)
      · exact congrArg Except.error (Except.error.inj same)
      · cases same
  | ok a =>
    constructor
    · exact fun same => Or.inr ⟨a, rfl, same⟩
    · rintro (same | ⟨_, same, tail⟩)
      · cases same
      · cases same
        exact tail

theorem okOfAny {ε α : Type} {x : Except ε α} {test : α → Bool} (any : x.toOption.any test = true) :
    ∃ a, x = .ok a ∧ test a = true := by
  cases x with
  | error e => cases any
  | ok a => exact ⟨a, rfl, any⟩

theorem okOfSome {ε α : Type} {x : Except ε α} (some : x.toOption.isSome = true) : ∃ a, x = .ok a := by
  cases x with
  | error e => cases some
  | ok a => exact ⟨a, rfl⟩

theorem exceptMapOk {ε α β : Type} {g : α → β} {x : Except ε α} {b : β} :
    g <$> x = .ok b ↔ ∃ a, x = .ok a ∧ g a = b := by
  cases x with
  | error e => simp [Functor.map, Except.map]
  | ok a => simp [Functor.map, Except.map]

theorem exceptMapError {ε α β : Type} {g : α → β} {x : Except ε α} {e : ε} :
    g <$> x = .error e ↔ x = .error e := by
  cases x with
  | error e' => simp [Functor.map, Except.map]
  | ok a => simp [Functor.map, Except.map]

theorem mapErrorOk {ε ε' α : Type} {g : ε → ε'} {x : Except ε α} {a : α} :
    x.mapError g = .ok a ↔ x = .ok a := by
  cases x with
  | error e => simp [Except.mapError]
  | ok a => simp [Except.mapError]

theorem mapErrorError {ε ε' α : Type} {g : ε → ε'} {x : Except ε α} {e : ε'} :
    x.mapError g = .error e ↔ ∃ e', x = .error e' ∧ g e' = e := by
  cases x with
  | error e => simp [Except.mapError]
  | ok a => simp [Except.mapError]

theorem mapMOk {ε α β : Type} {f : α → Except ε β} {items : List α} {results : List β} :
    items.mapM f = .ok results ↔ List.Forall₂ (fun a b => f a = .ok b) items results := by
  induction items generalizing results with
  | nil =>
    rw [List.mapM_nil, List.forall₂_nil_left_iff]
    exact ⟨fun same => (Except.ok.inj same).symm, fun same => same ▸ rfl⟩
  | cons a more ih =>
    rw [List.mapM_cons, exceptBindOk]
    constructor
    · rintro ⟨b, head, same⟩
      obtain ⟨bs, tail, same⟩ := exceptBindOk.mp same
      cases same
      exact .cons head (ih.mp tail)
    · intro both
      cases both with
      | cons head tail => exact ⟨_, head, exceptBindOk.mpr ⟨_, ih.mpr tail, rfl⟩⟩

theorem mapMTarget {ε α β : Type} {f : α → Except ε β} {items : List α} {results : List β}
    (ok : items.mapM f = .ok results) {a : α} (member : a ∈ items) : ∃ b ∈ results, f a = .ok b := by
  have pairs := mapMOk.mp ok
  clear ok
  induction pairs with
  | nil => cases member
  | cons head _ ih =>
    rcases List.mem_cons.mp member with rfl | later
    · exact ⟨_, List.mem_cons_self, head⟩
    · obtain ⟨b, inside, same⟩ := ih later
      exact ⟨b, List.mem_cons_of_mem _ inside, same⟩

theorem mapMResult {ε α β : Type} {f : α → Except ε β} {items : List α} {results : List β}
    (ok : items.mapM f = .ok results) {a : α} (member : a ∈ items) : ∃ b, f a = .ok b := by
  obtain ⟨b, _, same⟩ := mapMTarget ok member
  exact ⟨b, same⟩

theorem mapMSource {ε α β : Type} {f : α → Except ε β} {items : List α} {results : List β}
    (ok : items.mapM f = .ok results) {b : β} (member : b ∈ results) : ∃ a ∈ items, f a = .ok b := by
  have pairs := mapMOk.mp ok
  clear ok
  induction pairs with
  | nil => cases member
  | cons head _ ih =>
    rcases List.mem_cons.mp member with rfl | later
    · exact ⟨_, List.mem_cons_self, head⟩
    · obtain ⟨a, inside, same⟩ := ih later
      exact ⟨a, List.mem_cons_of_mem _ inside, same⟩

theorem mapMTotal {ε α β : Type} {f : α → Except ε β} {items : List α}
    (each : ∀ a ∈ items, ∃ b, f a = .ok b) : ∃ results, items.mapM f = .ok results := by
  induction items with
  | nil => exact ⟨[], rfl⟩
  | cons a more ih =>
    obtain ⟨⟨b, head⟩, rest⟩ := List.forall_mem_cons.mp each
    obtain ⟨bs, tail⟩ := ih rest
    exact ⟨b :: bs, mapMOk.mpr (.cons head (mapMOk.mp tail))⟩

theorem mapMError {ε α β : Type} {f : α → Except ε β} {items : List α} {e : ε}
    (failed : items.mapM f = .error e) : ∃ a ∈ items, f a = .error e := by
  induction items with
  | nil => cases failed
  | cons a more ih =>
    rw [List.mapM_cons, exceptBindError] at failed
    rcases failed with head | ⟨b, _, later⟩
    · exact ⟨a, List.mem_cons_self, head⟩
    · rcases exceptBindError.mp later with tail | ⟨_, _, same⟩
      · obtain ⟨found, member, error⟩ := ih tail
        exact ⟨found, List.mem_cons_of_mem _ member, error⟩
      · cases same

end Scriptlet
