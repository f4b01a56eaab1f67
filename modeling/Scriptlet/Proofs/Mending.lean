import Scriptlet.Proofs.Tails

/-! Parsers that can be helped on. Where such a parser complains about a token, it accepts what it has read and some
tokens that it is supplied with instead; and what it has accepted it accepts again in front of other tokens, if
these start in the same way or with a kind that may follow. -/
namespace Scriptlet.Parse
open Token (Kind)

variable {α β : Type}

def Cause.IsSyntax : Cause → Prop
  | .missing _ | .unexpected _ | .invalidKey _ => True
  | _ => False

def supplied (kind : Kind) : Token :=
  let text := String.ofList (kind.spelling?.getD ['x'])
  ⟨kind, text, text, 0, ⟨1, 1⟩⟩

def NoEnd (tokens : List Token) : Prop := ∀ t ∈ tokens, t.kind ≠ .eof

theorem NoEnd.append {a b : List Token} (first : NoEnd a) (second : NoEnd b) : NoEnd (a ++ b) := by
  intro t member
  rcases List.mem_append.mp member with member | member
  · exact first t member
  · exact second t member

theorem noEndNil : NoEnd [] := fun _ member => (nomatch member)

theorem noEndSupplied {kinds : List Kind} (none : .eof ∉ kinds) : NoEnd (kinds.map supplied) := by
  intro t member same
  obtain ⟨kind, listed, rfl⟩ := List.mem_map.mp member
  exact none (same ▸ listed)

/- What a parser does with some tokens and with tokens that start in the same way. It goes on in front of the kinds
in `exit`, and may be left as soon as one of those in `close` comes. Where it has read nothing yet, it is entered by a
kind in `entry`. -/
structure MendsAt (entry : List Kind) (exit : α → List Kind) (close : List Kind) (p : Parser α) (s : List Token) :
    Prop where
  ok : ∀ a rest, p s = .ok (a, rest) → ∃ used, s = used ++ rest ∧ (used = [] → exit a ⊆ entry) ∧
    ∀ rest', headKind rest' = headKind rest ∨ headKind rest' ∈ exit a → p (used ++ rest') = .ok (a, rest')
  error : ∀ f, p s = .error f → f.cause.IsSyntax → ∃ used fill, s = used ++ f.rest ∧ NoEnd fill ∧
    ∀ rest', headKind rest' ∈ close →
      (used = [] → headKind (fill ++ rest') ∈ entry) ∧ ∃ a, p (used ++ (fill ++ rest')) = .ok (a, rest')

def Completes (entry close : List Kind) (f : α → Parser β) : Prop :=
  ∃ fill, NoEnd fill ∧ ∀ rest', headKind rest' ∈ close →
    headKind (fill ++ rest') ∈ entry ∧ ∀ a, ∃ b, f a (fill ++ rest') = .ok (b, rest')

theorem Completes.nothing {entry close : List Kind} {f : α → Parser β} (inside : close ⊆ entry)
    (done : ∀ a rest', headKind rest' ∈ close → ∃ b, f a rest' = .ok (b, rest')) : Completes entry close f :=
  ⟨[], noEndNil, fun rest' follows => ⟨inside follows, fun a => done a rest' follows⟩⟩

theorem Completes.pure {entry close : List Kind} (inside : close ⊆ entry) (g : α → β) :
    Completes entry close fun a => (Pure.pure (g a) : Parser β) :=
  .nothing inside fun a _ _ => ⟨g a, rfl⟩

theorem Completes.kinds {entry close : List Kind} {f : α → Parser β} (kinds : List Kind) (none : .eof ∉ kinds)
    (start : ∀ rest', headKind (kinds.map supplied ++ rest') ∈ entry)
    (done : ∀ a rest', headKind rest' ∈ close → ∃ b, f a (kinds.map supplied ++ rest') = .ok (b, rest')) :
    Completes entry close f :=
  ⟨_, noEndSupplied none, fun rest' follows => ⟨start rest', fun a => done a rest' follows⟩⟩

theorem expectAsSupplied (kind : Kind) (what : String) (rest : List Token) :
    expectAs kind what (supplied kind :: rest) = .ok (supplied kind, rest) := expectAsOk.mpr ⟨rfl, rfl⟩

theorem Completes.closing {close : List Kind} {closing : Kind} (some : closing ≠ .eof) (what : String)
    (g : α → Token → β) :
    Completes [closing] close fun a => (do let t ← expectAs closing what; Pure.pure (g a t) : Parser β) := by
  refine .kinds [closing] (by simpa using some.symm) (fun _ => List.mem_singleton.mpr rfl) fun a rest' _ => ?_
  exact ⟨g a (supplied closing), bindStep (expectAsSupplied closing what rest')⟩

theorem headAgain {used rest rest' : List Token} {kinds : List Kind}
    (follows : used = [] → headKind rest' = headKind rest ∨ headKind rest' ∈ kinds) :
    headKind (used ++ rest') = headKind (used ++ rest) ∨ headKind (used ++ rest') ∈ kinds := by
  cases used with
  | nil => exact follows rfl
  | cons t used => exact Or.inl rfl

theorem otherHead {m s : List Token} {kinds : List Kind} {kind : Kind}
    (follows : headKind m = headKind s ∨ headKind m ∈ kinds) (here : headKind s ≠ kind) (other : kind ∉ kinds) :
    headKind m ≠ kind := by
  rcases follows with same | listed
  · exact same ▸ here
  · exact fun same => other (same ▸ listed)

namespace MendsAt

variable {entry close : List Kind} {exit : α → List Kind} {p q : Parser α} {s : List Token}

theorem widen {entry' : List Kind} (mends : MendsAt entry exit close p s) (wider : entry ⊆ entry') :
    MendsAt entry' exit close p s where
  ok a rest ok := by
    obtain ⟨used, split, nothing, again⟩ := mends.ok a rest ok
    exact ⟨used, split, fun empty => List.Subset.trans (nothing empty) wider, again⟩
  error f failed syn := by
    obtain ⟨used, fill, split, noEnd, again⟩ := mends.error f failed syn
    exact ⟨used, fill, split, noEnd, fun rest' follows =>
      ⟨fun empty => wider ((again rest' follows).1 empty), (again rest' follows).2⟩⟩

theorem narrow {exit' : α → List Kind} (mends : MendsAt entry exit close p s) (fewer : ∀ a, exit' a ⊆ exit a) :
    MendsAt entry exit' close p s where
  ok a rest ok := by
    obtain ⟨used, split, nothing, again⟩ := mends.ok a rest ok
    exact ⟨used, split, fun empty => List.Subset.trans (fewer a) (nothing empty), fun rest' follows =>
      again rest' (follows.imp_right fun listed => fewer a listed)⟩
  error := mends.error

theorem bind {mid : α → List Kind} {midClose : List Kind} {exit : β → List Kind} {f : α → Parser β}
    (first : MendsAt entry mid midClose p s)
    (next : ∀ a rest, p s = .ok (a, rest) → MendsAt (mid a) exit close (f a) rest)
    (completes : (∃ g, p s = .error g ∧ g.cause.IsSyntax) → Completes midClose close f) :
    MendsAt entry exit close (p >>= f) s where
  ok b rest ok := by
    obtain ⟨a, middle, head, tail⟩ := Reader.bindOk.mp ok
    obtain ⟨used, rfl, nothing, again⟩ := first.ok a middle head
    obtain ⟨used', rfl, nothing', again'⟩ := (next a middle head).ok b rest tail
    refine ⟨used ++ used', by rw [List.append_assoc], fun empty => ?_, fun rest' follows => ?_⟩
    · obtain ⟨rfl, rfl⟩ := List.append_eq_nil_iff.mp empty
      exact List.Subset.trans (nothing' rfl) (nothing rfl)
    · rw [List.append_assoc]
      have follows' := headAgain fun empty => follows.imp_right fun inside => nothing' empty inside
      exact Reader.bindOk.mpr ⟨a, _, again _ follows', again' rest' follows⟩
  error g failed syn := by
    rcases Reader.bindError.mp failed with head | ⟨a, middle, head, tail⟩
    · obtain ⟨used, fill, split, noEnd, again⟩ := first.error g head syn
      obtain ⟨fill', noEnd', done⟩ := completes ⟨g, head, syn⟩
      refine ⟨used, fill ++ fill', split, noEnd.append noEnd', fun rest' follows => ?_⟩
      obtain ⟨inside, ends⟩ := done rest' follows
      obtain ⟨enters, a, ok⟩ := again _ inside
      obtain ⟨b, ok'⟩ := ends a
      rw [List.append_assoc]
      exact ⟨enters, b, Reader.bindOk.mpr ⟨a, _, ok, ok'⟩⟩
    · obtain ⟨used, rfl, nothing, again⟩ := first.ok a middle head
      obtain ⟨used', fill, rfl, noEnd, again'⟩ := (next a middle head).error g tail syn
      refine ⟨used ++ used', fill, by rw [List.append_assoc], noEnd, fun rest' follows => ?_⟩
      obtain ⟨enters, b, ok⟩ := again' rest' follows
      refine ⟨fun empty => ?_, b, ?_⟩
      · obtain ⟨rfl, rfl⟩ := List.append_eq_nil_iff.mp empty
        exact nothing rfl (enters rfl)
      · rw [List.append_assoc]
        exact Reader.bindOk.mpr ⟨a, _, again _ (headAgain fun empty => Or.inr (enters empty)), ok⟩

theorem ofOk (result : α) (used : List Token) {rest : List Token} (split : s = used ++ rest)
    (ok : p s = .ok (result, rest)) (nothing : used = [] → exit result ⊆ entry)
    (again : ∀ rest', headKind rest' = headKind rest ∨ headKind rest' ∈ exit result →
      p (used ++ rest') = .ok (result, rest')) : MendsAt entry exit close p s where
  ok a rest' ok' := by
    cases ok.symm.trans ok'
    exact ⟨used, split, nothing, again⟩
  error f failed := by cases ok.symm.trans failed

theorem ofSilent {cause : Cause} {rest : List Token} (failed : p s = .error ⟨cause, rest⟩)
    (other : ¬ cause.IsSyntax) : MendsAt entry exit close p s where
  ok a rest' ok := by cases failed.symm.trans ok
  error f failed' syn := by
    cases failed.symm.trans failed'
    exact absurd syn other

theorem ofError {f : Failure} (failed : p s = .error f) (here : f.rest = s) (kinds : List Kind) (none : .eof ∉ kinds)
    (start : ∀ rest', headKind rest' ∈ close → headKind (kinds.map supplied ++ rest') ∈ entry)
    (done : ∀ rest', headKind rest' ∈ close → ∃ a, p (kinds.map supplied ++ rest') = .ok (a, rest')) :
    MendsAt entry exit close p s where
  ok a rest ok := by cases failed.symm.trans ok
  error g failed' _ := by
    cases failed.symm.trans failed'
    exact ⟨[], _, here.symm, noEndSupplied none, fun rest' follows =>
      ⟨fun _ => start rest' follows, done rest' follows⟩⟩

theorem pure (a : α) (inside : exit a ⊆ entry) : MendsAt entry exit close (Pure.pure a : Parser α) s :=
  .ofOk a [] rfl rfl (fun _ => inside) fun _ _ => rfl

theorem map {follow : List Kind} (mends : MendsAt entry (fun _ => follow) follow p s) (g : α → β) :
    MendsAt entry (fun _ => follow) follow (p >>= fun a => Pure.pure (g a)) s :=
  mends.bind (fun a _ _ => .pure (g a) fun _ member => member) fun _ => .pure (fun _ member => member) g

theorem expectAs (follow : List Kind) {kind : Kind} (some : kind ≠ .eof) (what : String)
    (enters : headKind s = kind ∨ kind ∈ entry) : MendsAt entry (fun _ => follow) follow (expectAs kind what) s := by
  by_cases head : headKind s = kind
  · obtain ⟨t, rest, rfl, same⟩ := headKindSome head some
    exact .ofOk t [t] rfl (expectAsOk.mpr ⟨rfl, same⟩) (fun no => (nomatch no)) fun _ _ => expectAsOk.mpr ⟨rfl, same⟩
  · have failed : Parse.expectAs kind what s = .error ⟨.missing what, s⟩ := by
      cases s with
      | nil => rfl
      | cons t rest => rw [expectAsApply, if_neg (headKindCons t rest ▸ head)]
    exact .ofError failed rfl [kind] (by simpa using some.symm) (fun _ _ => enters.resolve_left head) fun rest' _ =>
      ⟨_, expectAsSupplied kind what rest'⟩

theorem bindOk {mid : List Kind} {exit : β → List Kind} {f : α → Parser β} (used : List Token) {rest : List Token}
    {a : α} (ok : p s = .ok (a, rest)) (split : s = used ++ rest) (nothing : used = [] → mid ⊆ entry)
    (again : ∀ rest', headKind rest' = headKind rest ∨ headKind rest' ∈ mid → p (used ++ rest') = .ok (a, rest'))
    (next : MendsAt mid exit close (f a) rest) : MendsAt entry exit close (p >>= f) s := by
  have first : MendsAt entry (fun _ => mid) [] p s := .ofOk a used split ok nothing again
  refine first.bind (fun a' rest' ok' => ?_) fun ⟨_, failed, _⟩ => by cases ok.symm.trans failed
  cases ok.symm.trans ok'
  exact next

theorem skipNewlines {exit : β → List Kind} {f : Unit → Parser β} (follow : List Kind)
    (inside : headKind s = .newline ∨ follow ⊆ entry) (other : .newline ∉ follow)
    (next : ∀ s, MendsAt follow exit close (f ()) s) : MendsAt entry exit close (skipNewlines >>= f) s := by
  obtain ⟨newlines, rest, skip, all, split, stop⟩ := skipNewlinesSplit s
  refine .bindOk newlines skip split (fun empty => ?_) (fun rest' follows => skipNewlinesAppend all ?_) (next rest)
  · refine inside.resolve_left fun first => stop ?_
    rw [← first, split, empty, List.nil_append]
  · exact otherHead follows stop other

theorem take {exit : β → List Kind} {f : Bool → Parser β} (yes no : List Kind) {kind : Kind} (some : kind ≠ .eof)
    (inside : no ⊆ entry) (other : kind ∉ no) (next : ∀ s, MendsAt yes exit close (f true) s)
    (next' : ∀ s, MendsAt no exit close (f false) s) : MendsAt entry exit close (take kind >>= f) s := by
  by_cases head : headKind s = kind
  · obtain ⟨t, rest, rfl, same⟩ := headKindSome head some
    have taken (rest : List Token) : Parse.take kind (t :: rest) = .ok (true, rest) := by
      rw [takeApply, if_pos (headKindCons t rest ▸ same)]
      rfl
    exact .bindOk [t] (taken rest) rfl (fun no => (nomatch no)) (fun rest' _ => taken rest') (next rest)
  · have left {rest : List Token} (stop : headKind rest ≠ kind) : Parse.take kind rest = .ok (false, rest) := by
      rw [takeApply, if_neg stop]
    exact .bindOk [] (left head) rfl (fun _ => inside) (fun rest' follows => left (otherHead follows head other))
      (next' s)

theorem via (mends : MendsAt entry exit close q s) (here : p s = q s)
    (there : ∀ m, headKind m = headKind s ∨ headKind m ∈ entry → p m = q m) : MendsAt entry exit close p s where
  ok a rest ok := by
    obtain ⟨used, rfl, nothing, again⟩ := mends.ok a rest (here ▸ ok)
    refine ⟨used, rfl, nothing, fun rest' follows => ?_⟩
    rw [there _ (headAgain fun empty => follows.imp_right fun inside => nothing empty inside)]
    exact again rest' follows
  error f failed syn := by
    obtain ⟨used, fill, rfl, noEnd, again⟩ := mends.error f (here ▸ failed) syn
    refine ⟨used, fill, rfl, noEnd, fun rest' follows => ?_⟩
    obtain ⟨enters, a, ok⟩ := again rest' follows
    rw [there _ (headAgain fun empty => Or.inr (enters empty))]
    exact ⟨enters, a, ok⟩

theorem consBefore {entry' : List Kind} {t : Token} {rest : List Token} (fits : List Token → Prop)
    (mends : MendsAt entry' exit close q rest) (here : p (t :: rest) = q rest)
    (same : ∀ a left, q rest = .ok (a, left) → ∀ left', headKind left' = headKind left ∨ headKind left' ∈ exit a →
      fits left')
    (closes : ∀ left', headKind left' ∈ close → fits left')
    (there : ∀ m a left, q m = .ok (a, left) → fits left → p (t :: m) = .ok (a, left)) :
    MendsAt entry exit close p (t :: rest) where
  ok a left ok := by
    have ok := here ▸ ok
    obtain ⟨used, rfl, _, again⟩ := mends.ok a left ok
    exact ⟨t :: used, rfl, fun no => (nomatch no), fun left' follows =>
      there _ a left' (again left' follows) (same a left ok left' follows)⟩
  error f failed syn := by
    obtain ⟨used, fill, rfl, noEnd, again⟩ := mends.error f (here ▸ failed) syn
    refine ⟨t :: used, fill, rfl, noEnd, fun left' follows => ⟨fun no => (nomatch no), ?_⟩⟩
    obtain ⟨_, a, ok⟩ := again left' follows
    exact ⟨a, there _ a left' ok (closes left' follows)⟩

theorem viaFirst {t : Token} {rest : List Token} {kind : Kind} (mends : MendsAt [] exit close q (t :: rest))
    (follow : ∀ a, kind ∈ exit a) (follow' : kind ∈ close) (here : p (t :: rest) = q (t :: rest))
    (there : ∀ m a left, q (t :: m) = .ok (a, left) → p (t :: m) = .ok (a, left)) :
    MendsAt entry exit close p (t :: rest) where
  ok a left ok := by
    obtain ⟨used, split, nothing, again⟩ := mends.ok a left (here ▸ ok)
    cases used with
    | nil => exact absurd (nothing rfl (follow a)) List.not_mem_nil
    | cons first used =>
      obtain ⟨rfl, _⟩ := List.cons.inj split
      exact ⟨t :: used, split, fun no => (nomatch no), fun left' follows => there _ a left' (again left' follows)⟩
  error f failed syn := by
    obtain ⟨used, fill, split, noEnd, again⟩ := mends.error f (here ▸ failed) syn
    cases used with
    | nil => exact absurd ((again [supplied kind] follow').1 rfl) List.not_mem_nil
    | cons first used =>
      obtain ⟨rfl, _⟩ := List.cons.inj split
      refine ⟨t :: used, fill, split, noEnd, fun left' follows => ⟨fun no => (nomatch no), ?_⟩⟩
      obtain ⟨_, a, ok⟩ := again left' follows
      exact ⟨a, there _ a left' ok⟩

theorem cons {entry' : List Kind} {t : Token} {rest : List Token} (mends : MendsAt entry' exit close q rest)
    (there : ∀ m, p (t :: m) = q m) : MendsAt entry exit close p (t :: rest) :=
  mends.consBefore (fun _ => True) (there rest) (fun _ _ _ _ _ => trivial) (fun _ _ => trivial)
    fun m _ _ ok _ => (there m).trans ok

end MendsAt

def turnExit (more close : List Kind) : Reader.Turn α → List Kind
  | .more _ => more
  | .stop | .last _ => close

theorem turnExitSame (kinds : List Kind) (turn : Reader.Turn α) : turnExit kinds kinds turn = kinds := by
  cases turn <;> rfl

theorem MendsAt.stop {entry more close : List Kind} {closing : Kind} {turn : Parser (Reader.Turn α)} {s : List Token}
    (head : headKind s = closing) (inside : closing ∈ entry)
    (stops : ∀ s, headKind s = closing → turn s = .ok (.stop, s)) :
    MendsAt entry (turnExit more [closing]) close turn s := by
  refine .ofOk .stop [] rfl (stops s head) (fun _ => by simpa [turnExit] using inside) fun rest' follows => ?_
  rcases follows with same | listed
  · exact stops rest' (same.trans head)
  · exact stops rest' (List.mem_singleton.mp listed)

section Collect
variable {entry close : List Kind} {turn : Parser (Reader.Turn α)} {s rest middle : List Token} {as : List α}
variable (turns : ∀ s, MendsAt entry (turnExit entry close) close turn s) (inside : close ⊆ entry)
include turns inside

theorem repeatsAgain (repeats : Reader.Repeats turn s as rest) :
    ∃ used, s = used ++ rest ∧ ∀ rest', headKind rest' = headKind rest ∨ headKind rest' ∈ close →
      Reader.Repeats turn (used ++ rest') as rest' := by
  induction repeats with
  | stop head =>
    obtain ⟨used, split, _, again⟩ := (turns _).ok _ _ head
    exact ⟨used, split, fun rest' follows => .stop (again rest' follows)⟩
  | last head =>
    obtain ⟨used, split, _, again⟩ := (turns _).ok _ _ head
    exact ⟨used, split, fun rest' follows => .last (again rest' follows)⟩
  | more head shorter _ ih =>
    obtain ⟨used, rfl, _, again⟩ := (turns _).ok _ _ head
    obtain ⟨used', rfl, again'⟩ := ih
    refine ⟨used ++ used', by rw [List.append_assoc], fun rest' follows => ?_⟩
    have follows' : headKind (used' ++ rest') = headKind (used' ++ _) ∨ headKind (used' ++ rest') ∈ entry :=
      headAgain fun _ => follows.imp_right fun listed => inside listed
    rw [List.append_assoc]
    refine .more (again _ follows') ?_ (again' rest' follows)
    simp only [List.length_append] at shorter ⊢
    omega
  | @stuck s a rest head still =>
    obtain ⟨used, rfl, _, again⟩ := (turns _).ok _ _ head
    obtain rfl : used = [] := by
      rw [List.length_append] at still
      exact List.eq_nil_of_length_eq_zero (by omega)
    exact ⟨[], rfl, fun rest' follows =>
      .stuck (again rest' (follows.imp_right fun listed => inside listed)) (Nat.lt_irrefl _)⟩

variable (stops : ∀ rest', headKind rest' ∈ close → turn rest' = .ok (.stop, rest'))
include stops

omit inside in
theorem turnsMend (before : Reader.Turns turn s as middle) {f : Failure} (failed : turn middle = .error f)
    (syn : f.cause.IsSyntax) :
    ∃ used fill, s = used ++ f.rest ∧ NoEnd fill ∧ ∀ rest', headKind rest' ∈ close →
      (used = [] → headKind (fill ++ rest') ∈ entry) ∧
        ∃ as, Reader.Repeats turn (used ++ (fill ++ rest')) as rest' := by
  induction before with
  | none =>
    obtain ⟨used, fill, split, noEnd, again⟩ := (turns _).error f failed syn
    refine ⟨used, fill, split, noEnd, fun rest' follows => ?_⟩
    obtain ⟨enters, result, ok⟩ := again rest' follows
    refine ⟨enters, ?_⟩
    cases result with
    | stop => exact ⟨_, .stop ok⟩
    | last a => exact ⟨_, .last ok⟩
    | more a =>
      by_cases shorter : rest'.length < (used ++ (fill ++ rest')).length
      · exact ⟨_, .more ok shorter (.stop (stops rest' follows))⟩
      · exact ⟨_, .stuck ok shorter⟩
  | @more _ a _ _ _ head shorter _ ih =>
    obtain ⟨used, rfl, _, again⟩ := (turns _).ok _ _ head
    obtain ⟨used', fill, rfl, noEnd, again'⟩ := ih failed
    have some : used ≠ [] := by
      rintro rfl
      exact Nat.lt_irrefl _ shorter
    refine ⟨used ++ used', fill, by rw [List.append_assoc], noEnd, fun rest' follows => ?_⟩
    obtain ⟨enters, as, repeats⟩ := again' rest' follows
    refine ⟨fun empty => absurd (List.append_eq_nil_iff.mp empty).1 some, a :: as, ?_⟩
    rw [List.append_assoc]
    refine .more (again _ (headAgain fun empty => Or.inr (enters empty))) ?_ repeats
    have positive := List.length_pos_iff.mpr some
    simp only [List.length_append]
    omega

theorem MendsAt.collect : MendsAt entry (fun _ => close) close (Reader.collect turn) s where
  ok as rest ok := by
    obtain ⟨used, split, again⟩ := repeatsAgain turns inside (Reader.collectIff.mp ok)
    exact ⟨used, split, fun _ => inside, fun rest' follows => Reader.collectIff.mpr (again rest' follows)⟩
  error f failed syn := by
    obtain ⟨as, middle, before, fails⟩ := Reader.collectError.mp failed
    obtain ⟨used, fill, split, noEnd, again⟩ := turnsMend turns stops before fails syn
    refine ⟨used, fill, split, noEnd, fun rest' follows => ?_⟩
    obtain ⟨enters, as, repeats⟩ := again rest' follows
    exact ⟨enters, as, Reader.collectIff.mpr repeats⟩

end Collect

end Scriptlet.Parse
