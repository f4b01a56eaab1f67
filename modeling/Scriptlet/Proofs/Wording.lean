import Scriptlet.Proofs.Unplaced

/-! Parsers go by what tokens say and not by where they stand. Two lists of tokens that say the same are
read as the same tree, or refused with the same complaint at the same token. -/
namespace Scriptlet

structure Token.Alike (t u : Token) : Prop where
  kind : t.kind = u.kind
  value : t.value = u.value
  raw : t.raw = u.raw

theorem Token.Alike.describe {t u : Token} (alike : t.Alike u) : t.describe = u.describe := by
  simp only [Token.describe, alike.kind, alike.raw]

namespace Parse
open Token (Kind)

def AllAlike (s s' : List Token) : Prop := List.Forall₂ Token.Alike s s'

theorem AllAlike.kinds {s s' : List Token} (alike : AllAlike s s') : s.map Token.kind = s'.map Token.kind := by
  induction alike with
  | nil => rfl
  | cons head _ ih => rw [List.map_cons, List.map_cons, head.kind, ih]

inductive Cause.Alike : Cause → Cause → Prop where
  | same (cause : Cause) : Alike cause cause
  | outOfRange {t u} (token : t.Alike u) : Alike (.outOfRange t) (.outOfRange u)

structure Failure.Alike (f g : Failure) : Prop where
  cause : f.cause.Alike g.cause
  rest : AllAlike f.rest g.rest

theorem headOfKinds {s s' : List Token} (same : s.map Token.kind = s'.map Token.kind) :
    headKind s = headKind s' := by
  cases s with
  | nil => rw [List.map_eq_nil_iff.mp same.symm]
  | cons t rest =>
    cases s' with
    | nil => cases same
    | cons u rest' => exact (List.cons.inj same).1

theorem aheadOfKinds {s s' : List Token} (same : s.map Token.kind = s'.map Token.kind) (depth : Nat) :
    arrowAhead depth s = arrowAhead depth s' := by
  induction s generalizing s' depth with
  | nil => rw [List.map_eq_nil_iff.mp same.symm]
  | cons t rest ih =>
    cases s' with
    | nil => cases same
    | cons u rest' =>
      obtain ⟨kind, others⟩ := List.cons.inj same
      unfold arrowAhead
      rw [kind]
      split
      · exact ih others _
      · split
        · rw [arrowNext, arrowNext, headOfKinds others]
        · exact ih others _
      · exact ih others _

theorem skipAlike {s s' : List Token} (alike : AllAlike s s') :
    AllAlike (s.dropWhile (·.kind = .newline)) (s'.dropWhile (·.kind = .newline)) := by
  induction alike with
  | nil => exact .nil
  | @cons t u s s' head tail ih =>
    by_cases newline : t.kind = .newline
    · rw [List.dropWhile_cons_of_pos (by simpa using newline),
        List.dropWhile_cons_of_pos (by simpa [← head.kind] using newline)]
      exact ih
    · rw [List.dropWhile_cons_of_neg (by simpa using newline),
        List.dropWhile_cons_of_neg (by simpa [← head.kind] using newline)]
      exact .cons head tail

def Bond.wording : Bond := ⟨Token.Alike, AllAlike, fun f r => ∃ g, r = .error g ∧ f.Alike g⟩

instance : Bond.wording.Lawful where
  kind := Token.Alike.kind
  value := Token.Alike.value
  head tied := headOfKinds (AllAlike.kinds tied)
  nil tied := by
    cases tied
    rfl
  uncons tied _ := by
    cases tied with
    | cons head tail => exact ⟨_, _, rfl, head, tail⟩
  skip := skipAlike
  ahead tied := aheadOfKinds (AllAlike.kinds tied) 0
  fail cause tied := ⟨_, rfl, .same cause, tied⟩
  invalidKey word tied := ⟨_, rfl, word.raw ▸ .same _, tied⟩
  outOfRange word tied := ⟨_, rfl, .outOfRange word, tied⟩
  lost := by
    rintro _ _ _ ⟨_, none, _⟩
    cases none

theorem wordingTells : Bond.wording.Tells .wording := by
  refine ⟨rfl, ?_⟩
  rintro ⟨cause, rest⟩ _ ⟨⟨cause', rest'⟩, rfl, same, left⟩
  refine ⟨_, rfl, ?_⟩
  cases same with
  | outOfRange token => exact ⟨.outOfRange token, left⟩
  | same => cases cause with
    | exhausted => exact ⟨.same _, left⟩
    | _ => exact ⟨.same _, left⟩

theorem programEchoes (depth : Nat) : Ties .wording Twin (program depth) (program depth) :=
  programTies wordingTells twinCongruent depth

theorem Failure.Alike.found {f g : Failure} (alike : f.Alike g) {stop stop' : Token} (ends : stop.Alike stop') :
    (f.found stop).Alike (g.found stop') := by
  obtain ⟨cause, rest⟩ := f
  obtain ⟨cause', rest'⟩ := g
  obtain ⟨same, left⟩ := alike
  have next : (rest.head?.getD stop).Alike (rest'.head?.getD stop') := by
    cases left with
    | nil => exact ends
    | cons head _ => exact head
  cases same with
  | outOfRange token => exact token
  | same => cases cause with
    | outOfRange token => exact ⟨rfl, rfl, rfl⟩
    | _ => exact next

theorem Cause.Alike.message {cause cause' : Cause} (alike : cause.Alike cause') {t u : Token} (found : t.Alike u) :
    cause.message t = cause'.message u := by
  cases alike with
  | outOfRange _ => rfl
  | same =>
    unfold Cause.message
    rw [found.kind, found.describe]

theorem Cause.Alike.expected {cause cause' : Cause} (alike : cause.Alike cause') :
    cause.expected? = cause'.expected? := by
  cases alike with
  | outOfRange _ => rfl
  | same => rfl

structure Error.Alike (e e' : Error) : Prop where
  cause : e.cause.Alike e'.cause
  text : e.diagnostic.text = e'.diagnostic.text
  found : e.found.describe = e'.found.describe
  expected : e.cause.expected? = e'.cause.expected?

theorem Failure.Alike.error {f g : Failure} (alike : f.Alike g) {stop stop' : Token} (ends : stop.Alike stop')
    (source source' : String) : (f.toError source stop).Alike (g.toError source' stop') :=
  have found := alike.found ends
  ⟨alike.cause, alike.cause.message found, found.describe, alike.cause.expected⟩

end Parse

end Scriptlet
