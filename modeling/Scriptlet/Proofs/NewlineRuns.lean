import Scriptlet.Proofs.Wording

/-! Parsers see that there are newlines and not how many. Two lists of tokens that say the same once every
run of newlines is one newline are read as the same tree, or refused with an error of the same family. The
two runs stand at different tokens all the way, but never before different kinds of tokens. -/
namespace Scriptlet

def Token.said (t : Token) : Token.Kind × String := (t.kind, t.value)

theorem Token.saidKind {t u : Token} (said : t.said = u.said) : t.kind = u.kind := congrArg Prod.fst said

theorem Token.saidValue {t u : Token} (said : t.said = u.said) : t.value = u.value := congrArg Prod.snd said

namespace Parse
open Token (Kind)

def squeezed : List Token → List Token
  | [] => []
  | t :: rest => if t.kind = .newline ∧ headKind rest = .newline then squeezed rest else t :: squeezed rest

def SameLines (s s' : List Token) : Prop := (squeezed s).map Token.said = (squeezed s').map Token.said

theorem squeezedWord {t : Token} (word : t.kind ≠ .newline) (rest : List Token) :
    squeezed (t :: rest) = t :: squeezed rest := by
  rw [squeezed, if_neg fun both => word both.1]

theorem squeezedHead (s : List Token) : headKind (squeezed s) = headKind s := by
  induction s with
  | nil => rfl
  | cons t rest ih =>
    rw [squeezed]
    split
    · rename_i both
      rw [ih, both.2, headKindCons, both.1]
    · rfl

theorem squeezedAppend {stop : Token} (word : stop.kind ≠ .newline) (s : List Token) :
    squeezed (s ++ [stop]) = squeezed s ++ [stop] := by
  induction s with
  | nil => exact squeezedWord word []
  | cons t rest ih =>
    have head : headKind (rest ++ [stop]) = .newline ↔ headKind rest = .newline := by
      cases rest with
      | nil => exact ⟨fun same => absurd same word, fun same => (nomatch same)⟩
      | cons next more => rfl
    rw [List.cons_append, squeezed, squeezed, ih]
    simp only [head]
    split <;> rfl

theorem squeezedSkip (s : List Token) :
    squeezed (s.dropWhile (·.kind = .newline)) = (squeezed s).dropWhile (·.kind = .newline) := by
  induction s with
  | nil => rfl
  | cons t rest ih =>
    by_cases newline : t.kind = .newline
    · rw [List.dropWhile_cons_of_pos (by simpa using newline), ih, squeezed]
      split
      · rfl
      · rw [List.dropWhile_cons_of_pos (by simpa using newline)]
    · rw [List.dropWhile_cons_of_neg (by simpa using newline), squeezedWord newline,
        List.dropWhile_cons_of_neg (by simpa using newline)]

theorem squeezedSome (t : Token) (rest : List Token) : squeezed (t :: rest) ≠ [] := by
  induction rest generalizing t with
  | nil => simp [squeezed, headKind]
  | cons next more ih =>
    rw [squeezed]
    split
    · exact ih next
    · exact List.cons_ne_nil _ _

/- The search for an arrow passes over newlines, but an arrow after a newline is not next. -/
theorem arrowAheadSqueezed (depth : Nat) (s : List Token) : arrowAhead depth (squeezed s) = arrowAhead depth s := by
  induction s generalizing depth with
  | nil => rfl
  | cons t rest ih =>
    rw [squeezed]
    split
    · rename_i both
      rw [ih]
      simp [arrowAhead, both.1]
    · unfold arrowAhead
      split
      · exact ih _
      · split
        · rw [arrowNext, arrowNext, squeezedHead]
        · exact ih _
      · exact ih _

theorem saidKinds {s s' : List Token} (said : s.map Token.said = s'.map Token.said) :
    s.map Token.kind = s'.map Token.kind := by
  have kinds := congrArg (List.map Prod.fst) said
  rwa [List.map_map, List.map_map] at kinds

namespace SameLines

variable {s s' : List Token}

theorem headKind (lines : SameLines s s') : headKind s = headKind s' := by
  rw [← squeezedHead s, ← squeezedHead s', headOfKinds (saidKinds lines)]

theorem arrowAhead (lines : SameLines s s') (depth : Nat) : arrowAhead depth s = arrowAhead depth s' := by
  rw [← arrowAheadSqueezed depth s, ← arrowAheadSqueezed depth s', aheadOfKinds (saidKinds lines)]

theorem nil (lines : SameLines [] s') : s' = [] := by
  cases s' with
  | nil => rfl
  | cons t rest => exact absurd (List.map_eq_nil_iff.mp lines.symm) (squeezedSome t rest)

theorem uncons {t : Token} {rest : List Token} (lines : SameLines (t :: rest) s') (word : t.kind ≠ .newline) :
    ∃ u rest', s' = u :: rest' ∧ t.said = u.said ∧ SameLines rest rest' := by
  cases s' with
  | nil =>
    unfold SameLines at lines
    rw [squeezedWord word] at lines
    cases lines
  | cons u rest' =>
    have kind : t.kind = u.kind := lines.headKind
    unfold SameLines at lines
    rw [squeezedWord word, squeezedWord (kind ▸ word), List.map_cons, List.map_cons] at lines
    obtain ⟨first, rest⟩ := List.cons.inj lines
    exact ⟨u, rest', rfl, first, rest⟩

theorem skip (lines : SameLines s s') :
    SameLines (s.dropWhile (·.kind = .newline)) (s'.dropWhile (·.kind = .newline)) := by
  have through : ∀ a : List Token, (a.dropWhile (·.kind = .newline)).map Token.said =
      (a.map Token.said).dropWhile (·.1 = .newline) := by
    intro a
    rw [List.dropWhile_map]
    rfl
  unfold SameLines at lines ⊢
  rw [squeezedSkip, squeezedSkip, through, through, lines]

theorem cons {t u : Token} (said : t.said = u.said) (lines : SameLines s s') : SameLines (t :: s) (u :: s') := by
  unfold SameLines
  rw [squeezed, squeezed, Token.saidKind said, lines.headKind]
  split
  · exact lines
  · rw [List.map_cons, List.map_cons, said, show _ = _ from lines]

theorem append (tokens : List Token) (lines : SameLines s s') : SameLines (tokens ++ s) (tokens ++ s') := by
  induction tokens with
  | nil => exact lines
  | cons t tokens ih => exact .cons rfl ih

theorem ofAlike (alike : AllAlike s s') : SameLines s s' := by
  induction alike with
  | nil => rfl
  | cons head _ ih => exact .cons (by rw [Token.said, Token.said, head.kind, head.value]) ih

theorem doubled {t : Token} (newline : t.kind = .newline) (next : Parse.headKind s' = .newline)
    (lines : SameLines s s') : SameLines s (t :: s') := by
  unfold SameLines
  rw [squeezed, if_pos ⟨newline, next⟩]
  exact lines

end SameLines

variable {α β : Type}

def Bond.lines : Bond :=
  ⟨fun t u => t.said = u.said, SameLines, fun f r => ∃ g, r = .error g ∧ f.cause.family = g.cause.family⟩

instance : Bond.lines.Lawful where
  kind := Token.saidKind
  value := Token.saidValue
  head := SameLines.headKind
  nil := SameLines.nil
  uncons := SameLines.uncons
  skip := SameLines.skip
  ahead tied := tied.arrowAhead 0
  fail cause _ := ⟨_, rfl, rfl⟩
  invalidKey _ _ := ⟨_, rfl, rfl⟩
  outOfRange _ _ := ⟨_, rfl, rfl⟩
  lost := by
    rintro _ _ _ ⟨_, none, _⟩
    cases none

theorem toldFamily (f : Failure) :
    f.told.cause.family = if f.cause.family = .exhausted then .parse else f.cause.family := by
  obtain ⟨cause, rest⟩ := f
  cases cause <;> rfl

theorem linesTells : Bond.lines.Tells .lines := by
  refine ⟨rfl, ?_⟩
  rintro f _ ⟨g, rfl, family⟩
  refine ⟨_, rfl, ?_⟩
  rw [toldFamily, toldFamily, family]

theorem programParallel (depth : Nat) : Ties .lines Twin (program depth) (program depth) :=
  programTies linesTells twinCongruent depth

theorem streamParallel {stream stream' : Token.Stream} (lines : SameLines stream.body stream'.body)
    (depth : Nat) (source source' : String) :
    EndsAlike Twin (stream.parse depth source) (stream'.parse depth source') := by
  have outcome := programParallel depth _ _ lines
  unfold Token.Stream.parse
  generalize program depth stream.body = result, program depth stream'.body = result' at outcome
  cases outcome with
  | ok twin _ => exact .ok twin
  | failed fails =>
    obtain ⟨g, failed, family⟩ := fails
    obtain rfl := leftError failed
    exact .error family

end Parse

end Scriptlet
