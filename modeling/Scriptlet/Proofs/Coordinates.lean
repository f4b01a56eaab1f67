import Mathlib.Data.List.TakeWhile
import Scriptlet.Proofs.Places

/-! An offset, and a line with a column, say the same. The lines here are the stretches between line
feeds: a place tells how many of them lie above it, and how much of its own line lies to its left. -/
namespace Scriptlet

namespace Text

def ended (lines : List (List Char)) : List Char := lines.flatMap (· ++ ['\n'])

theorem endedCons (line : List Char) (more : List (List Char)) (rest : List Char) :
    ended (line :: more) ++ rest = line ++ '\n' :: (ended more ++ rest) := by
  simp [ended]

theorem endedLength (lines : List (List Char)) :
    ((ended lines).length : Int) = (lines.map fun line => (line.length : Int) + 1).sum := by
  induction lines with
  | nil => rfl
  | cons line more ih =>
    have size := congrArg List.length (endedCons line more [])
    simp only [List.append_nil, List.length_append, List.length_cons] at size
    rw [size, List.map_cons, List.sum_cons, ← ih]
    push_cast
    omega

theorem wholeLines (text : List Char) :
    ∃ above left, text = ended above ++ left ∧ (∀ line ∈ above, '\n' ∉ line) ∧ '\n' ∉ left := by
  induction text with
  | nil => exact ⟨[], [], rfl, List.forall_mem_nil _, List.not_mem_nil⟩
  | cons c rest ih =>
    obtain ⟨above, left, rfl, each, oneLine⟩ := ih
    by_cases feed : c = '\n'
    · subst feed
      exact ⟨[] :: above, left, rfl, List.forall_mem_cons.mpr ⟨List.not_mem_nil, each⟩, oneLine⟩
    have longer : ∀ {line : List Char}, '\n' ∉ line → '\n' ∉ c :: line := fun free member =>
      (List.mem_cons.mp member).elim (fun same => feed same.symm) free
    cases above with
    | nil => exact ⟨[], c :: left, rfl, each, longer oneLine⟩
    | cons line more =>
      obtain ⟨first, others⟩ := List.forall_mem_cons.mp each
      exact ⟨(c :: line) :: more, left, rfl, List.forall_mem_cons.mpr ⟨longer first, others⟩, oneLine⟩

theorem splitEnded {above : List (List Char)} (each : ∀ line ∈ above, '\n' ∉ line) (rest : List Char) :
    (ended above ++ rest).splitOn '\n' = above ++ rest.splitOn '\n' := by
  induction above with
  | nil => rfl
  | cons line more ih =>
    obtain ⟨first, others⟩ := List.forall_mem_cons.mp each
    rw [endedCons, List.splitOn_append_cons_self_of_not_mem first, ih others, List.cons_append]

/- A text cut at an offset: the lines above, the two parts of the line that the offset is in, and the
rest, which the end of that line starts. -/
structure Cut (source : List Char) (offset : Nat) (above : List (List Char)) (left right below : List Char) :
    Prop where
  whole : source = ended above ++ (left ++ (right ++ below))
  here : offset = (ended above ++ left).length
  lines : ∀ line ∈ above, '\n' ∉ line
  oneLine : '\n' ∉ left ++ right
  stop : ∀ c ∈ below.head?, c = '\n'

theorem cutAt {source : List Char} {offset : Nat} (inside : offset ≤ source.length) :
    ∃ above left right below, Cut source offset above left right below := by
  obtain ⟨above, left, front, lines, oneLine⟩ := wholeLines (source.take offset)
  refine ⟨above, left, (source.drop offset).takeWhile (· ≠ '\n'), (source.drop offset).dropWhile (· ≠ '\n'), ?_⟩
  refine ⟨?_, ?_, lines, ?_, ?_⟩
  · rw [List.takeWhile_append_dropWhile, ← List.append_assoc, ← front, List.take_append_drop]
  · rw [← front, List.length_take_of_le inside]
  · intro member
    rcases List.mem_append.mp member with before | after
    · exact oneLine before
    · simpa using List.mem_takeWhile_imp after
  · intro c head
    have stop := List.head?_dropWhile_not (· ≠ '\n') (source.drop offset)
    rw [Option.mem_def.mp head] at stop
    simpa using stop

theorem Cut.split {source : List Char} {offset : Nat} {above : List (List Char)} {left right below : List Char}
    (cut : Cut source offset above left right below) :
    ∃ more, source.splitOn '\n' = above ++ (left ++ right) :: more := by
  rw [cut.whole, splitEnded cut.lines, ← List.append_assoc left]
  cases shape : below with
  | nil =>
    rw [List.append_nil, List.splitOn_eq_singleton cut.oneLine]
    exact ⟨[], rfl⟩
  | cons c rest =>
    have feed : c = '\n' := cut.stop c (by rw [shape]; rfl)
    rw [feed, List.splitOn_append_cons_self_of_not_mem cut.oneLine]
    exact ⟨_, rfl⟩

end Text

open Text (ended Cut cutAt)

namespace Position

theorem afterOneLine {text : List Char} (oneLine : '\n' ∉ text) (p : Position) :
    (p.after text).place = ⟨p.place.line, p.place.col + text.length⟩ := by
  induction text generalizing p with
  | nil => simp [after]
  | cons c rest ih =>
    obtain ⟨other, free⟩ := not_or.mp (mt List.mem_cons.mpr oneLine)
    have next : (p.step c).place = ⟨p.place.line, p.place.col + 1⟩ := by simp [step, Ne.symm other]
    have moved := ih free (p.step c)
    rw [next] at moved
    rw [after, List.foldl_cons, ← after, moved, List.length_cons]
    congr 1
    push_cast
    omega

theorem afterEnded {lines : List (List Char)} (each : ∀ line ∈ lines, '\n' ∉ line) {p : Position}
    (first : p.place.col = 1) : (p.after (ended lines)).place = ⟨p.place.line + lines.length, 1⟩ := by
  induction lines generalizing p with
  | nil =>
    rw [← first]
    simp [after, ended]
  | cons line more ih =>
    obtain ⟨oneLine, others⟩ := List.forall_mem_cons.mp each
    have next : ((p.after line).step '\n').place = ⟨p.place.line + 1, 1⟩ := by
      rw [step, afterOneLine oneLine]
      rfl
    have moved := ih others (p := (p.after line).step '\n') (by rw [next])
    have path : p.after (ended (line :: more)) = ((p.after line).step '\n').after (ended more) := by
      simp [after, ended]
    rw [path, moved, next, List.length_cons]
    congr 1
    push_cast
    omega

end Position

namespace Place

structure Within (lines : List (List Char)) (place : Place) : Prop where
  line : 1 ≤ place.line ∧ place.line ≤ lines.length
  col : ∃ line, lines[(place.line - 1).toNat]? = some line ∧ 1 ≤ place.col ∧ place.col ≤ line.length + 1

/- How many characters stand before a place, where every line but the last has a line feed after it. -/
def offsetIn (lines : List (List Char)) (place : Place) : Int :=
  ((lines.take (place.line - 1).toNat).map fun line => (line.length : Int) + 1).sum + (place.col - 1)

theorem ofOffsetCut {source : List Char} {offset : Nat} {above : List (List Char)} {left right below : List Char}
    (cut : Cut source offset above left right below) :
    ofOffset source offset = ⟨above.length + 1, left.length + 1⟩ := by
  have start : (Position.start.after (ended above)).place = ⟨1 + above.length, 1⟩ :=
    Position.afterEnded cut.lines rfl
  have oneLine : '\n' ∉ left := fun member => cut.oneLine (List.mem_append_left _ member)
  rw [cut.whole, cut.here, ← List.append_assoc, ofOffsetAppend, ← Position.afterPlace, Position.afterAppend,
    Position.afterOneLine oneLine, start]
  congr 1
  · exact add_comm _ _
  · exact add_comm _ _

theorem ofOffsetClamp (source : List Char) (offset : Int) :
    ofOffset source offset = ofOffset source (min offset.toNat source.length : Nat) := by
  unfold ofOffset
  rw [Int.toNat_natCast, ← List.take_eq_take_min]

theorem ofOffsetFits (source : List Char) (offset : Int) :
    (ofOffset source offset).Within (source.splitOn '\n') ∧
      (ofOffset source offset).offsetIn (source.splitOn '\n') = max 0 (min offset source.length) := by
  rw [ofOffsetClamp]
  obtain ⟨above, left, right, below, cut⟩ := cutAt (Nat.min_le_right offset.toNat source.length)
  obtain ⟨more, lines⟩ := cut.split
  have row : ((above.length : Int) + 1 - 1).toNat = above.length := by omega
  have size : ((min offset.toNat source.length : Nat) : Int) = (ended above).length + left.length := by
    rw [cut.here, List.length_append]
    push_cast
    rfl
  rw [ofOffsetCut cut, lines]
  refine ⟨⟨?_, left ++ right, ?_, ?_, ?_⟩, ?_⟩
  · simp only [List.length_append, List.length_cons]
    omega
  · simp
  · simp
  · simp
  · rw [offsetIn]
    simp only [row, List.take_left, ← Text.endedLength]
    omega

theorem ofOffsetBefore {source : List Char} {i j : Nat} (later : i < j) (inside : j ≤ source.length) :
    (ofOffset source i).Before (ofOffset source j) := by
  have place : ∀ n : Nat, ofOffset source n = (Position.start.after (source.take n)).place :=
    fun n => (Position.afterPlace _).symm
  have split : source.take j = source.take i ++ (source.take j).drop i := by
    have parts := List.take_append_drop i (source.take j)
    rw [List.take_take, Nat.min_eq_left later.le] at parts
    exact parts.symm
  have some : (source.take j).drop i ≠ [] := by
    rw [← List.length_pos_iff, List.length_drop, List.length_take_of_le inside]
    omega
  rw [place, place, split, Position.afterAppend]
  exact Position.afterBefore some _

theorem coordinatesFaithful (source : List Char) :
    (∀ offset : Int, (ofOffset source offset).Within (source.splitOn '\n') ∧
      (ofOffset source offset).offsetIn (source.splitOn '\n') = max 0 (min offset source.length)) ∧
    (∀ i j : Int, 0 ≤ i → i < j → j ≤ source.length → (ofOffset source i).Before (ofOffset source j)) ∧
    ∀ i j : Int, 0 ≤ i → i ≤ source.length → 0 ≤ j → j ≤ source.length →
      ofOffset source i = ofOffset source j → i = j := by
  refine ⟨ofOffsetFits source, fun i j start later inside => ?_, fun i j start inside start' inside' same => ?_⟩
  · obtain ⟨n, rfl⟩ := Int.eq_ofNat_of_zero_le start
    obtain ⟨m, rfl⟩ := Int.eq_ofNat_of_zero_le (start.trans later.le)
    exact ofOffsetBefore (by omega) (by omega)
  · have first := (ofOffsetFits source i).2
    rw [same, (ofOffsetFits source j).2] at first
    omega

def airyText : List Char := "\na\n\nbc\n".toList

theorem coordinatesFaithfulAiry :
    ofOffset airyText 5 = ⟨4, 2⟩ ∧ (ofOffset airyText 5).offsetIn (airyText.splitOn '\n') = 5 ∧
      ofOffset airyText 99 = ⟨5, 1⟩ ∧ (ofOffset airyText 99).Within (airyText.splitOn '\n') ∧
      (ofOffset airyText 0).Before (ofOffset airyText 1) := by
  obtain ⟨fits, increasing, _⟩ := coordinatesFaithful airyText
  refine ⟨by decide, ?_, by decide, (fits 99).1, increasing 0 1 (by decide) (by decide) (by decide)⟩
  rw [(fits 5).2]
  decide

end Place

end Scriptlet
