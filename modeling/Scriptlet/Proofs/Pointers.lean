import Mathlib.Data.List.TakeWhile
import Scriptlet.Proofs.Coordinates

/-! The line that a diagnostic shows, and the pointer under it. The number of the line counts line feeds,
but the line itself is looked up among the rows of the page, which other characters end as well. The two
agree as long as a row ends only in a line feed, with or without a carriage return before it. -/
namespace Scriptlet

namespace Text

def trimReturn : List Char → List Char
  | [] => []
  | ['\r'] => []
  | c :: rest => c :: trimReturn rest

def OneRow (line : List Char) : Prop := ∀ c ∈ trimReturn line, isBreak c = false

instance (line : List Char) : Decidable (OneRow line) := List.decidableBAll _ _

theorem trimReturnAppend (front : List Char) {c : Char} (other : c ≠ '\r') (rest : List Char) :
    trimReturn (front ++ c :: rest) = front ++ c :: trimReturn rest := by
  induction front with
  | nil =>
    rw [List.nil_append, trimReturn]
    · rfl
    · exact fun same _ => other same
  | cons d front ih =>
    rw [List.cons_append, trimReturn, ih]
    · rfl
    · simp

theorem isBlankOfBreak {c : Char} (broken : isBreak c = true) : isBlank c = true := by
  have table : ['\n', '\r', '\x0b', '\x0c', '\x1c', '\x1d', '\x1e', '\x85', '\u2028', '\u2029'].all isBlank = true := by
    decide
  exact List.all_eq_true.mp table c (by simpa only [isBreak, decide_eq_true_eq] using broken)

theorem linesPlain {c : Char} (plain : isBreak c = false) {text row : List Char} {more : List (List Char)}
    (rows : lines text = row :: more) : lines (c :: text) = (c :: row) :: more := by
  have other : c ≠ '\r' := by
    rintro rfl
    revert plain
    decide
  rw [lines, rows]
  · simp [plain]
  · exact fun _ same => absurd same other

/- A break ends a row, and takes a line feed with it if it is a carriage return. -/
theorem linesBreak {c : Char} (broken : isBreak c = true) {text : List Char}
    (alone : ¬ (c = '\r' ∧ text.head? = some '\n')) : lines (c :: text) = [] :: lines text := by
  rw [lines, if_pos broken]
  rintro rest rfl rfl
  exact alone ⟨rfl, rfl⟩

theorem linesFirst (c : Char) (text : List Char) :
    ∃ more, lines (c :: text) = ((c :: text).takeWhile fun d => !isBreak d) :: more := by
  induction text generalizing c with
  | nil =>
    cases broken : isBreak c with
    | true => exact ⟨[], by rw [linesBreak broken (by simp)]; simp [broken, lines]⟩
    | false => exact ⟨[], by simp [lines, broken]⟩
  | cons d text ih =>
    cases broken : isBreak c with
    | true =>
      rw [List.takeWhile_cons_of_neg (by simp [broken])]
      by_cases pair : c = '\r' ∧ d = '\n'
      · obtain ⟨rfl, rfl⟩ := pair
        exact ⟨lines text, by rw [lines]⟩
      · exact ⟨_, linesBreak broken (by simpa using pair)⟩
    | false =>
      obtain ⟨more, rows⟩ := ih d
      rw [List.takeWhile_cons_of_pos (by simp [broken])]
      exact ⟨more, linesPlain broken rows⟩

theorem linesEnded (front : List Char) : ∃ row more, lines (front ++ ['\n']) = row :: more := by
  cases front with
  | nil => exact ⟨[], [], rfl⟩
  | cons c front =>
    obtain ⟨more, rows⟩ := linesFirst c (front ++ ['\n'])
    exact ⟨_, more, rows⟩

theorem linesAppendPlain {c : Char} (plain : isBreak c = false) {front rest : List Char}
    (rows : lines (front ++ '\n' :: rest) = lines (front ++ ['\n']) ++ lines rest) :
    lines (c :: front ++ '\n' :: rest) = lines (c :: front ++ ['\n']) ++ lines rest := by
  obtain ⟨row, more, first⟩ := linesEnded front
  rw [first] at rows
  rw [List.cons_append, List.cons_append, linesPlain plain rows, linesPlain plain first]
  rfl

theorem linesAppend (front rest : List Char) :
    lines (front ++ '\n' :: rest) = lines (front ++ ['\n']) ++ lines rest := by
  fun_induction lines front with
  | case1 => rfl
  | case2 front ih => simp [lines, ih]
  | case3 c front unpaired broken ih =>
    by_cases last : c = '\r' ∧ front = []
    · obtain ⟨rfl, rfl⟩ := last
      simp [lines]
    · have alone : ∀ tail, ¬ (c = '\r' ∧ (front ++ '\n' :: tail).head? = some '\n') := by
        rintro tail ⟨rfl, head⟩
        cases front with
        | nil => exact last ⟨rfl, rfl⟩
        | cons d front => exact unpaired front rfl (by simpa using head)
      rw [List.cons_append, List.cons_append, linesBreak broken (alone rest), linesBreak broken (alone []), ih,
        List.cons_append]
  | case4 c front _ plain _ ih => exact linesAppendPlain (by simpa using plain) ih
  | case5 c front _ plain _ _ _ ih => exact linesAppendPlain (by simpa using plain) ih

theorem rowsOfLine {line : List Char} (oneLine : '\n' ∉ line) :
    (OneRow line → lines (line ++ ['\n']) = [trimReturn line]) ∧
      (¬ OneRow line → 1 < (lines (line ++ ['\n'])).length) := by
  induction line with
  | nil => exact ⟨fun _ => rfl, fun broken => absurd (List.forall_mem_nil _) broken⟩
  | cons c rest ih =>
    obtain ⟨_, free⟩ := not_or.mp (mt List.mem_cons.mpr oneLine)
    obtain ⟨row, more, first⟩ := linesEnded rest
    cases broken : isBreak c with
    | true =>
      by_cases last : c = '\r' ∧ rest = []
      · obtain ⟨rfl, rfl⟩ := last
        exact ⟨fun _ => by simp [lines, trimReturn], fun several => absurd (List.forall_mem_nil _) several⟩
      have alone : ¬ (c = '\r' ∧ (rest ++ ['\n']).head? = some '\n') := by
        rintro ⟨rfl, head⟩
        cases rest with
        | nil => exact last ⟨rfl, rfl⟩
        | cons d rest =>
          have feed : d = '\n' := by simpa using head
          exact free (feed ▸ List.mem_cons_self)
      have kept : c ∈ trimReturn (c :: rest) := by
        rw [trimReturn]
        · exact List.mem_cons_self
        · exact fun same none => last ⟨same, none⟩
      refine ⟨fun oneRow => ?_, fun _ => ?_⟩
      · rw [oneRow c kept] at broken
        cases broken
      · rw [List.cons_append, linesBreak broken alone, first]
        simp
    | false =>
      have other : c ≠ '\r' := by
        rintro rfl
        revert broken
        decide
      have trimmed : trimReturn (c :: rest) = c :: trimReturn rest := trimReturnAppend [] other rest
      obtain ⟨single, several⟩ := ih free
      rw [List.cons_append, linesPlain broken first]
      rw [first] at single several
      unfold OneRow at single several ⊢
      rw [trimmed, List.forall_mem_cons]
      refine ⟨fun ⟨_, oneRow⟩ => ?_, fun not => ?_⟩
      · obtain ⟨rfl, rfl⟩ := List.cons.inj (single oneRow)
        rfl
      · exact several fun oneRow => not ⟨broken, oneRow⟩

theorem linesAbove (above : List (List Char)) (rest : List Char) :
    lines (ended above ++ rest) = lines (ended above) ++ lines rest := by
  induction above with
  | nil => rfl
  | cons line more ih =>
    have alone := endedCons line more []
    rw [List.append_nil, List.append_nil] at alone
    rw [endedCons, linesAppend, ih, alone, linesAppend line (ended more), List.append_assoc]

/- There are as many rows above as lines if each line is one row, and more of them if not. -/
theorem rowsAbove {above : List (List Char)} (each : ∀ line ∈ above, '\n' ∉ line) :
    ((∀ line ∈ above, OneRow line) → (lines (ended above)).length = above.length) ∧
      above.length ≤ (lines (ended above)).length ∧
      ((∃ line ∈ above, ¬ OneRow line) → above.length < (lines (ended above)).length) := by
  induction above with
  | nil => exact ⟨fun _ => rfl, Nat.le_refl _, fun ⟨_, member, _⟩ => absurd member List.not_mem_nil⟩
  | cons line more ih =>
    obtain ⟨oneLine, others⟩ := List.forall_mem_cons.mp each
    obtain ⟨same, least, longer⟩ := ih others
    obtain ⟨single, several⟩ := rowsOfLine oneLine
    obtain ⟨row, rows, first⟩ := linesEnded line
    have alone := endedCons line more []
    rw [List.append_nil, List.append_nil] at alone
    have size : (lines (ended (line :: more))).length =
        (lines (line ++ ['\n'])).length + (lines (ended more)).length := by
      rw [alone, linesAppend, List.length_append]
    have some : 0 < (lines (line ++ ['\n'])).length := by
      rw [first]
      exact Nat.zero_lt_succ _
    rw [size, List.length_cons]
    refine ⟨fun all => ?_, by omega, fun broken => ?_⟩
    · obtain ⟨oneRow, rest⟩ := List.forall_mem_cons.mp all
      rw [single oneRow, same rest, List.length_singleton]
      omega
    · obtain ⟨bad, member, not⟩ := broken
      rcases List.mem_cons.mp member with rfl | later
      · have two := several not
        omega
      · have more := longer ⟨bad, later, not⟩
        omega

theorem takeWhileBefore {test : Char → Bool} {rest : List Char} (stop : ∀ c ∈ rest.head?, test c = false)
    (front : List Char) : (front ++ rest).takeWhile test = front.takeWhile test := by
  induction front with
  | nil => exact takeWhileStop (List.forall_mem_nil _) stop
  | cons c front ih => simp only [List.cons_append, List.takeWhile_cons, ih]

theorem oneRowIff {line : List Char} (oneLine : '\n' ∉ line) :
    (line.takeWhile fun c => !isBreak c) = trimReturn line ↔ OneRow line := by
  constructor
  · intro same c member
    rw [← same] at member
    simpa using List.mem_takeWhile_imp member
  · intro oneRow
    have rows := (rowsOfLine oneLine).1 oneRow
    cases line with
    | nil => rfl
    | cons c rest =>
      obtain ⟨more, first⟩ := linesFirst c (rest ++ ['\n'])
      rw [← List.cons_append, rows] at first
      have stop : ∀ d ∈ ['\n'].head?, (!isBreak d) = false := by
        rintro d ⟨⟩
        rfl
      rw [← takeWhileBefore stop (c :: rest)]
      exact (List.cons.inj first).1.symm

theorem Cut.character {source : List Char} {offset : Nat} {above : List (List Char)}
    {left right below : List Char} (cut : Cut source offset above left right below) {c : Char}
    (here : source[offset]? = some c) (other : c ≠ '\n') : ∃ rest, right = c :: rest := by
  rw [cut.whole, cut.here, ← List.append_assoc, List.getElem?_append_right (Nat.le_refl _), Nat.sub_self] at here
  cases right with
  | nil => exact absurd (cut.stop c (by simpa [List.head?_eq_getElem?] using here)) other
  | cons x rest => exact ⟨rest, by simpa using here⟩

end Text

open Text (trimReturn OneRow ended Cut)

namespace Diagnostic

def placed (d : Diagnostic) : String :=
  toString d.place.line ++ ":" ++ toString d.place.col ++ ": error: " ++ d.text

def withLine (d : Diagnostic) (line : List Char) : String :=
  d.placed ++ "\n" ++ String.ofList line ++ "\n" ++
    String.ofList (List.replicate (d.place.col - 1).toNat ' ') ++ "^"

theorem withLineInj {d : Diagnostic} {a b : List Char} (same : d.withLine a = d.withLine b) : a = b := by
  have letters := congrArg String.toList same
  simpa [withLine] using letters

theorem renderPlaced {d : Diagnostic} (some : d.source.isEmpty = false) :
    d.render = if d.snippet.all Text.isBlank then d.placed else d.withLine d.snippet := by
  have heading : d.heading = d.placed := by simp [heading, placed, some]
  rw [render, heading]
  rfl

theorem renderIff {d : Diagnostic} (some : d.source.isEmpty = false) {line : List Char} {c : Char}
    (member : c ∈ line) (visible : Text.isBlank c = false) : d.render = d.withLine line ↔ d.snippet = line := by
  rw [renderPlaced some]
  constructor
  · intro shown
    split at shown
    · have size := congrArg String.length shown
      have feed : "\n".length = 1 := rfl
      simp [withLine, feed] at size
      omega
    · exact withLineInj shown
  · intro same
    have notBlank : line.all Text.isBlank = false := by
      rw [List.all_eq_false]
      exact ⟨c, member, by simp [visible]⟩
    rw [same, notBlank, if_neg Bool.false_ne_true]

section Rows

variable {d : Diagnostic} {offset : Nat} {above : List (List Char)} {left right below : List Char}

theorem placeCut (cut : Cut d.source.toList offset above left right below) (at' : d.offset = offset) :
    d.place = ⟨above.length + 1, left.length + 1⟩ := by
  rw [place, at', Place.ofOffsetCut cut]

theorem snippetCut (cut : Cut d.source.toList offset above left right below) (at' : d.offset = offset) :
    d.snippet =
      (Text.lines (ended above) ++ Text.lines (left ++ (right ++ below)))[above.length]?.getD [] := by
  rw [snippet, placeCut cut at', cut.whole, Text.linesAbove]
  simp

theorem snippetFront (cut : Cut d.source.toList offset above left right below) (at' : d.offset = offset)
    (some : right ≠ []) (all : ∀ l ∈ above, OneRow l) :
    d.snippet = ((left ++ right).takeWhile fun x => !Text.isBreak x) := by
  have rows := (Text.rowsAbove cut.lines).1 all
  obtain ⟨x, tail, text⟩ := List.exists_cons_of_ne_nil
    (show left ++ (right ++ below) ≠ [] from by simp [some])
  obtain ⟨more, first⟩ := Text.linesFirst x tail
  have stop : ∀ x ∈ below.head?, (!Text.isBreak x) = false := fun x head => by rw [cut.stop x head]; rfl
  rw [snippetCut cut at', List.getElem?_append_right rows.le, rows, Nat.sub_self, text, first,
    List.getElem?_cons_zero, Option.getD_some, ← text, ← List.append_assoc, Text.takeWhileBefore stop]

theorem snippetAbove (cut : Cut d.source.toList offset above left right below) (at' : d.offset = offset)
    (broken : ∃ l ∈ above, ¬ OneRow l) :
    (Text.lines (ended above))[above.length]? = some d.snippet := by
  have rows := (Text.rowsAbove cut.lines).2.2 broken
  rw [snippetCut cut at', List.getElem?_append_left rows, List.getElem?_eq_getElem rows, Option.getD_some]

end Rows

theorem pointsAtCharacter {d : Diagnostic} {offset : Nat} {c : Char} (at' : d.offset = offset)
    (here : d.source.toList[offset]? = some c) (visible : Text.isBlank c = false) :
    ∃ above line below, d.source.toList.splitOn '\n' = above ++ line :: below ∧
      d.place.line = above.length + 1 ∧ (trimReturn line)[(d.place.col - 1).toNat]? = some c ∧
      (d.render = if d.snippet.all Text.isBlank then d.placed else d.withLine d.snippet) ∧
      ((∀ l ∈ above, OneRow l) → d.snippet = (line.takeWhile fun x => !Text.isBreak x) ∧
        (d.render = d.withLine (trimReturn line) ↔ OneRow line)) ∧
      ((∃ l ∈ above, ¬ OneRow l) → (Text.lines (ended above))[above.length]? = some d.snippet) := by
  obtain ⟨inside, _⟩ := List.getElem?_eq_some_iff.mp here
  have other : ∀ x, Text.isBreak x = true → c ≠ x := by
    rintro x broken rfl
    rw [Text.isBlankOfBreak broken] at visible
    cases visible
  obtain ⟨above, left, right, below, cut⟩ := Text.cutAt inside.le
  obtain ⟨more, lines⟩ := cut.split
  obtain ⟨rest, rfl⟩ := cut.character here (other _ rfl)
  have place := placeCut cut at'
  have trimmed : trimReturn (left ++ c :: rest) = left ++ c :: trimReturn rest :=
    Text.trimReturnAppend left (other _ rfl) rest
  have some : d.source.isEmpty = false := by
    rw [Bool.eq_false_iff]
    intro empty
    simp [String.isEmpty_iff.mp empty] at inside
  refine ⟨above, left ++ c :: rest, more, lines, by rw [place], ?_, renderPlaced some, fun all => ?_,
    snippetAbove cut at'⟩
  · rw [trimmed, place]
    simp
  · have row := snippetFront cut at' (List.cons_ne_nil _ _) all
    refine ⟨row, ?_⟩
    rw [renderIff some (c := c) (by simp [trimmed]) visible, row, Text.oneRowIff cut.oneLine]

def letterDraft : Diagnostic := ⟨"m", 10, "to: you\r\n = me\r\n"⟩

theorem pointsAtCharacterDraft : letterDraft.source.toList[10]? = some '=' ∧ Text.isBlank '=' = false ∧
    ∃ above line below, letterDraft.source.toList.splitOn '\n' = above ++ line :: below ∧
      letterDraft.place.line = above.length + 1 ∧
      (trimReturn line)[(letterDraft.place.col - 1).toNat]? = some '=' ∧
      letterDraft.render = letterDraft.withLine (trimReturn line) := by
  have here : letterDraft.source.toList[10]? = some '=' := by decide +kernel
  have rows : ∀ line ∈ letterDraft.source.toList.splitOn '\n', OneRow line := by decide +kernel
  obtain ⟨above, line, below, lines, number, character, _, shown, _⟩ :=
    pointsAtCharacter (d := letterDraft) rfl here (by decide)
  rw [lines, List.forall_mem_append, List.forall_mem_cons] at rows
  obtain ⟨all, oneRow, _⟩ := rows
  exact ⟨here, by decide, above, line, below, lines, number, character, (shown all).2.mpr oneRow⟩

/- A form feed in the first line ends a row, so the row is shown without the character to point at. -/
theorem pointerMissesCharacter : ∃ d : Diagnostic, d.offset = 2 ∧ d.source.toList[2]? = some 'b' ∧
    Text.isBlank 'b' = false ∧ d.source.toList.splitOn '\n' = [d.source.toList] ∧ d.place = ⟨1, 3⟩ ∧
    d.render = "1:3: error: m\na\n  ^" ∧ d.render ≠ d.withLine (trimReturn d.source.toList) := by
  refine ⟨⟨"m", 2, "a\x0cb"⟩, rfl, ?_, ?_, ?_, ?_, ?_, ?_⟩ <;> decide +kernel

end Diagnostic

end Scriptlet
