import Scriptlet.Proofs.BlankLines
import Scriptlet.Proofs.LexicalFaults

/-! A source can be scanned line by line. What a scan takes from one line to the next is its mode, the open
brackets and the last token; for the rest, a text after a line break is scanned as a text of its own, with its
offsets and its lines counted on from the text before it. -/
namespace Scriptlet

def Place.down (lines : Nat) (p : Place) : Place := ⟨p.line + lines, p.col⟩

def Position.shifted (chars lines : Nat) (p : Position) : Position := ⟨p.offset + chars, p.place.down lines⟩

theorem Position.shiftedStep (chars lines : Nat) (p : Position) (c : Char) :
    (p.shifted chars lines).step c = (p.step c).shifted chars lines := by
  unfold step shifted Place.down
  rw [Position.mk.injEq]
  refine ⟨Nat.add_right_comm _ _ _, ?_⟩
  split
  · rw [Int.add_right_comm]
  · rfl

theorem Position.shiftedAfter (chars lines : Nat) (p : Position) (text : List Char) :
    (p.shifted chars lines).after text = (p.after text).shifted chars lines := by
  induction text generalizing p with
  | nil => rfl
  | cons c rest ih =>
    show ((p.shifted chars lines).step c).after rest = ((p.step c).after rest).shifted chars lines
    rw [shiftedStep, ih]

theorem Position.afterBreak (text : List Char) :
    start.after (text ++ ['\n']) = start.shifted (text.length + 1) (text.count '\n' + 1) := by
  have place : (start.after (text ++ ['\n'])).place = start.place.down (text.count '\n' + 1) := by
    rw [afterPlace, Place.ending, start, Place.down]
    simp [List.count_append, Int.add_comm]
  have offset : (start.after (text ++ ['\n'])).offset = text.length + 1 := by
    rw [afterOffset, List.length_append, start, Nat.zero_add]
    rfl
  rw [shifted, ← place, show start.offset = 0 from rfl, Nat.zero_add, ← offset]

theorem Place.ofOffsetBehind (text more : List Char) (offset : Nat) :
    Place.ofOffset (text ++ '\n' :: more) ↑(offset + (text.length + 1)) =
      (Place.ofOffset more ↑offset).down (text.count '\n' + 1) := by
  have front : (text ++ '\n' :: more).take (offset + (text.length + 1)) = text ++ '\n' :: more.take offset := by
    rw [List.take_append, List.take_of_length_le (by omega)]
    have left : offset + (text.length + 1) - text.length = offset + 1 := by omega
    rw [left, List.take_succ_cons]
  have line : (text ++ '\n' :: more.take offset).count '\n' =
      (more.take offset).count '\n' + (text.count '\n' + 1) := by
    rw [List.count_append, List.count_cons_self]
    omega
  have col : ((text ++ '\n' :: more.take offset).reverse.takeWhile (· ≠ '\n')) =
      (more.take offset).reverse.takeWhile (· ≠ '\n') := by
    rw [List.reverse_append, List.reverse_cons, List.append_assoc, List.singleton_append]
    exact Token.takeWhileLine text.reverse (by decide) _
  unfold Place.ofOffset Place.down
  dsimp only
  rw [Int.toNat_natCast, Int.toNat_natCast, front, line, col, Place.mk.injEq]
  refine ⟨?_, rfl⟩
  rw [Int.ofNat_eq_natCast, Int.ofNat_eq_natCast, Int.natCast_add]
  omega

namespace Token

def shifted (chars lines : Nat) (t : Token) : Token :=
  { t with offset := t.offset + chars, place := t.place.down lines }

namespace Scanner

def shifted (chars lines : Nat) (s : Scanner) : Scanner := { s with position := s.position.shifted chars lines }

def Found.shifted (chars lines : Nat) (f : Found) : Found :=
  { f with token := f.token.shifted chars lines, position := f.position.shifted chars lines }

def Step.shifted (chars lines : Nat) : Step → Step
  | .finished => .finished
  | .skipped s => .skipped (s.shifted chars lines)
  | .token t s => .token (t.shifted chars lines) (s.shifted chars lines)
  | .failed blame => .failed blame

section Shifted
variable (chars lines : Nat) (s : Scanner)

theorem shiftedPass (used rest : List Char) :
    (s.shifted chars lines).pass used rest = (s.pass used rest).shifted chars lines := by
  unfold pass shifted
  rw [Position.shiftedAfter]

theorem shiftedStep : (s.shifted chars lines).step = s.step.shifted chars lines := by
  have rest : (s.shifted chars lines).rest = s.rest := rfl
  have continues : (s.shifted chars lines).continues = s.continues := rfl
  unfold step
  rw [rest, continues]
  simp only [shiftedPass]
  split
  · rfl
  · split
    · split <;> rfl
    · split
      · rfl
      · split
        · rfl
        · split <;> rfl

theorem shiftedRun (s : Scanner) :
    (s.shifted chars lines).run = (s.run.1.map (Found.shifted chars lines), s.run.2.map (shifted chars lines)) := by
  have step := s.shiftedStep chars lines
  induction s using Scanner.run.induct with
  | case1 s finished =>
    have empty := finishedEmpty finished
    rw [runEmpty (s := s.shifted chars lines) empty, runEmpty empty]
    rfl
  | case2 s s' skipped ih =>
    rw [skipped] at step
    rw [runSkipped step, runSkipped skipped]
    exact ih (s'.shiftedStep chars lines)
  | case3 s blame failed =>
    rw [failed] at step
    rw [runFailed step, runFailed failed]
    rfl
  | case4 s t s' found ih =>
    rw [found] at step
    rw [runToken step, runToken found, ih (s'.shiftedStep chars lines)]
    rfl

end Shifted

def resume (m : Mode) (text : List Char) : Scanner := ⟨.start, text, m.brackets, m.last⟩

theorem resumeFresh (text : List Char) : resume ⟨[], none⟩ text = start text := rfl

theorem resumeBehind {text : List Char} {tokens : List Token} {final : Scanner}
    (path : Path (start text) tokens final) (empty : final.rest = []) (more : List Char) :
    (final.onward more).pass ['\n'] more =
      (resume final.mode more).shifted (text.length + 1) (text.count '\n' + 1) := by
  obtain ⟨used, whole, position⟩ := path.split
  rw [empty, List.append_nil] at whole
  have behind : (final.onward more).position.after ['\n'] =
      Position.start.shifted (text.length + 1) (text.count '\n' + 1) := by
    rw [onward, position, ← Position.afterAppend, ← whole, Position.afterBreak]
  unfold pass
  rw [behind]
  rfl

end Scanner

def yields (m : Mode) (source : String) : List Token × Except Error Token :=
  ((Scanner.resume m source.toList).run.1.map Scanner.Found.token,
    match (Scanner.resume m source.toList).run.2 with
    | .ok final => .ok final.endToken
    | .error blame => .error (blame.toError source))

def endMode (source : String) : Option Mode := (Scanner.start source.toList).run.2.toOption.map Scanner.mode

theorem tokenizeYields (source : String) :
    tokenize source = match (yields ⟨[], none⟩ source).2 with
      | .ok stop => .ok ⟨(yields ⟨[], none⟩ source).1, stop⟩
      | .error e => .error (.token e) := by
  unfold tokenize scan yields
  rw [Scanner.resumeFresh]
  dsimp only
  cases (Scanner.start source.toList).run.2 with
  | ok final => rfl
  | error blame => rfl

theorem blameLeft {s : Scanner} {blame : Blame} (fails : s.run.2 = .error blame) :
    blame.rest.length ≤ s.rest.length := by
  obtain ⟨stuck, path, failed⟩ := Scanner.runStops fails
  obtain ⟨used, consumed⟩ := path.consumes
  obtain ⟨c, rest, text, _, _, _, wrong⟩ := Scanner.failedCases failed
  obtain ⟨front, split, _, _⟩ := (lexemeExplains wrong).suffix
  have whole : s.rest = used ++ (front ++ blame.rest) := by rw [← split, ← text, consumed.text]
  have length := congrArg List.length whole
  simp only [List.length_append] at length
  omega

def behind (first : String) (t : Token) : Token := t.shifted (first.length + 1) (first.toList.count '\n' + 1)

def Error.behind (first : String) (e : Error) : Error :=
  ⟨e.fault, e.offset + (first.length + 1), first ++ "\n" ++ e.source⟩

theorem Error.behindPlace (first : String) (e : Error) :
    (e.behind first).diagnostic.place = e.diagnostic.place.down (first.toList.count '\n' + 1) := by
  have text : (first ++ "\n" ++ e.source).toList = first.toList ++ '\n' :: e.source.toList := by simp
  show Place.ofOffset (first ++ "\n" ++ e.source).toList ↑(e.offset + (first.length + 1)) = _
  rw [text, ← String.length_toList]
  exact Place.ofOffsetBehind _ _ _

theorem toErrorBehind {first second : String} {blame : Blame} (left : blame.rest.length ≤ second.length) :
    blame.toError (first ++ "\n" ++ second) = (blame.toError second).behind first := by
  have length : (first ++ "\n" ++ second).length = first.length + 1 + second.length := by
    rw [String.length_append, String.length_append]
    rfl
  unfold Blame.toError Error.behind
  rw [Error.mk.injEq, length]
  refine ⟨rfl, ?_, rfl⟩
  dsimp only
  omega

/- The tokens of a line break between two texts. It stands where the first ends, and counts if no bracket
and no word before it lets the line go on. -/
def breakBetween (m : Mode) (stop : Token) : List Token :=
  if m.continues then [] else [⟨.newline, "\n", "\n", stop.offset, stop.place⟩]

theorem yieldsBehind {first : String} {final : Scanner} (ends : (Scanner.start first.toList).run.2 = .ok final)
    (second : String) :
    yields ⟨[], none⟩ (first ++ "\n" ++ second) =
      ((Scanner.start first.toList).run.1.map Scanner.Found.token ++ breakBetween final.mode final.endToken ++
          (yields final.mode second).1.map (behind first),
        ((yields final.mode second).2.map (behind first)).mapError (Error.behind first)) := by
  have text : (first ++ "\n" ++ second).toList = first.toList ++ '\n' :: second.toList := by simp
  obtain ⟨path, empty⟩ := Scanner.runEnds ends
  -- Through the first text, over the break, and then as the second text alone.
  have broken : (final.onward second.toList).rest = '\n' :: second.toList := by rw [Scanner.onward, empty]; rfl
  have way := (path.onward second.toList).trans (Scanner.pathBreak broken)
  obtain ⟨found, stops⟩ := way.run
  rw [Scanner.resumeBehind path empty, Scanner.shiftedRun] at found stops
  have joined : Scanner.resume ⟨[], none⟩ (first ++ "\n" ++ second).toList =
      (Scanner.start first.toList).onward second.toList := by rw [text]; rfl
  have left (blame) (fails : (Scanner.resume final.mode second.toList).run.2 = .error blame) :
      blame.rest.length ≤ second.length := by
    rw [← String.length_toList]
    exact blameLeft fails
  unfold yields
  rw [joined, found, stops, Prod.mk.injEq, String.length_toList]
  refine ⟨?_, ?_⟩
  · rw [List.map_map, List.map_map]
    rfl
  · generalize (Scanner.resume final.mode second.toList).run.2 = result at left
    cases result with
    | ok last => rfl
    | error blame => exact congrArg Except.error (toErrorBehind (left blame rfl))

theorem linesCompose {first : String} {stream : Stream} (scans : tokenize first = .ok stream) (second : String) :
    ∃ m, endMode first = some m ∧
      yields ⟨[], none⟩ (first ++ "\n" ++ second) =
        (stream.body ++ breakBetween m stream.stop ++ (yields m second).1.map (behind first),
          ((yields m second).2.map (behind first)).mapError (Error.behind first)) ∧
      (∀ stop, (yields m second).2 = .ok stop → tokenize (first ++ "\n" ++ second) =
        .ok ⟨stream.body ++ breakBetween m stream.stop ++ (yields m second).1.map (behind first),
          stop.behind first⟩) ∧
      (∀ e, (yields m second).2 = .error e →
        tokenize (first ++ "\n" ++ second) = .error (.token (e.behind first)) ∧
        (e.behind first).diagnostic.place = e.diagnostic.place.down (first.toList.count '\n' + 1)) := by
  obtain ⟨final, ends, rfl⟩ := tokenizeIff.mp scans
  have behind := yieldsBehind ends second
  have mode : endMode first = some final.mode := by rw [endMode, ends]; rfl
  refine ⟨final.mode, mode, behind, fun stop stops => ?_, fun e fails => ⟨?_, e.behindPlace first⟩⟩
  · rw [tokenizeYields, behind, stops]
    rfl
  · rw [tokenizeYields, behind, fails]
    rfl

def bracketTokens : Stream :=
  ⟨[⟨.lbracket, "[", "[", 0, ⟨1, 1⟩⟩, ⟨.number, "1", "1", 1, ⟨1, 2⟩⟩], ⟨.eof, "", "", 2, ⟨1, 3⟩⟩⟩

theorem linesComposeBracket :
    tokenize "[1" = .ok bracketTokens ∧
      ∃ m e, endMode "[1" = some m ∧ breakBetween m bracketTokens.stop = [] ∧
        (yields m "]\n 'a").2 = .error e ∧
        tokenize ("[1" ++ "\n" ++ "]\n 'a") = .error (.token (e.behind "[1")) ∧
        e.diagnostic.place = ⟨2, 2⟩ ∧ (e.behind "[1").diagnostic.place = ⟨3, 2⟩ := by
  have scans : tokenize "[1" = .ok bracketTokens := by decide +kernel
  obtain ⟨m, mode, _, _, fails⟩ := linesCompose scans "]\n 'a"
  have square : (endMode "[1").map (fun m => (m.brackets, m.last)) = some ([.square], some .number) := by
    decide +kernel
  rw [mode] at square
  obtain ⟨brackets, last⟩ := m
  obtain ⟨rfl, rfl⟩ := Prod.mk.inj (Option.some.inj square)
  have unclosed : (yields ⟨[.square], some .number⟩ "]\n 'a").2 =
      .error ⟨.unterminatedString, 3, "]\n 'a"⟩ := by decide +kernel
  have place : (Error.diagnostic ⟨.unterminatedString, 3, "]\n 'a"⟩).place = ⟨2, 2⟩ := by decide
  obtain ⟨whole, down⟩ := fails _ unclosed
  exact ⟨scans, _, _, mode, rfl, unclosed, whole, place, down.trans (by rw [place]; rfl)⟩

end Token

end Scriptlet
