import Scriptlet.Proofs.LexicalGrammar
import Scriptlet.Proofs.Places

/-! Where a scan gets stuck. The text before that place is a source with just the tokens found so far, no word
stands in front of the text from there on, and the fault says why. -/
namespace Scriptlet.Token

def Unreadable (text : List Char) : Prop := ∀ front rest, text = front ++ rest → ¬ Lexical front

/- Why nothing can be read in front of a text, and what is left from the character at fault: the text itself,
or the backslash of an escape in the string that it starts with. -/
inductive Explains : Fault → List Char → List Char → Prop where
  | character {c rest} : Explains (.invalidCharacter c) (c :: rest) (c :: rest)
  | string {mark body rest} (quote : mark = '"' ∨ mark = '\'') (content : Content mark body)
      (stop : ∀ c ∈ rest.head?, c = '\n') :
      Explains .unterminatedString (mark :: (body ++ rest)) (mark :: (body ++ rest))
  | cut {mark body} (quote : mark = '"' ∨ mark = '\'') (content : Content mark body) :
      Explains .unterminatedEscape (mark :: (body ++ ['\\'])) ['\\']
  | escape {mark body c rest} (quote : mark = '"' ∨ mark = '\'') (content : Content mark body)
      (unknown : c ∉ ['n', 't', '\\', '"', '\'']) :
      Explains (.unknownEscape c) (mark :: (body ++ '\\' :: c :: rest)) ('\\' :: c :: rest)

theorem Explains.suffix {fault : Fault} {text rest : List Char} (explains : Explains fault text rest) :
    ∃ front, text = front ++ rest ∧ rest ≠ [] ∧
      (fault ≠ .unterminatedEscape → (∀ c, fault ≠ .unknownEscape c) → front = []) := by
  cases explains with
  | character => exact ⟨[], rfl, by simp, fun _ _ => rfl⟩
  | string _ _ _ => exact ⟨[], rfl, by simp, fun _ _ => rfl⟩
  | @cut mark body _ _ => exact ⟨mark :: body, rfl, by simp, fun other _ => absurd rfl other⟩
  | @escape mark body c rest _ _ _ => exact ⟨mark :: body, rfl, by simp, fun _ other => absurd rfl (other c)⟩

theorem splitStringBreaks {mark : Char} {opening source : List Char} {blame : Blame}
    (failed : splitString mark opening source = .error blame) :
    ∃ body rest, source = body ++ rest ∧ Content mark body ∧
      (((∀ c ∈ rest.head?, c = '\n') ∧ blame = ⟨.unterminatedString, opening⟩) ∨
        (rest = ['\\'] ∧ blame = ⟨.unterminatedEscape, rest⟩) ∨
        ∃ c more, rest = '\\' :: c :: more ∧ c ∉ ['n', 't', '\\', '"', '\''] ∧
          blame = ⟨.unknownEscape c, rest⟩) := by
  fun_induction splitString mark opening source with
  | case1 =>
    cases failed
    exact ⟨[], [], rfl, .empty, Or.inl ⟨by simp, rfl⟩⟩
  | case2 =>
    cases failed
    exact ⟨[], _, rfl, .empty, Or.inr (Or.inl ⟨rfl, rfl⟩)⟩
  | case3 c rest none =>
    cases failed
    have unknown : c ∉ ['n', 't', '\\', '"', '\''] := fun known => by
      obtain ⟨meant, same⟩ := (escapeKnown c).mpr known
      cases none.symm.trans same
    exact ⟨[], _, rfl, .empty, Or.inr (Or.inr ⟨c, rest, rfl, unknown, rfl⟩)⟩
  | case4 c rest meant known ih =>
    rcases exceptBindError.mp failed with early | ⟨_, _, done⟩
    · obtain ⟨body, rest, rfl, content, why⟩ := ih early
      exact ⟨'\\' :: c :: body, rest, rfl, .escape ((escapeKnown c).mp ⟨meant, known⟩) content, why⟩
    · cases done
  | case5 rest =>
    cases failed
    exact ⟨[], '\n' :: rest, rfl, .empty, Or.inl ⟨fun _ head => (Option.some.inj head).symm, rfl⟩⟩
  | case6 => cases failed
  | case7 c rest notEnd notEscape line other ih =>
    rcases exceptBindError.mp failed with early | ⟨_, _, done⟩
    · obtain ⟨body, rest, rfl, content, why⟩ := ih early
      have free : c ∉ [mark, '\\', '\n'] := by simp [other, line, notBackslash notEnd notEscape]
      exact ⟨c :: body, rest, rfl, .plain free content, why⟩
    · cases done

theorem lexemeExplains {c : Char} {rest : List Char} {blame : Blame} (failed : lexeme c rest = .error blame) :
    Explains blame.fault (c :: rest) blame.rest := by
  unfold lexeme at failed
  split at failed
  · cases failed
  · split at failed
    · rename_i quote
      rcases exceptBindError.mp failed with early | ⟨_, _, done⟩
      · obtain ⟨body, left, rfl, content, why⟩ := splitStringBreaks early
        rcases why with ⟨stop, rfl⟩ | ⟨rfl, rfl⟩ | ⟨d, more, rfl, unknown, rfl⟩
        · exact .string quote content stop
        · exact .cut quote content
        · exact .escape quote content unknown
      · cases done
    · split at failed
      · cases failed
      · split at failed
        · cases failed
        · cases failed
          exact .character

theorem lexemeUnreadable {c : Char} {rest : List Char} {blame : Blame} (line : c ≠ '\n')
    (blank : Scanner.isBlank c = false) (failed : lexeme c rest = .error blame) : Unreadable (c :: rest) := by
  intro front tail same word
  obtain ⟨d, more, rfl⟩ := List.exists_cons_of_ne_nil word.ne
  cases same
  obtain ⟨l, ok, _⟩ := word.lexeme line blank tail
  cases failed.symm.trans ok

section Cut
variable {left tail : List Char}

theorem splitNumberCut {source : List Char} (ends : (splitNumber source).2 = left ++ tail) :
    splitNumber ((splitNumber source).1 ++ left) = ((splitNumber source).1, left) := by
  have digits : Numeral.Plain (source.takeWhile Char.isDigit) := List.all_eq_true.mp List.all_takeWhile
  have stops : ∀ text : List Char, text.dropWhile Char.isDigit = left ++ tail →
      ∀ c ∈ left.head?, c.isDigit = false := by
    intro text same c head
    have stop := Text.dropWhileHead Char.isDigit text
    rw [same, List.head?_append, Option.mem_def.mp head] at stop
    exact stop c rfl
  generalize same : splitNumber source = parts at ends
  unfold splitNumber at same
  dsimp only at same
  split at same
  · rename_i c rest point
    split at same
    · rename_i digit
      subst same
      have more : Numeral.Plain ((c :: rest).takeWhile Char.isDigit) := List.all_eq_true.mp List.all_takeWhile
      exact splitPoint digits more (by simp [digit]) (stops _ ends)
    · rename_i noDigit
      subst same
      refine splitDigits digits (stops _ (point.trans ends)) fun d more same => ?_
      rw [same] at ends
      cases ends
      exact Bool.eq_false_iff.mpr noDigit
  · rename_i noPoint
    subst same
    refine splitDigits digits (stops _ ends) fun d more same => ?_
    rw [same] at ends
    exact absurd ends (noPoint d _)

theorem marksCut {text raw : List Char} {kind : Kind}
    (found : Kind.marks.find? (fun mark => mark.1.isPrefixOf text) = some (raw, kind))
    (whole : raw ++ (left ++ tail) = text) :
    Kind.marks.find? (fun mark => mark.1.isPrefixOf (raw ++ left)) = some (raw, kind) := by
  obtain ⟨_, before, after, table, others⟩ := List.find?_eq_some_iff_append.mp found
  refine List.find?_eq_some_iff_append.mpr ⟨?_, before, after, table, fun entry member => ?_⟩
  · exact List.isPrefixOf_iff_prefix.mpr (List.prefix_append _ _)
  · have other := others entry member
    rw [Bool.not_eq_true', Bool.eq_false_iff] at other ⊢
    intro front
    have longer : raw ++ left <+: text := ⟨tail, by rw [List.append_assoc, whole]⟩
    exact other (List.isPrefixOf_iff_prefix.mpr ((List.isPrefixOf_iff_prefix.mp front).trans longer))

theorem lexemeCut {c : Char} {kind : Kind} {value more : List Char}
    (ok : lexeme c (more ++ (left ++ tail)) = .ok ⟨kind, value, c :: more, left ++ tail⟩) :
    lexeme c (more ++ left) = .ok ⟨kind, value, c :: more, left⟩ := by
  cases digit : c.isDigit with
  | true =>
    rw [lexemeNumber digit, Except.ok.injEq, Lexeme.mk.injEq] at ok
    obtain ⟨rfl, same, raw, ends⟩ := ok
    have cut := splitNumberCut ends
    rw [raw, List.cons_append] at cut
    rw [lexemeNumber digit, cut, ← same, raw]
  | false =>
    by_cases quote : c = '"' ∨ c = '\''
    · simp only [lexeme, digit, quote, if_true, Bool.false_eq_true, if_false] at ok ⊢
      obtain ⟨⟨text, read, after⟩, split, same⟩ := exceptBindOk.mp ok
      cases same
      rw [splitStringAgain split (c :: (read ++ left)) left]
      rfl
    · cases start : isWordStart c with
      | true =>
        rw [lexemeWord start, Except.ok.injEq, Lexeme.mk.injEq] at ok
        obtain ⟨rfl, same, raw, ends⟩ := ok
        have parts : ∀ d ∈ c :: more, isWordPart d = true := by
          rw [← raw]
          exact List.all_eq_true.mp List.all_takeWhile
        have stop : ∀ d ∈ left.head?, isWordPart d = false := by
          intro d head
          have stops := Text.dropWhileHead isWordPart (c :: (more ++ (left ++ tail)))
          rw [ends, List.head?_append, Option.mem_def.mp head] at stops
          exact stops d rfl
        have front := Text.takeWhileStop parts stop
        have back := Text.dropWhileStop parts stop
        rw [List.cons_append] at front back
        rw [lexemeWord start, front, back, ← same, raw]
      | false =>
        simp only [lexeme, digit, quote, start, Bool.false_eq_true, if_false] at ok ⊢
        split at ok
        · rename_i raw found kind' search
          rw [Except.ok.injEq, Lexeme.mk.injEq] at ok
          obtain ⟨rfl, rfl, rfl, ends⟩ := ok
          have cut := marksCut search rfl
          rw [List.cons_append] at cut
          rw [cut]
          simp
        · cases ok

end Cut

namespace Scanner

variable {s s' : Scanner} {t : Token} {tokens : List Token}

theorem runStops {blame : Blame} (fails : s.run.2 = .error blame) :
    ∃ s', Path s (s.run.1.map Found.token) s' ∧ s'.step = .failed blame := by
  fun_induction Scanner.run s with
  | case1 => cases fails
  | case2 s s' skipped ih =>
    obtain ⟨stuck, path, failed⟩ := ih fails
    exact ⟨stuck, .skip skipped path, failed⟩
  | case3 s blame failed =>
    cases fails
    exact ⟨s, .here, failed⟩
  | case4 s t s' found tail ih =>
    obtain ⟨stuck, path, failed⟩ := ih fails
    exact ⟨stuck, .token found path, failed⟩

def reading (s : Scanner) (text : List Char) : Scanner := { s with rest := text }

theorem Gap.cut {used left tail : List Char} (gap : Gap s used (left ++ tail)) (text : List Char) :
    Gap (s.reading text) used left := by
  cases gap with
  | newline continues => exact .newline continues
  | blank blank => exact .blank blank
  | comment oneLine stop =>
    refine .comment oneLine fun c head => stop c ?_
    rw [List.head?_append, Option.mem_def.mp head]
    rfl

theorem skippedCut (skipped : s.step = .skipped s') {left tail : List Char}
    (rest : s'.rest = left ++ tail) :
    ∃ used, s.rest = used ++ (left ++ tail) ∧ (s.reading (used ++ left)).step = .skipped (s'.reading left) := by
  obtain ⟨used, after, text, gap, rfl⟩ := skippedCases skipped
  cases rest
  exact ⟨used, text, stepGap rfl (gap.cut _)⟩

theorem tokenCut (found : s.step = .token t s') {left tail : List Char} (rest : s'.rest = left ++ tail) :
    ∃ used, s.rest = used ++ (left ++ tail) ∧ (s.reading (used ++ left)).step = .token t (s'.reading left) := by
  rcases tokenCases found with ⟨after, text, ends, rfl, rfl⟩ |
    ⟨c, after, ⟨kind, value, raw, behind⟩, text, ok, rfl, rfl⟩
  · cases rest
    exact ⟨['\n'], text, stepLine rfl ends⟩
  · cases rest
    obtain ⟨whole, nonempty⟩ := lexemeAppend ok
    obtain ⟨d, more, rfl⟩ := List.exists_cons_of_ne_nil nonempty
    cases whole
    have noComment : ¬ (c = '/' ∧ (more ++ left).head? = some '/') := by
      intro comment
      refine tokenNoComment text found ⟨comment.1, ?_⟩
      have head : (more ++ left ++ tail).head? = some '/' := by
        rw [List.head?_append, comment.2]
        rfl
      rwa [List.append_assoc] at head
    exact ⟨c :: more, text, stepWord (s := s.reading (c :: (more ++ left))) rfl (lexemeCut ok) noComment⟩

theorem Path.cut (path : Path s tokens s') :
    ∃ used, s.rest = used ++ s'.rest ∧ Path (s.reading used) tokens (s'.reading []) := by
  induction path with
  | here => exact ⟨[], rfl, .here⟩
  | skip step _ ih =>
    obtain ⟨later, text, path⟩ := ih
    obtain ⟨used, whole, again⟩ := skippedCut step text
    exact ⟨used ++ later, by rw [whole, List.append_assoc], .skip again path⟩
  | token step _ ih =>
    obtain ⟨later, text, path⟩ := ih
    obtain ⟨used, whole, again⟩ := tokenCut step text
    exact ⟨used ++ later, by rw [whole, List.append_assoc], .token again path⟩

end Scanner

theorem tokenizeBefore {source : String} {tokens : List Token} {s : Scanner}
    (path : Scanner.Path (Scanner.start source.toList) tokens s) :
    ∃ used, source.toList = used ++ s.rest ∧
      tokenize (String.ofList used) = .ok ⟨tokens, ⟨.eof, "", "", used.length, s.position.place⟩⟩ := by
  obtain ⟨used, whole, shorter⟩ := path.cut
  obtain ⟨used', whole', position⟩ := path.split
  have same : used' = used := List.append_cancel_right (whole'.symm.trans whole)
  have offset : s.position.offset = used.length := by
    rw [position, Position.afterOffset, same, Position.start, Nat.zero_add]
  have path' : Scanner.Path (Scanner.start (String.ofList used).toList) tokens (s.reading []) := by
    rw [String.toList_ofList]
    exact shorter
  refine ⟨used, whole, ?_⟩
  rw [tokenizePath path' rfl, ← offset]
  rfl

theorem tokenizeError {source : String} {e : CompileError} (failed : tokenize source = .error e) :
    ∃ blame, (Scanner.start source.toList).run.2 = .error blame ∧ e = .token (blame.toError source) := by
  unfold tokenize scan at failed
  dsimp only at failed
  cases ends : (Scanner.start source.toList).run.2 with
  | ok final =>
    rw [ends] at failed
    cases failed
  | error blame =>
    rw [ends] at failed
    cases failed
    exact ⟨blame, rfl, rfl⟩

structure StuckAt (source : String) (error : Error) (offset : Nat) : Prop where
  of : error.source = source
  before : ∃ place, tokenize (String.ofList (source.toList.take offset)) =
    .ok ⟨(Scanner.start source.toList).run.1.map Scanner.Found.token, ⟨.eof, "", "", offset, place⟩⟩
  unreadable : Unreadable (source.toList.drop offset)
  notBefore : offset ≤ error.offset
  inside : error.offset < source.length
  here : error.fault ≠ .unterminatedEscape → (∀ c, error.fault ≠ .unknownEscape c) → error.offset = offset
  explained : Explains error.fault (source.toList.drop offset) (source.toList.drop error.offset)

theorem failedStuck {source : String} {blame : Blame}
    (failed : (Scanner.start source.toList).run.2 = .error blame) :
    ∃ offset, StuckAt source (blame.toError source) offset := by
  obtain ⟨s, path, stuck⟩ := Scanner.runStops failed
  obtain ⟨c, rest, text, line, blank, _, wrong⟩ := Scanner.failedCases stuck
  have explains := lexemeExplains wrong
  obtain ⟨front, split, nonempty, here⟩ := explains.suffix
  obtain ⟨used, whole, before⟩ := tokenizeBefore path
  have source' : source.toList = used ++ (front ++ blame.rest) := by
    rw [← split, ← text]
    exact whole
  have length : source.length = used.length + (front.length + blame.rest.length) := by
    rw [← String.length_toList, source', List.length_append, List.length_append]
  have offset : (blame.toError source).offset = used.length + front.length := by
    have behind : (blame.toError source).offset = source.length - blame.rest.length := rfl
    omega
  have atFault : source.toList.drop (used.length + front.length) = blame.rest := by
    rw [source', ← List.append_assoc, ← List.length_append, List.drop_left]
  have stuckHere : source.toList.drop used.length = c :: rest := by
    rw [source', List.drop_left, split]
  refine ⟨used.length, rfl, ⟨s.position.place, ?_⟩, ?_, ?_, ?_, fun cut escape => ?_, ?_⟩
  · rw [source', List.take_left, before, ← source']
  · rw [stuckHere]
    exact lexemeUnreadable line blank wrong
  · rw [offset]
    exact Nat.le_add_right _ _
  · have positive := List.length_pos_iff.mpr nonempty
    omega
  · rw [offset, here cut escape, List.length_nil, Nat.add_zero]
  · rw [offset, stuckHere, atFault]
    exact explains

theorem refusedWhereUnreadable (source : String) :
    ((∃ stream, tokenize source = .ok stream) ↔ Splits source.toList) ∧
      ∀ e, tokenize source = .error e → ∃ error offset, e = .token error ∧ StuckAt source error offset := by
  refine ⟨tokenizeSplits source, fun e failed => ?_⟩
  obtain ⟨blame, ends, rfl⟩ := tokenizeError failed
  obtain ⟨offset, stuck⟩ := failedStuck ends
  exact ⟨_, offset, rfl, stuck⟩

def brokenNote : String := "total=>1.5.x // 'sum\nnote == 'it\\'s \\q'"

theorem refusedWhereUnreadableNote :
    ¬ Splits brokenNote.toList ∧ (∃ offset, StuckAt brokenNote ⟨.unknownEscape 'q', 36, brokenNote⟩ offset) ∧
      ∃ offset, StuckAt "a &b" ⟨.invalidCharacter '&', 2, "a &b"⟩ offset := by
  have note : tokenize brokenNote = .error (.token ⟨.unknownEscape 'q', 36, brokenNote⟩) := by decide +kernel
  have mark : tokenize "a &b" = .error (.token ⟨.invalidCharacter '&', 2, "a &b"⟩) := by decide +kernel
  refine ⟨fun splits => ?_, ?_, ?_⟩
  · obtain ⟨stream, ok⟩ := (refusedWhereUnreadable brokenNote).1.mpr splits
    cases note.symm.trans ok
  · obtain ⟨error, offset, same, stuck⟩ := (refusedWhereUnreadable brokenNote).2 _ note
    cases same
    exact ⟨offset, stuck⟩
  · obtain ⟨error, offset, same, stuck⟩ := (refusedWhereUnreadable "a &b").2 _ mark
    cases same
    exact ⟨offset, stuck⟩

end Scriptlet.Token
