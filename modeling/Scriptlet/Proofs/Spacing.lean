import Scriptlet.Proofs.Layout
import Scriptlet.Proofs.Wording

/-! The text between tokens says nothing. A source and the raw texts of its tokens, with one blank
between any two, have the same tokens, and are read as the same tree or refused with the same complaint. -/
namespace Scriptlet

namespace Token

section Again
variable {after : List Char}

theorem splitPoint {whole fraction : List Char} (digits : Numeral.Plain whole)
    (more : Numeral.Plain fraction) (some : fraction ≠ []) (stop : ∀ c ∈ after.head?, c.isDigit = false) :
    splitNumber (whole ++ '.' :: fraction ++ after) = (whole ++ '.' :: fraction, after) := by
  obtain ⟨d, rest, rfl⟩ := List.exists_cons_of_ne_nil some
  have front := Text.takeWhileStop more stop
  have back := Text.dropWhileStop more stop
  have digit : d.isDigit = true := more d List.mem_cons_self
  have whole' : (whole ++ '.' :: (d :: rest) ++ after).takeWhile Char.isDigit = whole := by
    rw [List.append_assoc, List.takeWhile_append_of_pos digits]
    simp [Char.isDigit]
  have point : (whole ++ '.' :: (d :: rest) ++ after).dropWhile Char.isDigit = '.' :: d :: (rest ++ after) := by
    rw [List.append_assoc, List.dropWhile_append_of_pos digits]
    simp [Char.isDigit]
  unfold splitNumber
  rw [List.cons_append] at front back
  simp only [whole', point, digit, if_true, front, back]

theorem splitNumberAgain (source : List Char) (fresh : Fresh after) :
    splitNumber ((splitNumber source).1 ++ after) = ((splitNumber source).1, after) := by
  have digits : Numeral.Plain (source.takeWhile Char.isDigit) := List.all_eq_true.mp List.all_takeWhile
  generalize same : splitNumber source = parts
  unfold splitNumber at same
  dsimp only at same
  split at same
  · rename_i c rest _
    split at same
    · rename_i digit
      subst same
      have more : Numeral.Plain ((c :: rest).takeWhile Char.isDigit) := List.all_eq_true.mp List.all_takeWhile
      exact splitPoint digits more (by simp [digit]) (fresh.stop fun _ => digitPart)
    · subst same
      exact splitWhole digits fresh
  · subst same
    exact splitWhole digits fresh

theorem notBackslash {c : Char} {rest : List Char} (notEnd : c = '\\' → rest = [] → False)
    (notEscape : ∀ d more, c = '\\' → rest = d :: more → False) : c ≠ '\\' := by
  intro same
  cases rest with
  | nil => exact notEnd same rfl
  | cons d more => exact notEscape d more same rfl

theorem splitStringAgain {mark : Char} {opening source value raw left : List Char}
    (ok : splitString mark opening source = .ok (value, raw, left)) (opening' after : List Char) :
    splitString mark opening' (raw ++ after) = .ok (value, raw, after) := by
  fun_induction splitString mark opening source generalizing value raw left with
  | case1 => cases ok
  | case2 => cases ok
  | case3 => cases ok
  | case4 c rest meant known ih =>
    obtain ⟨⟨v, r, a⟩, tail, same⟩ := exceptBindOk.mp ok
    cases same
    simp [splitString, known, ih tail, bind, Except.bind]
  | case5 => cases ok
  | case6 rest notEnd notEscape line =>
    cases ok
    simp [splitString, line, notBackslash notEnd notEscape]
  | case7 c rest notEnd notEscape line other ih =>
    obtain ⟨⟨v, r, a⟩, tail, same⟩ := exceptBindOk.mp ok
    cases same
    simp [splitString, line, other, notBackslash notEnd notEscape, ih tail, bind, Except.bind]

theorem lexemeAgain {c : Char} {rest : List Char} {l : Lexeme} (ok : lexeme c rest = .ok l)
    (fresh : Fresh after) : Lexes l.raw l.kind l.value after := by
  rcases lexemeCases ok with ⟨digit, kind, raw, value⟩ | ⟨raw, quote, tail, kind, same⟩ |
    ⟨start, kind, raw, value⟩ | ⟨mark, value⟩
  · obtain ⟨whole, some⟩ := lexemeAppend ok
    obtain ⟨d, more, same⟩ := List.exists_cons_of_ne_nil some
    rw [same, List.cons_append] at whole
    cases whole
    have split := splitNumberAgain (c :: (more ++ l.rest)) fresh
    rw [← raw, same] at split
    rw [value, kind, same]
    exact splitLexes digit split
  · have again := splitStringAgain tail (c :: (raw ++ after)) after
    rw [kind, same]
    refine ⟨c, raw, rfl, ?_, ?_⟩
    · rcases quote with rfl | rfl <;> simp [lexeme, again, bind, Except.bind]
    · rcases quote with rfl | rfl <;> simp
  · rw [value, kind, raw, List.takeWhile_cons_of_pos (isWordPartOfStart start)]
    exact wordLexes start (List.all_eq_true.mp List.all_takeWhile) fresh
  · rw [value]
    exact markLexes mark fun _ => fresh

end Again

def spaced (tokens : List Token) : List Char := [' '].intercalate (tokens.map (·.raw.toList))

def spacedOn : List Token → List Char
  | [] => []
  | t :: more => ' ' :: spaced (t :: more)

theorem spacedCons (t : Token) (tokens : List Token) : spaced (t :: tokens) = t.raw.toList ++ spacedOn tokens := by
  cases tokens with
  | nil => simp [spaced, spacedOn]
  | cons u more =>
    rw [spaced, List.map_cons, List.map_cons, List.intercalate_cons_cons, List.append_assoc]
    rfl

theorem spacedOnFresh (tokens : List Token) : Fresh (spacedOn tokens) := by
  cases tokens with
  | nil => exact .nil
  | cons t more => exact .cons (by decide)

def Stream.spaced (stream : Stream) : String := " ".intercalate (stream.body.map Token.raw)

theorem Stream.spacedChars (stream : Stream) : stream.spaced.toList = Token.spaced stream.body := by
  rw [Stream.spaced, String.toList_intercalate, List.map_map]
  rfl

namespace Scanner

theorem pathBlank {s : Scanner} {tokens : List Token} (text : s.rest = spacedOn tokens) :
    ∃ s', Path s [] s' ∧ s'.mode = s.mode ∧ s'.rest = spaced tokens := by
  cases tokens with
  | nil => exact ⟨s, .here, rfl, text⟩
  | cons t more =>
    exact ⟨s.pass [' '] (spaced (t :: more)), .skipped (stepBlank text rfl), rfl, rfl⟩

def Says (s : Scanner) (tokens : List Token) : Prop :=
  ∃ tokens' final, Path s tokens' final ∧ final.rest = [] ∧ Parse.AllAlike tokens tokens'

theorem Says.cons {s s' : Scanner} {t t' : Token} {tokens : List Token} (step : s.step = .token t' s')
    (alike : t.Alike t') (text : s'.rest = spacedOn tokens)
    (more : ∀ next : Scanner, next.mode = s'.mode → next.rest = spaced tokens → Says next tokens) :
    Says s (t :: tokens) := by
  obtain ⟨next, path, mode, rest⟩ := pathBlank text
  obtain ⟨tokens', final, path', empty, all⟩ := more next mode rest
  exact ⟨t' :: tokens', final, .token step (path.trans path'), empty, .cons alike all⟩

/- By induction on the first scan, with both scans in the same mode. A gap is dropped, and a token is
found again in front of the blank that follows it now. -/
theorem Scans.again {s final : Scanner} {tokens : List Token} (scans : Scans s tokens final) {s' : Scanner}
    (mode : s'.mode = s.mode) (text : s'.rest = spaced tokens) : Says s' tokens := by
  induction scans generalizing s' with
  | done _ => exact ⟨[], s', .here, text, .nil⟩
  | gap _ _ _ ih => exact ih mode text
  | @newline s rest tokens final _ ends _ ih =>
    have line : s'.rest = '\n' :: spacedOn tokens := by
      have raw : s.newlineToken.raw.toList = ['\n'] := (by decide : "\n".toList = ['\n'])
      rw [text, spacedCons, raw]
      rfl
    have stops : s'.continues = false := by
      have same : s'.continues = s'.mode.continues := rfl
      rw [same, mode]
      exact ends
    exact .cons (stepLine line stops) ⟨rfl, rfl, rfl⟩ rfl fun next same rest => ih (same.trans mode) rest
  | @word s c rest l tokens final _ ok _ ih =>
    rw [spacedCons, wordToken, String.toList_ofList] at text
    obtain ⟨d, more, raw, found, noComment⟩ := lexemeAgain ok (spacedOnFresh tokens)
    rw [raw] at text
    have read : s'.mode.read l.kind = s.mode.read l.kind := by rw [mode]
    exact .cons (stepWord text found noComment) ⟨rfl, rfl, rfl⟩ rfl fun next same rest => ih (same.trans read) rest

end Scanner

def wording (t : Token) : Kind × String × String := (t.kind, t.value, t.raw)

theorem wordingAlike {tokens tokens' : List Token} (alike : Parse.AllAlike tokens tokens') :
    tokens.map wording = tokens'.map wording := by
  induction alike with
  | nil => rfl
  | cons head _ ih => rw [List.map_cons, List.map_cons, ih, wording, wording, head.kind, head.value, head.raw]

theorem tokenizeAgain {source : String} {stream : Stream} (ok : tokenize source = .ok stream) :
    ∃ stream', tokenize stream.spaced = .ok stream' ∧ Parse.AllAlike stream.body stream'.body ∧
      stream.stop.Alike stream'.stop := by
  obtain ⟨final, scans, stop⟩ := tokenizeScans ok
  have start : (Scanner.start stream.spaced.toList).mode = (Scanner.start source.toList).mode := rfl
  obtain ⟨tokens, final', path, empty, alike⟩ := scans.again start stream.spacedChars
  refine ⟨⟨tokens, final'.endToken⟩, tokenizePath path empty, alike, ?_⟩
  rw [stop]
  exact ⟨rfl, rfl, rfl⟩

end Token

namespace Parse

inductive SameOutcome : Except CompileError Node → Except CompileError Node → Prop where
  | trees {x y} (same : x.same y = true) (unopposed : ∀ limit, x.compare limit y ≠ some false) :
      SameOutcome (.ok x) (.ok y)
  | complaints {e e'} (alike : e.Alike e') : SameOutcome (.error (.parse e)) (.error (.parse e'))

theorem streamOutcome {stream stream' : Token.Stream} (body : AllAlike stream.body stream'.body)
    (ends : stream.stop.Alike stream'.stop) (depth : Nat) (source source' : String) :
    SameOutcome (stream.parse depth source) (stream'.parse depth source') := by
  have answers := programEchoes depth _ _ body
  unfold Token.Stream.parse
  generalize program depth stream.body = result, program depth stream'.body = result' at answers
  cases answers with
  | ok twin _ => exact .trees twin.same fun _ => Node.compareSame twin.same
  | failed fails =>
    obtain ⟨g, failed, alike⟩ := fails
    obtain rfl := leftError failed
    exact .complaints (alike.error ends source source')

theorem spacingIsSilent {source : String} {stream : Token.Stream} (tokens : tokenize source = .ok stream) :
    ∃ stream', tokenize stream.spaced = .ok stream' ∧
      stream'.toList.map Token.wording = stream.toList.map Token.wording ∧
      ∀ depth, SameOutcome (parse depth source) (parse depth stream.spaced) := by
  obtain ⟨stream', tokens', body, stop⟩ := Token.tokenizeAgain tokens
  have alike : AllAlike stream.toList stream'.toList := List.rel_append body (.cons stop .nil)
  refine ⟨stream', tokens', (Token.wordingAlike alike).symm, fun depth => ?_⟩
  unfold parse
  rw [tokens, tokens']
  exact streamOutcome body stop depth source stream.spaced

def looseSource : String := "a=>\x7b // halves\n b=(1.5/\n2)// of it\n\n\tb .c\x7d"

def evenSource : String := "a => \x7b b = ( 1.5 / 2 ) \n \n b . c \x7d"

def detachedSource : String := "f(// first\n1 .5)"

theorem spacingIsSilentLoose :
    (∃ stream, tokenize looseSource = .ok stream ∧ stream.spaced = evenSource ∧
      ∃ tree tree', parse 9 looseSource = .ok tree ∧ parse 9 evenSource = .ok tree' ∧ tree.same tree' = true) ∧
    ∃ stream e e', tokenize detachedSource = .ok stream ∧ stream.spaced = "f ( 1 . 5 )" ∧
      parse 9 detachedSource = .error (.parse e) ∧ parse 9 "f ( 1 . 5 )" = .error (.parse e') ∧
      e.diagnostic.text = e'.diagnostic.text := by
  constructor
  · have even : (tokenize looseSource).toOption.any (·.spaced = evenSource) = true := by decide +kernel
    have accepted : (parse 9 looseSource).toOption.isSome = true := by decide +kernel
    obtain ⟨stream, tokens, same⟩ := okOfAny even
    have spaced := of_decide_eq_true same
    obtain ⟨_, _, _, outcome⟩ := spacingIsSilent tokens
    have outcome := spaced ▸ outcome 9
    refine ⟨stream, tokens, spaced, ?_⟩
    generalize parse 9 looseSource = loose, parse 9 evenSource = even at outcome accepted
    cases outcome with
    | trees equal _ => exact ⟨_, _, rfl, rfl, equal⟩
    | complaints _ => cases accepted
  · have even : (tokenize detachedSource).toOption.any (·.spaced = "f ( 1 . 5 )") = true := by decide +kernel
    have refused : (parse 9 detachedSource).toOption.isSome = false := by decide +kernel
    obtain ⟨stream, tokens, same⟩ := okOfAny even
    have spaced := of_decide_eq_true same
    obtain ⟨_, _, _, outcome⟩ := spacingIsSilent tokens
    have outcome := spaced ▸ outcome 9
    generalize parse 9 detachedSource = broken, parse 9 "f ( 1 . 5 )" = even at outcome refused
    cases outcome with
    | trees _ _ => cases refused
    | complaints alike => exact ⟨stream, _, _, tokens, spaced, rfl, rfl, alike.text⟩

end Parse

end Scriptlet
