import Scriptlet.Proofs.NewlineRuns
import Scriptlet.Proofs.Spacing

/-! A line without a token may be put in after any line break. A scan does not look beyond the end of a
line, and it goes on after a line break in the mode in which it came to it, so one more line break counts, or
not, as the one before it does. -/
namespace Scriptlet

namespace Token
open Parse (SameLines AllAlike)

section Lines
variable (after : List Char)

theorem takeWhileLine {test : Char → Bool} (stops : test '\n' = false) (text : List Char) :
    (text ++ '\n' :: after).takeWhile test = text.takeWhile test := by
  induction text with
  | nil => simp [stops]
  | cons c text ih => rw [List.cons_append, List.takeWhile_cons, List.takeWhile_cons, ih]

theorem dropWhileLine {test : Char → Bool} (stops : test '\n' = false) (text : List Char) :
    (text ++ '\n' :: after).dropWhile test = text.dropWhile test ++ '\n' :: after := by
  induction text with
  | nil => simp [stops]
  | cons c text ih =>
    rw [List.cons_append, List.dropWhile_cons, List.dropWhile_cons, ih]
    split <;> rfl

theorem splitNumberLine (text : List Char) :
    splitNumber (text ++ '\n' :: after) = ((splitNumber text).1, (splitNumber text).2 ++ '\n' :: after) := by
  have stops : Char.isDigit '\n' = false := rfl
  unfold splitNumber
  rw [takeWhileLine after stops, dropWhileLine after stops]
  generalize text.dropWhile Char.isDigit = rest
  cases rest with
  | nil => rfl
  | cons c more =>
    by_cases point : c = '.'
    · subst point
      cases more with
      | nil => rfl
      | cons d more =>
        have front := takeWhileLine after stops (d :: more)
        have back := dropWhileLine after stops (d :: more)
        simp only [List.cons_append] at front back ⊢
        split
        · rw [front, back]
        · rfl
    · simp [point]

theorem toOptionBind {ε α β : Type} (x : Except ε α) (f : α → Except ε β) :
    (x >>= f).toOption = x.toOption.bind fun a => (f a).toOption := by
  cases x with
  | error e => rfl
  | ok a => rfl

theorem splitStringLine (mark : Char) (opening opening' text : List Char) :
    (splitString mark opening' (text ++ '\n' :: after)).toOption =
      (splitString mark opening text).toOption.map fun found => (found.1, found.2.1, found.2.2 ++ '\n' :: after) := by
  fun_induction splitString mark opening text with
  | case1 => rfl
  | case2 => rfl
  | case3 c rest unknown =>
    rw [List.cons_append, List.cons_append, splitString, unknown]
    rfl
  | case4 c rest meant known ih =>
    rw [List.cons_append, List.cons_append, splitString, known]
    simp only [toOptionBind, ih]
    cases (splitString mark opening rest).toOption <;> rfl
  | case5 => rfl
  | case6 rest notEnd notEscape line =>
    simp [splitString, line, notBackslash notEnd notEscape, Except.toOption]
  | case7 c rest notEnd notEscape line other ih =>
    have unfolded : splitString mark opening' (c :: rest ++ '\n' :: after) =
        (splitString mark opening' (rest ++ '\n' :: after) >>= fun found =>
          .ok (c :: found.1, c :: found.2.1, found.2.2)) := by
      simp [splitString, line, other, notBackslash notEnd notEscape]
    rw [unfolded, toOptionBind, toOptionBind, ih]
    cases (splitString mark opening rest).toOption <;> rfl

def Lexeme.onward (l : Lexeme) : Lexeme := { l with rest := l.rest ++ '\n' :: after }

theorem prefixLine {mark : List Char} (oneLine : '\n' ∉ mark) (text : List Char) :
    mark.isPrefixOf (text ++ '\n' :: after) = mark.isPrefixOf text := by
  induction mark generalizing text with
  | nil => simp
  | cons m mark ih =>
    rw [List.mem_cons, not_or] at oneLine
    cases text with
    | nil => simp [List.isPrefixOf, Ne.symm oneLine.1]
    | cons c text => rw [List.cons_append, List.isPrefixOf, List.isPrefixOf, ih oneLine.2]

theorem marksLine (text : List Char) :
    (Kind.marks.find? fun mark => mark.1.isPrefixOf (text ++ '\n' :: after)) =
      Kind.marks.find? fun mark => mark.1.isPrefixOf text := by
  have table : ∀ entry ∈ Kind.marks, '\n' ∉ entry.1 := by decide
  rw [← List.head?_filter, ← List.head?_filter,
    List.filter_congr fun entry member => prefixLine after (table entry member) text]

theorem lexemeLine (c : Char) (rest : List Char) :
    (lexeme c (rest ++ '\n' :: after)).toOption = (lexeme c rest).toOption.map (Lexeme.onward after) := by
  unfold lexeme
  split
  · rw [← List.cons_append, splitNumberLine]
    rfl
  · split
    · simp only [toOptionBind, splitStringLine after c (c :: rest)]
      cases (splitString c (c :: rest) rest).toOption <;> rfl
    · split
      · rename_i start
        rw [← List.cons_append, takeWhileLine after rfl, dropWhileLine after rfl]
        rfl
      · rw [← List.cons_append, marksLine]
        split
        · rename_i raw kind found
          have fits : raw.length ≤ (c :: rest).length := by
            have front := List.find?_some found
            rw [List.isPrefixOf_iff_prefix] at front
            exact front.length_le
          rw [List.drop_append_of_le_length fits]
          rfl
        · rfl

theorem lexemeOnward {c : Char} {rest : List Char} {l : Lexeme} (ok : lexeme c rest = .ok l) :
    lexeme c (rest ++ '\n' :: after) = .ok (l.onward after) := by
  have line := lexemeLine after c rest
  rw [ok] at line
  generalize lexeme c (rest ++ '\n' :: after) = result at line
  cases result with
  | error blame => cases line
  | ok l' => exact congrArg _ (Option.some.inj line)

end Lines

namespace Scanner

variable {s s' final : Scanner} {t : Token} {tokens : List Token} {used rest : List Char}

def onward (after : List Char) (s : Scanner) : Scanner := { s with rest := s.rest ++ '\n' :: after }

section Onward
variable (after : List Char)

theorem noCommentLine {c : Char} (noComment : ¬ (c = '/' ∧ rest.head? = some '/')) :
    ¬ (c = '/' ∧ (rest ++ '\n' :: after).head? = some '/') := by
  cases rest with
  | nil => simp
  | cons d rest => exact noComment

theorem Gap.onward (gap : Gap s used rest) : Gap (s.onward after) used (rest ++ '\n' :: after) := by
  cases gap with
  | newline continues => exact .newline continues
  | blank blank => exact .blank blank
  | comment oneLine stop =>
    refine .comment oneLine fun c head => ?_
    cases rest with
    | nil => exact (Option.some.inj head).symm
    | cons d rest => exact stop c head

theorem skippedOnward (skipped : s.step = .skipped s') : (s.onward after).step = .skipped (s'.onward after) := by
  obtain ⟨used, rest, text, gap, rfl⟩ := skippedCases skipped
  have longer : (s.onward after).rest = used ++ (rest ++ '\n' :: after) := by
    rw [Scanner.onward, text, List.append_assoc]
  exact stepGap longer (gap.onward after)

theorem tokenOnward (found : s.step = .token t s') : (s.onward after).step = .token t (s'.onward after) := by
  rcases tokenCases found with ⟨rest, text, ends, rfl, rfl⟩ | ⟨c, rest, l, text, ok, rfl, rfl⟩
  · have longer : (s.onward after).rest = '\n' :: (rest ++ '\n' :: after) := by rw [Scanner.onward, text]; rfl
    exact stepLine longer ends
  · have noComment := tokenNoComment text found
    have longer : (s.onward after).rest = c :: (rest ++ '\n' :: after) := by rw [Scanner.onward, text]; rfl
    exact stepWord longer (lexemeOnward after ok) (noCommentLine after noComment)

theorem failedOnward {blame : Blame} (failed : s.step = .failed blame) :
    ∃ blame', (s.onward after).step = .failed blame' := by
  obtain ⟨c, rest, text, line, blank, noComment, wrong⟩ := failedCases failed
  have again := lexemeLine after c rest
  rw [wrong] at again
  unfold step
  rw [Scanner.onward, text]
  simp only [List.cons_append, line, blank, noCommentLine after noComment, if_false, Bool.false_eq_true]
  generalize lexeme c (rest ++ '\n' :: after) = result at again
  cases result with
  | error blame' => exact ⟨blame', rfl⟩
  | ok l => cases again

theorem Path.onward (path : Path s tokens final) : Path (s.onward after) tokens (final.onward after) := by
  induction path with
  | here => exact .here
  | skip step _ ih => exact .skip (skippedOnward after step) ih
  | token step _ ih => exact .token (tokenOnward after step) ih

end Onward

def tokens? (s : Scanner) : Option (List Token) := s.run.2.toOption.map fun _ => s.run.1.map Found.token

theorem tokensFinished (finished : s.step = .finished) : s.tokens? = some [] := by
  rw [tokens?, runEmpty (finishedEmpty finished)]
  rfl

theorem tokensSkipped (skipped : s.step = .skipped s') : s.tokens? = s'.tokens? := by
  rw [tokens?, runSkipped skipped, tokens?]

theorem tokensFailed {blame : Blame} (failed : s.step = .failed blame) : s.tokens? = none := by
  rw [tokens?, runFailed failed]
  rfl

theorem Path.tokens? (path : Path s tokens s') : s.tokens? = s'.tokens?.map (tokens ++ ·) := by
  obtain ⟨found, ends⟩ := path.run
  rw [Scanner.tokens?, Scanner.tokens?, found, ends, Option.map_map]
  rfl

theorem failsOnward (after : List Char) (fails : s.tokens? = none) : (s.onward after).tokens? = none := by
  induction s using Scanner.run.induct with
  | case1 s finished => cases (tokensFinished finished).symm.trans fails
  | case2 s s' skipped ih =>
    rw [tokensSkipped (skippedOnward after skipped)]
    exact ih ((tokensSkipped skipped).symm.trans fails)
  | case3 s blame failed =>
    obtain ⟨_, again⟩ := failedOnward after failed
    exact tokensFailed again
  | case4 s t s' found ih =>
    rw [(Path.single found).tokens?, Option.map_eq_none_iff] at fails
    rw [(Path.single (tokenOnward after found)).tokens?, ih fails]
    rfl

structure Alike (s s' : Scanner) : Prop where
  mode : s.mode = s'.mode
  rest : s.rest = s'.rest

inductive Step.Alike : Step → Step → Prop where
  | finished : Alike .finished .finished
  | skipped {s s' : Scanner} (state : s.Alike s') : Alike (.skipped s) (.skipped s')
  | token {t t' : Token} {s s' : Scanner} (token : t.Alike t') (state : s.Alike s') :
      Alike (.token t s) (.token t' s')
  | failed {blame : Blame} : Alike (.failed blame) (.failed blame)

theorem Alike.continues (alike : s.Alike s') : s.continues = s'.continues := congrArg Mode.continues alike.mode

theorem Alike.pass (alike : s.Alike s') (used rest : List Char) : (s.pass used rest).Alike (s'.pass used rest) :=
  ⟨alike.mode, rfl⟩

theorem Alike.passWord (alike : s.Alike s') (l : Lexeme) : (s.passWord l).Alike (s'.passWord l) :=
  ⟨congrArg (Mode.read · l.kind) alike.mode, rfl⟩

theorem Alike.step (alike : s.Alike s') : s.step.Alike s'.step := by
  unfold Scanner.step
  rw [← alike.rest, ← alike.continues]
  split
  · exact .finished
  · split
    · split
      · exact .skipped (alike.pass _ _)
      · exact .token ⟨rfl, rfl, rfl⟩ (alike.pass _ _)
    · split
      · exact .skipped (alike.pass _ _)
      · split
        · exact .skipped (alike.pass _ _)
        · split
          · exact .failed
          · exact .token ⟨rfl, rfl, rfl⟩ (alike.passWord _)

theorem relMap {α β γ δ : Type} {R : α → β → Prop} {S : γ → δ → Prop} {x : Option α} {y : Option β} {f : α → γ}
    {g : β → δ} (rel : Option.Rel R x y) (each : ∀ a b, R a b → S (f a) (g b)) :
    Option.Rel S (x.map f) (y.map g) := by
  cases rel with
  | some value => exact .some (each _ _ value)
  | none => exact .none

/- By recursion on what is left, with both scans in the same mode all the way. -/
theorem Alike.tokens? {s s' : Scanner} (alike : s.Alike s') : Option.Rel AllAlike s.tokens? s'.tokens? := by
  have steps := alike.step
  generalize here : s.step = step, there : s'.step = step' at steps
  cases steps with
  | finished =>
    rw [tokensFinished here, tokensFinished there]
    exact .some .nil
  | skipped state =>
    rw [tokensSkipped here, tokensSkipped there]
    exact state.tokens?
  | token token state =>
    rw [(Path.single here).tokens?, (Path.single there).tokens?]
    exact relMap state.tokens? fun _ _ more => .cons token more
  | failed =>
    rw [tokensFailed here, tokensFailed there]
    exact .none
termination_by s.rest.length
decreasing_by
  · exact skippedShorter here
  · exact tokenShorter here

inductive Silent : List Char → Prop where
  | empty : Silent []
  | blank {c line} (blank : isBlank c = true) (more : Silent line) : Silent (c :: line)
  | comment {line} (oneLine : '\n' ∉ line) : Silent ('/' :: '/' :: line)

theorem Silent.path {line after : List Char} (silent : Silent line) (text : s.rest = line ++ '\n' :: after) :
    ∃ s', Path s [] s' ∧ s'.mode = s.mode ∧ s'.rest = '\n' :: after := by
  induction silent generalizing s with
  | empty => exact ⟨s, .here, rfl, text⟩
  | @blank c line blank _ ih =>
    obtain ⟨s', path, same⟩ := @ih (s.pass [c] (line ++ '\n' :: after)) rfl
    exact ⟨s', .skip (stepBlank text blank) path, same⟩
  | @comment line oneLine =>
    have gap : Gap s ('/' :: '/' :: line) ('\n' :: after) :=
      .comment oneLine fun c head => (Option.some.inj head).symm
    exact ⟨_, .skipped (stepGap text gap), rfl, rfl⟩

def breakTokens (s : Scanner) : List Token := if s.continues then [] else [s.newlineToken]

theorem pathBreak (text : s.rest = '\n' :: rest) : Path s s.breakTokens (s.pass ['\n'] rest) := by
  unfold breakTokens
  split
  · rename_i continues
    exact .skipped (stepFold text continues)
  · rename_i ends
    exact .single (stepLine text (Bool.eq_false_iff.mpr ends))

theorem breakTwice {s s' s'' : Scanner} (mode : s'.mode = s.mode) (mode' : s''.mode = s.mode)
    {more more' : List Token} (alike : AllAlike more more') :
    SameLines (s.breakTokens ++ more) (s'.breakTokens ++ (s''.breakTokens ++ more')) := by
  have same : s'.continues = s.continues := congrArg Mode.continues mode
  have same' : s''.continues = s.continues := congrArg Mode.continues mode'
  unfold breakTokens
  rw [same, same']
  split
  · exact .ofAlike alike
  · exact .doubled rfl rfl (.cons rfl (.ofAlike alike))

theorem insertedTokens (before after : List Char) {line : List Char} (silent : Silent line) :
    Option.Rel SameLines (start (before ++ '\n' :: after)).tokens?
      (start (before ++ '\n' :: (line ++ '\n' :: after))).tokens? := by
  have short : start (before ++ '\n' :: after) = (start before).onward after := rfl
  have long : start (before ++ '\n' :: (line ++ '\n' :: after)) = (start before).onward (line ++ '\n' :: after) := rfl
  rw [short, long]
  cases ends : (start before).run.2 with
  | error blame =>
    have fails : (start before).tokens? = none := by
      rw [tokens?, ends]
      rfl
    rw [failsOnward after fails, failsOnward _ fails]
    exact .none
  | ok final =>
    obtain ⟨path, empty⟩ := runEnds ends
    generalize (start before).run.1.map Found.token = tokens at path
    have text : ∀ more, (final.onward more).rest = '\n' :: more := fun more => by rw [onward, empty]; rfl
    obtain ⟨s, gap, mode, rest⟩ := silent.path (s := (final.onward (line ++ '\n' :: after)).pass ['\n'] _) rfl
    have first := (path.onward after).trans (pathBreak (text after))
    have second := ((path.onward (line ++ '\n' :: after)).trans (pathBreak (text _))).trans
      (gap.trans (pathBreak rest))
    have alike : ((final.onward after).pass ['\n'] after).Alike (s.pass ['\n'] after) := ⟨mode.symm, rfl⟩
    rw [first.tokens?, second.tokens?]
    refine relMap alike.tokens? fun more more' found => ?_
    simp only [List.append_assoc, List.nil_append]
    exact .append tokens (breakTwice (s := final.onward after) rfl mode found)

end Scanner

theorem tokenizeTokens (source : String) :
    (tokenize source).toOption.map Stream.body = (Scanner.start source.toList).tokens? := by
  unfold tokenize scan Scanner.tokens?
  dsimp only
  cases (Scanner.start source.toList).run.2 <;> rfl

theorem tokenizeFamily {source : String} {e : CompileError} (refused : tokenize source = .error e) :
    e.family = .token := by
  unfold tokenize at refused
  split at refused
  · cases refused
  · cases refused
    rfl

end Token

namespace Parse

theorem parseLines (depth : Nat) {source source' : String}
    (lines : Option.Rel SameLines (Token.Scanner.start source.toList).tokens?
      (Token.Scanner.start source'.toList).tokens?) : EndsAlike Twin (parse depth source) (parse depth source') := by
  rw [← Token.tokenizeTokens, ← Token.tokenizeTokens] at lines
  refine .bind (R := fun stream stream' => SameLines stream.body stream'.body) ?_ fun _ _ same =>
    streamParallel same depth source source'
  cases tokens : tokenize source with
  | error e => cases tokens' : tokenize source' with
    | error e' => exact .error ((Token.tokenizeFamily tokens).trans (Token.tokenizeFamily tokens').symm)
    | ok stream' =>
      rw [tokens, tokens'] at lines
      cases lines
  | ok stream => cases tokens' : tokenize source' with
    | error e' =>
      rw [tokens, tokens'] at lines
      cases lines
    | ok stream' =>
      rw [tokens, tokens'] at lines
      cases lines with
      | some same => exact .ok same

theorem endNoNewline {source : String} {stream : Token.Stream} (tokens : tokenize source = .ok stream) :
    stream.stop.said = (.eof, "") := by
  obtain ⟨final, _, rfl⟩ := Token.tokenizeIff.mp tokens
  rfl

theorem squeezedStream {source : String} {stream : Token.Stream} (tokens : tokenize source = .ok stream) :
    (squeezed stream.toList).map Token.said = (squeezed stream.body).map Token.said ++ [(.eof, "")] := by
  have stop := endNoNewline tokens
  have word : stream.stop.kind ≠ .newline := by
    rw [show stream.stop.kind = .eof from congrArg Prod.fst stop]
    decide
  rw [Token.Stream.toList, squeezedAppend word, List.map_append, List.map_singleton, stop]

theorem newlineCountIsSilent :
    (∀ source source' stream stream', tokenize source = .ok stream → tokenize source' = .ok stream' →
      (squeezed stream.toList).map Token.said = (squeezed stream'.toList).map Token.said →
      ∀ depth, EndsAlike (fun x y => x.same y = true ∧ ∀ limit, x.compare limit y ≠ some false)
        (parse depth source) (parse depth source')) ∧
    ∀ before line after : String, Token.Scanner.Silent line.toList → ∀ nesting lowering,
      EndsAlike Eq (compile nesting lowering (before ++ "\n" ++ after))
        (compile nesting lowering (before ++ "\n" ++ line ++ "\n" ++ after)) := by
  constructor
  · intro source source' stream stream' tokens tokens' same depth
    rw [squeezedStream tokens, squeezedStream tokens'] at same
    have lines : SameLines stream.body stream'.body := List.append_cancel_right same
    unfold parse
    rw [tokens, tokens']
    exact (streamParallel lines depth source source').imp fun _ _ twin =>
      ⟨twin.same, fun _ => Node.compareSame twin.same⟩
  · intro before line after silent nesting lowering
    have lines := Token.Scanner.insertedTokens before.toList after.toList silent
    have trees : EndsAlike Twin (parse nesting (before ++ "\n" ++ after))
        (parse nesting (before ++ "\n" ++ line ++ "\n" ++ after)) := by
      apply parseLines
      simpa using lines
    exact trees.bind fun _ _ twin => lowerTwin lowering twin

def airySource : String := "\n\na => \x7b // sums\n\n\n b = 1 +\n\n a\n // and\n\n b\n\x7d\n\n"

def denseSource : String := "\na => \x7b\n b = 1 + a\n b\n\x7d\n"

theorem newlineCountIsSilentAiry :
    (∃ tree tree', parse 9 airySource = .ok tree ∧ parse 9 denseSource = .ok tree' ∧ tree.same tree' = true) ∧
    (∃ v, compile 9 9 ("f(1," ++ "\n" ++ "2)") = .ok v ∧
      compile 9 9 ("f(1," ++ "\n" ++ " // two\r" ++ "\n" ++ "2)") = .ok v) ∧
    ∃ e e', compile 9 9 ("\"a\\" ++ "\n" ++ "\"") = .error e ∧
      compile 9 9 ("\"a\\" ++ "\n" ++ "\t" ++ "\n" ++ "\"") = .error e' ∧ e.family = e'.family := by
  obtain ⟨runs, lines⟩ := newlineCountIsSilent
  refine ⟨?_, ?_, ?_⟩
  · have words : (tokenize airySource).toOption.map (fun s => (squeezed s.toList).map Token.said) =
        (tokenize denseSource).toOption.map (fun s => (squeezed s.toList).map Token.said) := by decide +kernel
    have accepted : (parse 9 denseSource).toOption.isSome = true := by decide +kernel
    have scanned : (tokenize denseSource).toOption.isSome = true := by decide +kernel
    have scanned' : (tokenize airySource).toOption.isSome = true := by decide +kernel
    obtain ⟨stream', tokens'⟩ := okOfSome scanned
    obtain ⟨stream, tokens⟩ := okOfSome scanned'
    rw [tokens, tokens'] at words
    have ends := runs airySource denseSource stream stream' tokens tokens' (Option.some.inj words) 9
    generalize parse 9 airySource = airy, parse 9 denseSource = dense at ends accepted
    cases ends with
    | ok trees => exact ⟨_, _, rfl, rfl, trees.1⟩
    | error _ => cases accepted
  · have silent : Token.Scanner.Silent " // two\r".toList := .blank rfl (.comment (by decide))
    have accepted : (compile 9 9 ("f(1," ++ "\n" ++ "2)")).toOption.isSome = true := by decide +kernel
    have ends := lines "f(1," " // two\r" "2)" silent 9 9
    generalize compile 9 9 ("f(1," ++ "\n" ++ "2)") = short,
      compile 9 9 ("f(1," ++ "\n" ++ " // two\r" ++ "\n" ++ "2)") = long at ends accepted
    cases ends with
    | ok value => exact ⟨_, rfl, congrArg _ value.symm⟩
    | error _ => cases accepted
  · have silent : Token.Scanner.Silent "\t".toList := .blank rfl .empty
    have refused : (compile 9 9 ("\"a\\" ++ "\n" ++ "\"")).toOption.isSome = false := by decide +kernel
    have ends := lines "\"a\\" "\t" "\"" silent 9 9
    generalize compile 9 9 ("\"a\\" ++ "\n" ++ "\"") = short,
      compile 9 9 ("\"a\\" ++ "\n" ++ "\t" ++ "\n" ++ "\"") = long at ends refused
    cases ends with
    | ok _ => cases refused
    | error family => exact ⟨_, _, rfl, rfl, family⟩

end Parse

end Scriptlet
