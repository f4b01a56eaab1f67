import Scriptlet.Proofs.TokenShapes

/-! A scan as a chain of moves. Each move reads some text from the front of the source, over a gap or
as one token, and a scan that ends well leaves nothing. -/
namespace Scriptlet.Token

theorem lexemeCases {c : Char} {rest : List Char} {l : Lexeme} (ok : lexeme c rest = .ok l) :
    (c.isDigit = true ∧ l.kind = .number ∧ l.raw = (splitNumber (c :: rest)).1 ∧ l.value = l.raw) ∨
    (∃ raw, (c = '"' ∨ c = '\'') ∧ splitString c (c :: rest) rest = .ok (l.value, raw, l.rest) ∧
      l.kind = .string ∧ l.raw = c :: raw) ∨
    (isWordStart c = true ∧ l.kind = .ofWord l.raw ∧ l.raw = (c :: rest).takeWhile isWordPart ∧
      l.value = l.raw) ∨
    ((l.raw, l.kind) ∈ Kind.marks ∧ l.value = l.raw) := by
  unfold lexeme at ok
  split at ok
  · rename_i digit
    cases ok
    exact Or.inl ⟨digit, rfl, rfl, rfl⟩
  · split at ok
    · rename_i quote
      cases tail : splitString c (c :: rest) rest with
      | error blame => simp [tail, bind, Except.bind] at ok
      | ok found =>
        simp only [tail, bind, Except.bind, Except.ok.injEq] at ok
        subst ok
        exact Or.inr (Or.inl ⟨found.2.1, quote, rfl, rfl, rfl⟩)
    · split at ok
      · rename_i start
        cases ok
        exact Or.inr (Or.inr (Or.inl ⟨start, rfl, rfl, rfl⟩))
      · split at ok
        · rename_i found
          cases ok
          exact Or.inr (Or.inr (Or.inr ⟨List.mem_of_find?_eq_some found, rfl⟩))
        · cases ok

theorem splitStringOneLine {mark : Char} {opening source value raw after : List Char}
    (ok : splitString mark opening source = .ok (value, raw, after)) : '\n' ∉ raw := by
  fun_induction splitString mark opening source generalizing value raw after with
  | case1 => cases ok
  | case2 => cases ok
  | case3 => cases ok
  | case4 c rest meant known ih =>
    obtain ⟨⟨v, r, a⟩, tail, same⟩ := exceptBindOk.mp ok
    cases same
    have noBreak : '\n' ≠ c := by
      rintro rfl
      cases known
    simpa [noBreak] using ih tail
  | case5 => cases ok
  | case6 rest _ _ noBreak =>
    cases ok
    simpa using Ne.symm noBreak
  | case7 c rest _ _ noBreak _ ih =>
    obtain ⟨⟨v, r, a⟩, tail, same⟩ := exceptBindOk.mp ok
    cases same
    have other : '\n' ≠ c := fun same => noBreak same.symm
    simpa [other] using ih tail

theorem unsignedOneLine {text : List Char} (number : Unsigned text) : '\n' ∉ text := by
  obtain ⟨w, valid, _, _, rfl⟩ := number
  intro member
  rcases Numeral.Written.textChars valid member with digit | mark
  · exact absurd digit (by decide)
  · exact absurd mark (by decide)

theorem lexemeOneLine {c : Char} {rest : List Char} {l : Lexeme} (ok : lexeme c rest = .ok l) :
    '\n' ∉ l.raw := by
  rcases lexemeCases ok with ⟨digit, _, raw, _⟩ | ⟨raw, quote, tail, _, same⟩ | ⟨_, _, raw, _⟩ | ⟨mark, _⟩
  · rw [raw]
    exact unsignedOneLine (splitNumberUnsigned digit rest)
  · rw [same, List.mem_cons, not_or]
    refine ⟨?_, splitStringOneLine tail⟩
    rcases quote with rfl | rfl <;> decide
  · rw [raw]
    intro member
    exact absurd (List.all_eq_true.mp List.all_takeWhile _ member) (by decide)
  · have table : ∀ entry ∈ Kind.marks, '\n' ∉ entry.1 := by decide
    exact table _ mark

theorem splitStringShort {mark : Char} {opening source value raw after : List Char}
    (ok : splitString mark opening source = .ok (value, raw, after)) : value.length ≤ raw.length := by
  fun_induction splitString mark opening source generalizing value raw after with
  | case1 => cases ok
  | case2 => cases ok
  | case3 => cases ok
  | case4 c rest meant known ih =>
    obtain ⟨⟨v, r, a⟩, tail, same⟩ := exceptBindOk.mp ok
    cases same
    have shorter := ih tail
    simp only [List.length_cons]
    omega
  | case5 => cases ok
  | case6 =>
    cases ok
    exact Nat.zero_le _
  | case7 c rest _ _ _ _ ih =>
    obtain ⟨⟨v, r, a⟩, tail, same⟩ := exceptBindOk.mp ok
    cases same
    exact Nat.succ_le_succ (ih tail)

/- An escape stands for one character, so a word means no more than it is written with. -/
theorem lexemeShort {c : Char} {rest : List Char} {l : Lexeme} (ok : lexeme c rest = .ok l) :
    l.value.length ≤ l.raw.length := by
  rcases lexemeCases ok with ⟨_, _, _, same⟩ | ⟨raw, _, tail, _, same⟩ | ⟨_, _, _, same⟩ | ⟨_, same⟩
  · exact Nat.le_of_eq (congrArg _ same)
  · rw [same]
    exact Nat.le_succ_of_le (splitStringShort tail)
  · exact Nat.le_of_eq (congrArg _ same)
  · exact Nat.le_of_eq (congrArg _ same)

theorem ofWordNoNewline (word : List Char) : Kind.ofWord word ≠ .newline := by
  unfold Kind.ofWord Kind.keywords
  simp only [List.lookup_cons, List.lookup_nil]
  repeat' split
  all_goals simp

theorem lexemeNoNewline {c : Char} {rest : List Char} {l : Lexeme} (ok : lexeme c rest = .ok l) :
    l.kind ≠ .newline := by
  rcases lexemeCases ok with ⟨_, kind, _⟩ | ⟨_, _, _, kind, _⟩ | ⟨_, kind, _⟩ | ⟨mark, _⟩
  · simp [kind]
  · simp [kind]
  · rw [kind]
    exact ofWordNoNewline _
  · have table : ∀ entry ∈ Kind.marks, entry.2 ≠ .newline := by decide
    exact table _ mark

namespace Scanner

inductive Gap (s : Scanner) : List Char → List Char → Prop where
  | newline {rest} (continues : s.continues = true) : Gap s ['\n'] rest
  | blank {c rest} (blank : isBlank c = true) : Gap s [c] rest
  | comment {line rest} (oneLine : '\n' ∉ line) (stop : ∀ c ∈ rest.head?, c = '\n') :
      Gap s ('/' :: '/' :: line) rest

def newlineToken (s : Scanner) : Token := ⟨.newline, "\n", "\n", s.position.offset, s.position.place⟩

def wordToken (s : Scanner) (l : Lexeme) : Token :=
  ⟨l.kind, String.ofList l.value, String.ofList l.raw, s.position.offset, s.position.place⟩

def passWord (s : Scanner) (l : Lexeme) : Scanner :=
  { s.pass l.raw l.rest with brackets := Bracket.track s.brackets l.kind, last := some l.kind }

theorem commentGap (s : Scanner) (rest : List Char) :
    Gap s (('/' :: '/' :: rest).takeWhile (· ≠ '\n')) (('/' :: '/' :: rest).dropWhile (· ≠ '\n')) := by
  have front : ('/' :: '/' :: rest).takeWhile (· ≠ '\n') = '/' :: '/' :: rest.takeWhile (· ≠ '\n') := by simp
  have back : ('/' :: '/' :: rest).dropWhile (· ≠ '\n') = rest.dropWhile (· ≠ '\n') := by simp
  rw [front, back]
  refine .comment (fun member => ?_) fun c head => ?_
  · exact absurd (List.all_eq_true.mp List.all_takeWhile _ member) (by simp)
  · have stop := List.head?_dropWhile_not (fun c : Char => decide (c ≠ '\n')) rest
    rw [Option.mem_def.mp head] at stop
    simpa using stop

theorem skippedCases {s s' : Scanner} (skipped : s.step = .skipped s') :
    ∃ used rest, s.rest = used ++ rest ∧ Gap s used rest ∧ s' = s.pass used rest := by
  unfold step at skipped
  split at skipped
  · cases skipped
  · rename_i c rest source
    rw [source]
    split at skipped
    · rename_i line
      split at skipped
      · rename_i continues
        cases skipped
        exact ⟨['\n'], rest, by rw [line]; rfl, .newline continues, rfl⟩
      · cases skipped
    · split at skipped
      · rename_i blank
        cases skipped
        exact ⟨[c], rest, rfl, .blank blank, rfl⟩
      · split at skipped
        · rename_i comment
          cases skipped
          obtain ⟨rfl, head⟩ := comment
          obtain ⟨more, rfl⟩ := List.head?_eq_some_iff.mp head
          exact ⟨_, _, List.takeWhile_append_dropWhile.symm, commentGap s more, rfl⟩
        · split at skipped <;> cases skipped

theorem tokenCases {s s' : Scanner} {t : Token} (found : s.step = .token t s') :
    (∃ rest, s.rest = '\n' :: rest ∧ s.continues = false ∧ t = s.newlineToken ∧
      s' = s.pass ['\n'] rest) ∨
    ∃ c rest l, s.rest = c :: rest ∧ lexeme c rest = .ok l ∧ t = s.wordToken l ∧ s' = s.passWord l := by
  unfold step at found
  split at found
  · cases found
  · rename_i c rest source
    split at found
    · rename_i line
      split at found
      · cases found
      · rename_i ends
        cases found
        refine Or.inl ⟨rest, by rw [source, line], by simpa using ends, rfl, rfl⟩
    · split at found
      · cases found
      · split at found
        · cases found
        · split at found
          · cases found
          · rename_i l ok
            cases found
            exact Or.inr ⟨c, rest, l, source, ok, rfl, rfl⟩

theorem failedCases {s : Scanner} {blame : Blame} (failed : s.step = .failed blame) :
    ∃ c rest, s.rest = c :: rest ∧ c ≠ '\n' ∧ isBlank c = false ∧ ¬ (c = '/' ∧ rest.head? = some '/') ∧
      lexeme c rest = .error blame := by
  unfold step at failed
  split at failed
  · cases failed
  · rename_i c rest text
    split at failed
    · split at failed <;> cases failed
    · rename_i line
      split at failed
      · cases failed
      · rename_i blank
        split at failed
        · cases failed
        · rename_i comment
          split at failed
          · rename_i wrong
            cases failed
            exact ⟨c, rest, text, line, Bool.eq_false_iff.mpr blank, comment, wrong⟩
          · cases failed

theorem finishedEmpty {s : Scanner} (finished : s.step = .finished) : s.rest = [] := by
  unfold step at finished
  split at finished
  · assumption
  · split at finished
    · split at finished <;> cases finished
    · split at finished
      · cases finished
      · split at finished
        · cases finished
        · split at finished <;> cases finished

inductive Scans : Scanner → List Token → Scanner → Prop where
  | done {s} (empty : s.rest = []) : Scans s [] s
  | gap {s used rest tokens final} (text : s.rest = used ++ rest) (gap : Gap s used rest)
      (more : Scans (s.pass used rest) tokens final) : Scans s tokens final
  | newline {s rest tokens final} (text : s.rest = '\n' :: rest) (ends : s.continues = false)
      (more : Scans (s.pass ['\n'] rest) tokens final) : Scans s (s.newlineToken :: tokens) final
  | word {s c rest l tokens final} (text : s.rest = c :: rest) (ok : lexeme c rest = .ok l)
      (more : Scans (s.passWord l) tokens final) : Scans s (s.wordToken l :: tokens) final

theorem runScans {s final : Scanner} (ends : s.run.2 = .ok final) :
    Scans s (s.run.1.map Found.token) final := by
  fun_induction run s with
  | case1 s finished =>
    cases ends
    exact .done (finishedEmpty finished)
  | case2 s s' skipped ih =>
    obtain ⟨used, rest, text, gap, rfl⟩ := skippedCases skipped
    exact .gap text gap (ih ends)
  | case3 s blame failed => cases ends
  | case4 s t s' found tail ih =>
    have more := ih ends
    rw [List.map_cons]
    rcases tokenCases found with ⟨rest, text, line, rfl, rfl⟩ | ⟨c, rest, l, text, ok, rfl, rfl⟩
    · exact .newline text line more
    · exact .word text ok more

theorem Scans.short {s final : Scanner} {tokens : List Token} (scans : Scans s tokens final) :
    ∀ t ∈ tokens, t.value.length ≤ s.rest.length := by
  induction scans with
  | done _ => exact fun _ member => (nomatch member)
  | gap text _ _ ih =>
    intro t member
    have later := ih t member
    rw [text, List.length_append]
    exact Nat.le_add_left_of_le later
  | newline text _ _ ih =>
    refine List.forall_mem_cons.mpr ⟨?_, fun t member => ?_⟩
    · have one : "\n".length = 1 := by decide
      rw [text, newlineToken, one]
      exact Nat.succ_le_succ (Nat.zero_le _)
    · rw [text]
      exact Nat.le_succ_of_le (ih t member)
  | @word s c rest l _ _ text ok _ ih =>
    obtain ⟨split, _⟩ := lexemeAppend ok
    rw [text, ← split, List.length_append]
    refine List.forall_mem_cons.mpr ⟨?_, fun t member => Nat.le_add_left_of_le (ih t member)⟩
    rw [wordToken, String.length_ofList]
    exact Nat.le_add_right_of_le (lexemeShort ok)

end Scanner

theorem tokenizeScans {source : String} {stream : Stream} (ok : tokenize source = .ok stream) :
    ∃ final, Scanner.Scans (Scanner.start source.toList) stream.body final ∧
      stream.stop = final.endToken := by
  unfold tokenize scan at ok
  dsimp only at ok
  cases ends : (Scanner.start source.toList).run.2 with
  | error blame =>
    rw [ends] at ok
    cases ok
  | ok final =>
    rw [ends] at ok
    cases ok
    exact ⟨final, Scanner.runScans ends, rfl⟩

theorem tokenizeShort {source : String} {stream : Stream} (ok : tokenize source = .ok stream) :
    ∀ t ∈ stream.body, t.value.length ≤ source.length := by
  obtain ⟨final, scans, _⟩ := tokenizeScans ok
  rw [← String.length_toList]
  exact scans.short

end Scriptlet.Token
