import Scriptlet.Proofs.ScannerSteps

/-! A scan step by step. A path leads from one state of a scan to a later one; what holds of a state is
carried along the steps of a path, whether the scan ends well or not. -/
namespace Scriptlet.Token

namespace Scanner

inductive Path : Scanner → List Token → Scanner → Prop where
  | here {s} : Path s [] s
  | skip {s s' tokens final} (step : s.step = .skipped s') (more : Path s' tokens final) :
      Path s tokens final
  | token {s t s' tokens final} (step : s.step = .token t s') (more : Path s' tokens final) :
      Path s (t :: tokens) final

variable {s s' final : Scanner} {t : Token} {tokens more : List Token}

namespace Path

theorem skipped (step : s.step = .skipped s') : Path s [] s' := .skip step .here

theorem single (step : s.step = .token t s') : Path s [t] s' := .token step .here

theorem trans (first : Path s tokens s') (second : Path s' more final) : Path s (tokens ++ more) final := by
  induction first with
  | here => exact second
  | skip step _ ih => exact .skip step (ih second)
  | token step _ ih => exact .token step (ih second)

end Path

theorem runSkipped (skipped : s.step = .skipped s') : s.run = s'.run := by
  rw [run]
  split <;> simp_all

theorem runToken (found : s.step = .token t s') :
    s.run = (⟨t, s.last, s'.brackets, s'.position⟩ :: s'.run.1, s'.run.2) := by
  rw [run]
  split <;> simp_all

theorem runFailed {blame : Blame} (failed : s.step = .failed blame) : s.run = ([], .error blame) := by
  rw [run]
  split <;> simp_all

theorem runEmpty (empty : s.rest = []) : s.run = ([], .ok s) := by
  have finished : s.step = .finished := by unfold step; rw [empty]
  rw [run]
  split <;> simp_all

theorem Path.run (path : Path s tokens s') :
    s.run.1.map Found.token = tokens ++ s'.run.1.map Found.token ∧ s.run.2 = s'.run.2 := by
  induction path with
  | here => exact ⟨rfl, rfl⟩
  | skip step _ ih =>
    rw [runSkipped step]
    exact ih
  | token step _ ih =>
    rw [runToken step]
    exact ⟨congrArg (_ :: ·) ih.1, ih.2⟩

theorem runPath {f : Found} (member : f ∈ s.run.1) :
    ∃ tokens s' s'', Path s tokens s' ∧ s'.step = .token f.token s'' := by
  fun_induction Scanner.run s with
  | case1 => cases member
  | case2 s s' skipped ih =>
    obtain ⟨tokens, a, b, path, found⟩ := ih member
    exact ⟨tokens, a, b, .skip skipped path, found⟩
  | case3 => cases member
  | case4 s t s' found tail ih =>
    rcases List.mem_cons.mp member with rfl | later
    · exact ⟨[], s, s', .here, found⟩
    · obtain ⟨tokens, a, b, path, step⟩ := ih later
      exact ⟨t :: tokens, a, b, .token found path, step⟩

theorem runEnds (ends : s.run.2 = .ok final) :
    Path s (s.run.1.map Found.token) final ∧ final.rest = [] := by
  fun_induction Scanner.run s with
  | case1 s finished =>
    cases ends
    exact ⟨.here, finishedEmpty finished⟩
  | case2 s s' skipped ih => exact ⟨.skip skipped (ih ends).1, (ih ends).2⟩
  | case3 => cases ends
  | case4 s t s' found tail ih => exact ⟨.token found (ih ends).1, (ih ends).2⟩

structure Consumes (s : Scanner) (used : List Char) (s' : Scanner) : Prop where
  text : s.rest = used ++ s'.rest
  position : s'.position = s.position.after used

theorem Consumes.refl (s : Scanner) : s.Consumes [] s := ⟨rfl, rfl⟩

theorem Consumes.trans {s'' : Scanner} {used more : List Char} (first : s.Consumes used s')
    (second : s'.Consumes more s'') : s.Consumes (used ++ more) s'' := by
  refine ⟨?_, ?_⟩
  · rw [first.text, second.text, List.append_assoc]
  · rw [second.position, first.position, Position.afterAppend]

theorem skippedConsumes (skipped : s.step = .skipped s') : ∃ used, s.Consumes used s' := by
  obtain ⟨used, rest, text, _, rfl⟩ := skippedCases skipped
  exact ⟨used, text, rfl⟩

theorem tokenConsumes (found : s.step = .token t s') :
    ∃ used, s.Consumes used s' ∧ t.offset = s.position.offset ∧ t.place = s.position.place := by
  rcases tokenCases found with ⟨rest, text, _, rfl, rfl⟩ | ⟨c, rest, l, text, ok, rfl, rfl⟩
  · exact ⟨['\n'], ⟨text, rfl⟩, rfl, rfl⟩
  · exact ⟨l.raw, ⟨text.trans (lexemeAppend ok).1.symm, rfl⟩, rfl, rfl⟩

theorem Path.consumes (path : Path s tokens s') : ∃ used, s.Consumes used s' := by
  induction path with
  | here => exact ⟨[], .refl _⟩
  | skip step _ ih =>
    obtain ⟨used, first⟩ := skippedConsumes step
    obtain ⟨more, second⟩ := ih
    exact ⟨used ++ more, first.trans second⟩
  | token step _ ih =>
    obtain ⟨used, first, _⟩ := tokenConsumes step
    obtain ⟨more, second⟩ := ih
    exact ⟨used ++ more, first.trans second⟩

theorem trackNewline (brackets : List Bracket) : Bracket.track brackets .newline = brackets := by
  cases brackets with
  | nil => rfl
  | cons b outer => cases b <;> rfl

theorem skippedState (skipped : s.step = .skipped s') : s'.brackets = s.brackets ∧ s'.last = s.last := by
  obtain ⟨used, rest, _, _, rfl⟩ := skippedCases skipped
  exact ⟨rfl, rfl⟩

theorem tokenState (found : s.step = .token t s') :
    s'.brackets = Bracket.track s.brackets t.kind ∧
      s'.last = if t.kind = .newline then s.last else some t.kind := by
  rcases tokenCases found with ⟨rest, _, _, rfl, rfl⟩ | ⟨c, rest, l, _, ok, rfl, rfl⟩
  · exact ⟨(trackNewline s.brackets).symm, rfl⟩
  · exact ⟨rfl, (if_neg (lexemeNoNewline ok)).symm⟩

theorem Path.brackets (path : Path s tokens s') :
    s'.brackets = (tokens.map Token.kind).foldl Bracket.track s.brackets := by
  induction path with
  | here => rfl
  | skip step _ ih => rw [ih, (skippedState step).1]
  | token step _ ih => rw [ih, (tokenState step).1, List.map_cons, List.foldl_cons]

section Text
variable {c : Char} {rest : List Char} {l : Lexeme}

theorem lexemeNoBlank (ok : lexeme c rest = .ok l) : c ≠ '\n' ∧ isBlank c = false := by
  refine ⟨fun newline => ?_, Bool.eq_false_iff.mpr fun blank => ?_⟩
  · subst newline
    have fails : lexeme '\n' rest = .error ⟨.invalidCharacter '\n', '\n' :: rest⟩ := rfl
    cases fails.symm.trans ok
  · have fails : lexeme c rest = .error ⟨.invalidCharacter c, c :: rest⟩ := by
      simp only [isBlank, Bool.or_eq_true, beq_iff_eq] at blank
      rcases blank with (rfl | rfl) | rfl <;> rfl
    cases fails.symm.trans ok

theorem stepBlank (text : s.rest = c :: rest) (blank : isBlank c = true) :
    s.step = .skipped (s.pass [c] rest) := by
  have line : c ≠ '\n' := fun same => by
    subst same
    cases blank
  unfold step
  rw [text]
  simp only [line, blank, if_true, if_false]

theorem stepFold (text : s.rest = '\n' :: rest) (continues : s.continues = true) :
    s.step = .skipped (s.pass ['\n'] rest) := by
  unfold step
  rw [text]
  simp only [continues, if_true]

theorem stepLine (text : s.rest = '\n' :: rest) (ends : s.continues = false) :
    s.step = .token s.newlineToken (s.pass ['\n'] rest) := by
  unfold step
  rw [text]
  simp only [ends, if_true, if_false, Bool.false_eq_true]
  rfl

theorem stepWord (text : s.rest = c :: rest) (ok : lexeme c rest = .ok l)
    (noComment : ¬ (c = '/' ∧ rest.head? = some '/')) : s.step = .token (s.wordToken l) (s.passWord l) := by
  obtain ⟨line, blank⟩ := lexemeNoBlank ok
  unfold step
  rw [text]
  simp only [line, blank, noComment, ok, if_false, Bool.false_eq_true]
  rfl

theorem stepGap {used : List Char} (text : s.rest = used ++ rest) (gap : Gap s used rest) :
    s.step = .skipped (s.pass used rest) := by
  cases gap with
  | newline continues => exact stepFold text continues
  | blank blank => exact stepBlank text blank
  | @comment line rest oneLine stop =>
    have all : ∀ c ∈ '/' :: '/' :: line, decide (c ≠ '\n') = true := by
      intro c member
      rw [decide_eq_true_eq]
      rintro rfl
      exact oneLine (by simpa using member)
    have stops : ∀ c ∈ rest.head?, decide (c ≠ '\n') = false := fun c head => by simp [stop c head]
    have front := Text.takeWhileStop all stops
    have back := Text.dropWhileStop all stops
    rw [List.cons_append, List.cons_append] at text front back
    unfold step
    rw [text]
    dsimp only
    rw [if_neg (by decide), if_neg (by decide), if_pos ⟨rfl, rfl⟩, front, back]

theorem tokenNoComment (text : s.rest = c :: rest) (found : s.step = .token t s') :
    ¬ (c = '/' ∧ rest.head? = some '/') := by
  rintro ⟨rfl, head⟩
  obtain ⟨more, rfl⟩ := List.head?_eq_some_iff.mp head
  have skipped := stepGap (text.trans List.takeWhile_append_dropWhile.symm) (commentGap s more)
  cases skipped.symm.trans found

end Text

end Scanner

theorem tokenizeIff {source : String} {stream : Stream} :
    tokenize source = .ok stream ↔ ∃ final, (Scanner.start source.toList).run.2 = .ok final ∧
      stream = ⟨(Scanner.start source.toList).run.1.map Scanner.Found.token, final.endToken⟩ := by
  unfold tokenize scan
  dsimp only
  cases (Scanner.start source.toList).run.2 with
  | error blame => simp
  | ok final => simp [eq_comm]

theorem tokenizePath {source : String} {tokens : List Token} {final : Scanner}
    (path : Scanner.Path (Scanner.start source.toList) tokens final) (empty : final.rest = []) :
    tokenize source = .ok ⟨tokens, final.endToken⟩ := by
  obtain ⟨found, ends⟩ := path.run
  rw [Scanner.runEmpty empty] at found ends
  refine tokenizeIff.mpr ⟨final, ends, ?_⟩
  rw [found, List.map_nil, List.append_nil]

end Scriptlet.Token
