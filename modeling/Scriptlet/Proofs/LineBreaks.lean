import Scriptlet.Proofs.ScannerSteps

/-! Which line breaks are tokens. The state of a scan stands for the tokens found so far, so a break
counts or not by a rule on the tokens before it. -/
namespace Scriptlet.Token

def partner? : Kind → Option Kind
  | .rparen => some .lparen
  | .rbracket => some .lbracket
  | .rbrace => some .lbrace
  | _ => none

/- The open brackets after one more token, innermost first. A closing bracket takes away the innermost
open one if that is its partner, and else nothing. -/
def nest (open' : List Kind) (k : Kind) : List Kind :=
  if k = .lparen ∨ k = .lbracket ∨ k = .lbrace then k :: open'
  else match partner? k, open' with
    | some p, innermost :: outer => if innermost = p then outer else open'
    | _, _ => open'

def openBrackets (tokens : List Token) : List Kind := (tokens.map Token.kind).foldl nest []

def significant (tokens : List Token) : List Kind :=
  (tokens.filter fun t => t.kind ≠ .newline).map Token.kind

def continuation : List Kind :=
  [.lbrace, .plus, .minus, .star, .slash, .percent, .andOp, .orOp, .question, .colon, .equal, .notEqual,
   .less, .greater, .lessEq, .greaterEq, .comma]

def InBrackets (before : List Token) : Prop :=
  (openBrackets before).head? = some .lparen ∨ (openBrackets before).head? = some .lbracket

def LeftOpen (before : List Token) : Prop := ∃ k ∈ continuation, (significant before).getLast? = some k

def GoesOn (before : List Token) : Prop := InBrackets before ∨ LeftOpen before

def tokensBefore (i : Nat) (tokens : List Token) : List Token := tokens.filter fun t => t.offset < i

def newlinesAt (i : Nat) (tokens : List Token) : Nat :=
  tokens.countP fun t => t.kind = .newline ∧ t.offset = i

theorem trackNest (brackets : List Bracket) (k : Kind) :
    (Bracket.track brackets k).map Bracket.opening = nest (brackets.map Bracket.opening) k := by
  cases brackets with
  | nil => cases k <;> rfl
  | cons b outer => cases k <;> cases b <;> rfl

theorem awaitsMoreIff (k : Kind) : k.awaitsMore = true ↔ k ∈ continuation := by
  cases k <;> decide

theorem openBracketsLast (tokens : List Token) (t : Token) :
    openBrackets (tokens ++ [t]) = nest (openBrackets tokens) t.kind := by
  simp [openBrackets]

theorem nestNewline (open' : List Kind) : nest open' .newline = open' := rfl

theorem significantNewline (tokens : List Token) {t : Token} (newline : t.kind = .newline) :
    significant (tokens ++ [t]) = significant tokens := by
  simp [significant, newline]

theorem significantWord (tokens : List Token) {t : Token} (word : t.kind ≠ .newline) :
    significant (tokens ++ [t]) = significant tokens ++ [t.kind] := by
  simp [significant, word]

theorem openBracketsSignificant (tokens : List Token) :
    openBrackets tokens = (significant tokens).foldl nest [] := by
  unfold openBrackets significant
  generalize ([] : List Kind) = open'
  induction tokens generalizing open' with
  | nil => rfl
  | cons t tokens ih =>
    rw [List.map_cons, List.foldl_cons, ih]
    by_cases newline : t.kind = .newline
    · simp [newline, nestNewline]
    · simp [newline]

theorem newlinesLater {i : Nat} {tokens : List Token} (later : ∀ t ∈ tokens, i < t.offset) :
    newlinesAt i tokens = 0 := by
  refine List.countP_eq_zero.mpr fun t member => ?_
  have after := later t member
  simp only [decide_eq_true_eq]
  omega

theorem newlinesHere {i : Nat} {t : Token} (newline : t.kind = .newline) (here : t.offset = i)
    (tokens : List Token) : newlinesAt i (t :: tokens) = newlinesAt i tokens + 1 :=
  List.countP_cons_of_pos (by simp [newline, here])

theorem newlinesOther {i : Nat} {t : Token} (other : t.kind ≠ .newline ∨ t.offset ≠ i) (tokens : List Token) :
    newlinesAt i (t :: tokens) = newlinesAt i tokens := by
  refine List.countP_cons_of_neg ?_
  simp only [decide_eq_true_eq]
  tauto

theorem tokensBeforeSplit {i : Nat} {seen tokens : List Token} (earlier : ∀ t ∈ seen, t.offset < i)
    (later : ∀ t ∈ tokens, i ≤ t.offset) : tokensBefore i (seen ++ tokens) = seen := by
  have front : seen.filter (fun t => t.offset < i) = seen := by
    refine List.filter_eq_self.mpr fun t member => ?_
    simpa using earlier t member
  have back : tokens.filter (fun t => t.offset < i) = [] := by
    refine List.filter_eq_nil_iff.mpr fun t member => ?_
    simpa using later t member
  rw [tokensBefore, List.filter_append, front, back, List.append_nil]

namespace Scanner

structure Follows (s : Scanner) (seen : List Token) : Prop where
  brackets : s.brackets.map Bracket.opening = openBrackets seen
  last : s.last = (significant seen).getLast?
  earlier : ∀ t ∈ seen, t.offset < s.position.offset

variable {s final : Scanner} {seen tokens : List Token}

theorem followsStart (source : List Char) : (start source).Follows [] :=
  ⟨rfl, rfl, fun _ member => absurd member List.not_mem_nil⟩

theorem passOffset (s : Scanner) (used rest : List Char) :
    (s.pass used rest).position.offset = s.position.offset + used.length := Position.afterOffset _ _

theorem passWordOffset (s : Scanner) (l : Lexeme) :
    (s.passWord l).position.offset = s.position.offset + l.raw.length := passOffset s l.raw l.rest

theorem Follows.gap (follows : s.Follows seen) (used rest : List Char) : (s.pass used rest).Follows seen := by
  refine ⟨follows.brackets, follows.last, fun t member => ?_⟩
  rw [passOffset]
  exact Nat.lt_add_right _ (follows.earlier t member)

theorem Follows.earlierThan (follows : s.Follows seen) {t : Token} (here : t.offset = s.position.offset)
    {next : Nat} (moved : s.position.offset < next) : ∀ u ∈ seen ++ [t], u.offset < next := by
  intro u member
  rcases List.mem_append.mp member with before | same
  · exact Nat.lt_trans (follows.earlier u before) moved
  · rw [List.mem_singleton.mp same, here]
    exact moved

theorem Follows.newline (follows : s.Follows seen) (rest : List Char) :
    (s.pass ['\n'] rest).Follows (seen ++ [s.newlineToken]) := by
  refine ⟨?_, ?_, follows.earlierThan rfl ?_⟩
  · rw [openBracketsLast]
    exact follows.brackets
  · rw [significantNewline seen rfl]
    exact follows.last
  · rw [passOffset]
    exact Nat.lt_succ_self _

theorem Follows.word (follows : s.Follows seen) {c : Char} {rest : List Char} {l : Lexeme}
    (ok : lexeme c rest = .ok l) : (s.passWord l).Follows (seen ++ [s.wordToken l]) := by
  refine ⟨?_, ?_, follows.earlierThan rfl ?_⟩
  · rw [openBracketsLast, ← follows.brackets]
    exact trackNest s.brackets l.kind
  · rw [significantWord seen (lexemeNoNewline ok), List.getLast?_concat]
    rfl
  · have positive := List.length_pos_iff.mpr (lexemeAppend ok).2
    rw [passWordOffset]
    omega

theorem Follows.continuesIff (follows : s.Follows seen) :
    s.continues = true ↔ GoesOn seen := by
  have open' : s.last.any Kind.awaitsMore = true ↔ LeftOpen seen := by
    rw [follows.last, LeftOpen]
    simp only [Option.any_eq_true, awaitsMoreIff]
    exact ⟨fun ⟨k, last, listed⟩ => ⟨k, listed, last⟩, fun ⟨k, listed, last⟩ => ⟨k, last, listed⟩⟩
  have test : s.continues =
      (s.brackets.head?.any (fun b => b = .paren ∨ b = .square) || s.last.any Kind.awaitsMore) := by
    unfold continues
    cases s.brackets with
    | nil => cases s.last <;> rfl
    | cons b outer => cases b <;> cases s.last <;> rfl
  have inside : s.brackets.head?.any (fun b => b = .paren ∨ b = .square) = true ↔ InBrackets seen := by
    rw [InBrackets, ← follows.brackets, List.head?_map]
    cases s.brackets with
    | nil => simp
    | cons b outer => cases b <;> simp [Bracket.opening]
  rw [test, Bool.or_eq_true, inside, open', GoesOn]

theorem Scans.offsets (scans : Scans s tokens final) : ∀ t ∈ tokens, s.position.offset ≤ t.offset := by
  induction scans with
  | done => exact fun _ member => absurd member List.not_mem_nil
  | gap _ _ _ ih =>
    intro t member
    exact Nat.le_trans (by rw [passOffset]; exact Nat.le_add_right _ _) (ih t member)
  | newline _ _ _ ih =>
    refine List.forall_mem_cons.mpr ⟨Nat.le_refl _, fun t member => ?_⟩
    exact Nat.le_trans (by rw [passOffset]; exact Nat.le_add_right _ _) (ih t member)
  | word _ _ _ ih =>
    refine List.forall_mem_cons.mpr ⟨Nat.le_refl _, fun t member => ?_⟩
    have behind := ih t member
    rw [passWordOffset] at behind
    omega

def BreakAt (s : Scanner) (i : Nat) : Prop := ∃ j, i = s.position.offset + j ∧ s.rest[j]? = some '\n'

structure Moved (s : Scanner) (used : List Char) (s' : Scanner) : Prop where
  text : s.rest = used ++ s'.rest
  offset : s'.position.offset = s.position.offset + used.length

theorem movedPass {used rest : List Char} (text : s.rest = used ++ rest) : s.Moved used (s.pass used rest) :=
  ⟨text, passOffset s used rest⟩

theorem movedNewline {rest : List Char} (text : s.rest = '\n' :: rest) :
    s.Moved ['\n'] (s.pass ['\n'] rest) := movedPass text

theorem movedWord {c : Char} {rest : List Char} {l : Lexeme} (text : s.rest = c :: rest)
    (ok : lexeme c rest = .ok l) : s.Moved l.raw (s.passWord l) :=
  ⟨text.trans (lexemeAppend ok).1.symm, passWordOffset s l⟩

theorem Moved.length {s' : Scanner} {used : List Char} (moved : s.Moved used s') :
    s'.position.offset + s'.rest.length = s.position.offset + s.rest.length := by
  rw [moved.offset, moved.text, List.length_append, Nat.add_assoc]

theorem BreakAt.cases {s' : Scanner} {used : List Char} {i : Nat} (moved : s.Moved used s')
    (line : s.BreakAt i) : '\n' ∈ used ∧ i < s'.position.offset ∨ s'.BreakAt i := by
  obtain ⟨j, rfl, found⟩ := line
  rw [moved.text] at found
  rcases Nat.lt_or_ge j used.length with inside | behind
  · rw [List.getElem?_append_left inside] at found
    refine Or.inl ⟨List.mem_of_getElem? found, ?_⟩
    rw [moved.offset]
    exact Nat.add_lt_add_left inside _
  · rw [List.getElem?_append_right behind] at found
    refine Or.inr ⟨j - used.length, ?_, found⟩
    rw [moved.offset]
    omega

theorem BreakAt.onward {s' : Scanner} {used : List Char} {i : Nat} (moved : s.Moved used s')
    (oneLine : '\n' ∉ used) (line : s.BreakAt i) : s'.BreakAt i := by
  rcases line.cases moved with ⟨inside, _⟩ | behind
  · exact absurd inside oneLine
  · exact behind

theorem BreakAt.back {s' : Scanner} {used : List Char} {i : Nat} (moved : s.Moved used s')
    (line : s'.BreakAt i) : s.BreakAt i := by
  obtain ⟨j, rfl, found⟩ := line
  refine ⟨used.length + j, ?_, ?_⟩
  · rw [moved.offset, Nat.add_assoc]
  · rw [moved.text, List.getElem?_append_right (Nat.le_add_right _ _), Nat.add_sub_cancel_left]
    exact found

theorem BreakAt.here {rest : List Char} {i : Nat} (text : s.rest = '\n' :: rest) (line : s.BreakAt i) :
    i = s.position.offset ∨ (s.pass ['\n'] rest).BreakAt i := by
  refine (line.cases (movedNewline text)).imp_left fun ⟨_, before⟩ => ?_
  obtain ⟨j, same, _⟩ := line
  rw [passOffset, List.length_singleton] at before
  omega

theorem Scans.stop (scans : Scans s tokens final) :
    final.position.offset = s.position.offset + s.rest.length := by
  induction scans with
  | done empty => simp [empty]
  | gap text _ _ ih => rw [ih, (movedPass text).length]
  | newline text _ _ ih => rw [ih, (movedNewline text).length]
  | word text ok _ ih => rw [ih, (movedWord text ok).length]

def Settled (i : Nat) (before found : List Token) : Prop :=
  GoesOn before ∧ newlinesAt i found = 0 ∨ ¬ GoesOn before ∧ newlinesAt i found = 1

theorem Follows.settles {rest : List Char} (follows : s.Follows seen) (continues : s.continues = true)
    (more : Scans (s.pass ['\n'] rest) tokens final) :
    Settled s.position.offset (tokensBefore s.position.offset (seen ++ tokens)) tokens := by
  have later := more.offsets
  rw [passOffset] at later
  rw [tokensBeforeSplit follows.earlier fun t member => Nat.le_of_succ_le (later t member)]
  exact Or.inl ⟨follows.continuesIff.mp continues, newlinesLater later⟩

theorem Follows.settlesNewline {rest : List Char} (follows : s.Follows seen) (ends : s.continues = false)
    (more : Scans (s.pass ['\n'] rest) tokens final) :
    Settled s.position.offset (tokensBefore s.position.offset (seen ++ s.newlineToken :: tokens))
      (s.newlineToken :: tokens) := by
  have later := more.offsets
  rw [passOffset] at later
  have from' : ∀ t ∈ s.newlineToken :: tokens, s.position.offset ≤ t.offset :=
    List.forall_mem_cons.mpr ⟨Nat.le_refl _, fun t member => Nat.le_of_succ_le (later t member)⟩
  rw [tokensBeforeSplit follows.earlier from']
  refine Or.inr ⟨fun goesOn => ?_, ?_⟩
  · rw [follows.continuesIff.mpr goesOn] at ends
    cases ends
  · rw [newlinesHere (i := s.position.offset) (t := s.newlineToken) rfl rfl, newlinesLater later]

/- By induction on the moves. The moves before the break only add to the tokens seen. -/
theorem Scans.settles (scans : Scans s tokens final) (follows : s.Follows seen) {i : Nat}
    (line : s.BreakAt i) : Settled i (tokensBefore i (seen ++ tokens)) tokens := by
  induction scans generalizing seen with
  | done empty =>
    obtain ⟨j, _, found⟩ := line
    simp [empty] at found
  | gap text gap more ih =>
    cases gap with
    | newline continues =>
      rcases line.here text with rfl | behind
      · exact follows.settles continues more
      · exact ih (follows.gap _ _) behind
    | @blank c _ blank =>
      have oneLine : '\n' ≠ c := by
        rintro rfl
        cases blank
      exact ih (follows.gap _ _) (line.onward (movedPass text) (by simpa using oneLine))
    | comment oneLine =>
      exact ih (follows.gap _ _) (line.onward (movedPass text) (by simpa using oneLine))
  | @newline s _ _ _ text ends more ih =>
    rcases line.here text with rfl | behind
    · exact follows.settlesNewline ends more
    · have settled := ih (follows.newline _) behind
      have other : s.newlineToken.offset ≠ i := by
        obtain ⟨j, rfl, _⟩ := behind
        rw [passOffset]
        exact Nat.ne_of_lt (Nat.lt_add_right j (Nat.lt_succ_self _))
      rw [List.append_assoc] at settled
      unfold Settled at settled ⊢
      rwa [newlinesOther (Or.inr other)]
  | word text ok more ih =>
    have settled := ih (follows.word ok) (line.onward (movedWord text ok) (lexemeOneLine ok))
    rw [List.append_assoc] at settled
    unfold Settled at settled ⊢
    rwa [newlinesOther (Or.inl (lexemeNoNewline ok))]

theorem Scans.newlines (scans : Scans s tokens final) :
    ∀ t ∈ tokens, t.kind = .newline → s.BreakAt t.offset := by
  induction scans with
  | done => exact fun _ member => absurd member List.not_mem_nil
  | gap text gap more ih => exact fun t member newline => (ih t member newline).back (movedPass text)
  | newline text ends more ih =>
    refine List.forall_mem_cons.mpr ⟨fun _ => ⟨0, rfl, by rw [text]; rfl⟩, fun t member newline => ?_⟩
    exact (ih t member newline).back (movedNewline text)
  | word text ok more ih =>
    refine List.forall_mem_cons.mpr ⟨fun newline => absurd newline (lexemeNoNewline ok), ?_⟩
    exact fun t member newline => (ih t member newline).back (movedWord text ok)

end Scanner

theorem settledAlike {i j : Nat} {before before' found found' : List Token}
    (settled : Scanner.Settled i before found) (settled' : Scanner.Settled j before' found')
    (same : significant before = significant before') : newlinesAt i found = newlinesAt j found' := by
  have alike : GoesOn before ↔ GoesOn before' := by
    unfold GoesOn InBrackets LeftOpen
    rw [openBracketsSignificant, openBracketsSignificant, same]
  rcases settled with ⟨goesOn, none⟩ | ⟨ends, one⟩
  · rcases settled' with ⟨_, none'⟩ | ⟨ends', _⟩
    · rw [none, none']
    · exact absurd (alike.mp goesOn) ends'
  · rcases settled' with ⟨goesOn', _⟩ | ⟨_, one'⟩
    · exact absurd (alike.mpr goesOn') ends
    · rw [one, one']

theorem streamSettles {source : String} {stream : Stream} (ok : tokenize source = .ok stream) {i : Nat}
    (line : source.toList[i]? = some '\n') :
    Scanner.Settled i (tokensBefore i stream.toList) stream.toList := by
  obtain ⟨final, scans, stop⟩ := tokenizeScans ok
  have settled := scans.settles (Scanner.followsStart _) ⟨i, (Nat.zero_add i).symm, line⟩
  have inside : i < final.position.offset := by
    rw [scans.stop, Scanner.start, Position.start, Nat.zero_add]
    exact (List.getElem?_eq_some_iff.mp line).1
  have before : tokensBefore i stream.toList = tokensBefore i stream.body := by
    have late : ¬ stream.stop.offset < i := by
      rw [stop]
      exact Nat.not_lt.mpr (Nat.le_of_lt inside)
    simp [tokensBefore, Stream.toList, late]
  have found : newlinesAt i stream.toList = newlinesAt i stream.body := by
    simp [newlinesAt, Stream.toList, stop, Scanner.endToken]
  unfold Scanner.Settled at settled ⊢
  rw [before, found]
  exact settled

theorem newlineSignificance {source : String} {stream : Stream} (ok : tokenize source = .ok stream) :
    (∀ i, source.toList[i]? = some '\n' →
      newlinesAt i stream.toList ≤ 1 ∧
      (newlinesAt i stream.toList = 1 ↔
        ¬ InBrackets (tokensBefore i stream.toList) ∧ ¬ LeftOpen (tokensBefore i stream.toList))) ∧
    (∀ t ∈ stream.toList, t.kind = .newline → source.toList[t.offset]? = some '\n') ∧
    ∀ source' stream' i j, tokenize source' = .ok stream' → source.toList[i]? = some '\n' →
      source'.toList[j]? = some '\n' →
      significant (tokensBefore i stream.toList) = significant (tokensBefore j stream'.toList) →
      newlinesAt i stream.toList = newlinesAt j stream'.toList := by
  refine ⟨fun i line => ?_, ?_, fun source' stream' i j ok' line line' same => ?_⟩
  · rcases streamSettles ok line with ⟨goesOn, none⟩ | ⟨ends, one⟩
    · refine ⟨by omega, fun one => by omega, fun neither => absurd goesOn (not_or.mpr neither)⟩
    · exact ⟨by omega, fun _ => not_or.mp ends, fun _ => one⟩
  · obtain ⟨final, scans, stop⟩ := tokenizeScans ok
    intro t member newline
    rcases List.mem_append.mp member with inside | last
    · obtain ⟨j, offset, line⟩ := scans.newlines t inside newline
      rw [offset, Scanner.start, Position.start, Nat.zero_add]
      exact line
    · rw [List.mem_singleton.mp last, stop] at newline
      cases newline
  · exact settledAlike (streamSettles ok line) (streamSettles ok' line') same

def brokenSource : String := "a + // b\n f(1,\n 2]\n)\n\n"

theorem newlineSignificanceBroken : ∃ stream, tokenize brokenSource = .ok stream ∧
    newlinesAt 18 stream.toList = 0 ∧ GoesOn (tokensBefore 18 stream.toList) ∧
    newlinesAt 21 stream.toList = 1 ∧ ¬ GoesOn (tokensBefore 21 stream.toList) := by
  have counts : (tokenize brokenSource).toOption.map (fun stream =>
      (newlinesAt 18 stream.toList, newlinesAt 21 stream.toList)) = some (0, 1) := by decide +kernel
  cases ok : tokenize brokenSource with
  | error e => simp [ok, Except.toOption] at counts
  | ok stream =>
    simp only [ok, Except.toOption, Option.map_some, Option.some.injEq, Prod.mk.injEq] at counts
    obtain ⟨inside, outside⟩ := counts
    obtain ⟨rule, _, _⟩ := newlineSignificance ok
    refine ⟨stream, rfl, inside, ?_, outside, not_or.mpr ((rule 21 rfl).2.mp outside)⟩
    by_contra ends
    have one := (rule 18 rfl).2.mpr (not_or.mp ends)
    omega

end Scriptlet.Token
