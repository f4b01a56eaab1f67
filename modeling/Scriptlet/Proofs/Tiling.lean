import Scriptlet.Proofs.LineBreaks

/-! The tokens of a source cover it, but for blanks, comments and line breaks that say nothing. -/
namespace Scriptlet.Token

/- A stretch without tokens, given the tokens before it and the source after it. It is made of blanks, of
line breaks where the line goes on, and of comments, each of which reaches to the end of its line. -/
inductive Filler (before : List Token) : List Char → List Char → Prop where
  | done {rest} : Filler before [] rest
  | blank {c text rest} (blank : c = ' ' ∨ c = '\t' ∨ c = '\r') (more : Filler before text rest) :
      Filler before (c :: text) rest
  | newline {text rest} (goesOn : GoesOn before) (more : Filler before text rest) :
      Filler before ('\n' :: text) rest
  | comment {line text rest} (oneLine : '\n' ∉ line) (stop : ∀ c ∈ (text ++ rest).head?, c = '\n')
      (more : Filler before text rest) : Filler before ('/' :: '/' :: (line ++ text)) rest

def slice (source : List Char) (i j : Nat) : List Char := (source.drop i).take (j - i)

def finish (t : Token) : Nat := t.offset + t.raw.length

def endOf (start : Nat) (tokens : List Token) : Nat := tokens.foldl (fun _ t => t.finish) start

def covers (i : Nat) (t : Token) : Bool := t.offset ≤ i && i < t.finish

structure Tiles (source : List Char) (body : List Token) (stop : Token) : Prop where
  atEnd : stop.kind = .eof ∧ stop.offset = source.length ∧ stop.raw = ""
  onlyStop : ∀ t ∈ body, t.kind ≠ .eof
  raw : ∀ t ∈ body, t.raw ≠ "" ∧ t.raw.toList = slice source t.offset t.finish
  ordered : (body ++ [stop]).Pairwise fun t u => t.offset < u.offset ∧ t.finish ≤ u.offset
  between : ∀ before t after, body ++ [stop] = before ++ t :: after →
    Filler before (slice source (endOf 0 before) t.offset) (source.drop t.offset)
  once : ∀ i, body.countP (covers i) ≤ 1
  nothingLost : ∀ i < source.length, body.countP (covers i) = 0 →
    ∃ before t after, body ++ [stop] = before ++ t :: after ∧ endOf 0 before ≤ i ∧ i < t.offset

theorem sliceMiddle (front text rest : List Char) :
    slice (front ++ (text ++ rest)) front.length (front.length + text.length) = text := by
  simp [slice]

inductive Tiled : List Token → Nat → List Char → List Token → Token → Prop where
  | stop {seen i gap stop} (filler : Filler seen gap []) (kind : stop.kind = .eof) (raw : stop.raw = "")
      (offset : stop.offset = i + gap.length) : Tiled seen i gap [] stop
  | token {seen i gap t rest body stop} (filler : Filler seen gap (t.raw.toList ++ rest))
      (kind : t.kind ≠ .eof) (some : t.raw ≠ "") (offset : t.offset = i + gap.length)
      (more : Tiled (seen ++ [t]) t.finish rest body stop) :
      Tiled seen i (gap ++ (t.raw.toList ++ rest)) (t :: body) stop

section Build
open Scanner
variable {s final : Scanner} {seen tokens : List Token}

theorem fillerGap (follows : s.Follows seen) {used text rest : List Char} (gap : Gap s used (text ++ rest))
    (more : Filler seen text rest) : Filler seen (used ++ text) rest := by
  cases gap with
  | newline continues => exact .newline (follows.continuesIff.mp continues) more
  | blank blank =>
    refine .blank ?_ more
    simpa [isBlank, or_assoc] using blank
  | comment oneLine stop => exact .comment oneLine stop more

theorem tiledGap (follows : s.Follows seen) {used rest : List Char} (gap : Gap s used rest) {i : Nat}
    {stop : Token} (more : Tiled seen (i + used.length) rest tokens stop) :
    Tiled seen i (used ++ rest) tokens stop := by
  cases more with
  | stop filler kind raw offset =>
    rw [← List.append_nil rest] at gap
    refine .stop (fillerGap follows gap filler) kind raw ?_
    rw [offset, List.length_append, Nat.add_assoc]
  | token filler kind some offset more =>
    rw [← List.append_assoc]
    refine .token (fillerGap follows gap filler) kind some ?_ more
    rw [offset, List.length_append, Nat.add_assoc]

theorem tiledToken {t stop : Token} {used rest : List Char} (kind : t.kind ≠ .eof)
    (raw : t.raw.toList = used) (some : used ≠ [])
    (more : Tiled (seen ++ [t]) (t.offset + used.length) rest tokens stop) :
    Tiled seen t.offset (used ++ rest) (t :: tokens) stop := by
  subst raw
  rw [String.length_toList] at more
  refine .token .done kind (fun empty => some ?_) rfl more
  rw [empty]
  rfl

theorem lexemeNoEnd {c : Char} {rest : List Char} {l : Lexeme} (ok : lexeme c rest = .ok l) :
    l.kind ≠ .eof := by
  intro ends
  have shaped := lexemeShaped ok
  rw [ends] at shaped
  exact shaped

theorem scansTiled (scans : Scans s tokens final) (follows : s.Follows seen) :
    Tiled seen s.position.offset s.rest tokens final.endToken := by
  induction scans generalizing seen with
  | done empty =>
    rw [empty]
    exact .stop .done rfl rfl rfl
  | gap text gap _ ih =>
    rw [text]
    have more := ih (follows.gap _ _)
    rw [passOffset] at more
    exact tiledGap follows gap more
  | @newline s _ _ _ text _ _ ih =>
    have more := ih (follows.newline _)
    rw [passOffset] at more
    rw [text]
    exact tiledToken (t := s.newlineToken) Kind.noConfusion (by simp [newlineToken]) (List.cons_ne_nil _ _) more
  | @word s c rest l _ _ text ok _ ih =>
    obtain ⟨split, some⟩ := lexemeAppend ok
    have more := ih (follows.word ok)
    rw [passWordOffset] at more
    rw [text, ← split]
    exact tiledToken (t := s.wordToken l) (lexemeNoEnd ok) String.toList_ofList some more

end Build

namespace Tiled

variable {seen body : List Token} {i : Nat} {text : List Char} {stop : Token}

theorem finishLength (t : Token) (gap : List Char) (offset : t.offset = i + gap.length) :
    t.finish = i + gap.length + t.raw.toList.length := by
  rw [finish, offset, String.length_toList]

theorem ends (tiled : Tiled seen i text body stop) :
    stop.kind = .eof ∧ stop.raw = "" ∧ stop.offset = i + text.length := by
  induction tiled with
  | stop _ kind raw offset => exact ⟨kind, raw, offset⟩
  | token _ _ _ offset _ ih =>
    obtain ⟨kind, raw, last⟩ := ih
    refine ⟨kind, raw, ?_⟩
    rw [last, finishLength _ _ offset, List.length_append, List.length_append]
    omega

theorem kinds (tiled : Tiled seen i text body stop) : ∀ t ∈ body, t.kind ≠ .eof ∧ t.raw ≠ "" := by
  induction tiled with
  | stop => exact fun _ member => absurd member List.not_mem_nil
  | token _ kind some _ _ ih => exact List.forall_mem_cons.mpr ⟨⟨kind, some⟩, ih⟩

theorem raws (tiled : Tiled seen i text body stop) (front : List Char) (start : front.length = i) :
    ∀ t ∈ body, t.raw.toList = slice (front ++ text) t.offset t.finish := by
  induction tiled generalizing front with
  | stop => exact fun _ member => absurd member List.not_mem_nil
  | @token _ _ gap t rest _ _ _ _ _ offset _ ih =>
    have size := finishLength t gap offset
    have whole : front ++ (gap ++ (t.raw.toList ++ rest)) = (front ++ gap ++ t.raw.toList) ++ rest := by simp
    refine List.forall_mem_cons.mpr ⟨?_, fun u member => ?_⟩
    · have middle := sliceMiddle (front ++ gap) t.raw.toList rest
      rw [List.length_append, start, ← offset] at middle
      rw [size, ← offset, ← List.append_assoc]
      exact middle.symm
    · rw [whole]
      exact ih _ (by simp only [List.length_append, start, size]) u member

theorem behind (tiled : Tiled seen i text body stop) : ∀ t ∈ body ++ [stop], i ≤ t.offset := by
  induction tiled with
  | stop _ _ _ offset => exact List.forall_mem_singleton.mpr (by omega)
  | token _ _ _ offset _ ih =>
    refine List.forall_mem_cons.mpr ⟨by omega, fun u member => ?_⟩
    have later := ih u member
    rw [finishLength _ _ offset] at later
    omega

theorem ordered (tiled : Tiled seen i text body stop) :
    (body ++ [stop]).Pairwise fun t u => t.offset < u.offset ∧ t.finish ≤ u.offset := by
  induction tiled with
  | stop => exact List.pairwise_singleton _ _
  | @token _ _ _ t _ _ _ _ _ some _ more ih =>
    refine List.pairwise_cons.mpr ⟨fun u member => ?_, ih⟩
    have later := more.behind u member
    have positive : 0 < t.raw.length := Nat.pos_of_ne_zero fun none => some (String.length_eq_zero_iff.mp none)
    refine ⟨?_, later⟩
    unfold finish at later
    omega

theorem between (tiled : Tiled seen i text body stop) (front : List Char) (start : front.length = i)
    {before after : List Token} {t : Token} (split : body ++ [stop] = before ++ t :: after) :
    Filler (seen ++ before) (slice (front ++ text) (endOf i before) t.offset)
      ((front ++ text).drop t.offset) := by
  induction tiled generalizing front before with
  | @stop _ _ gap _ filler _ _ offset =>
    obtain ⟨rfl, same⟩ : before = [] ∧ _ := by
      cases before with
      | nil => exact ⟨rfl, (List.cons.inj split).1⟩
      | cons u more => simp at split
    have whole := sliceMiddle front gap []
    rw [List.append_nil, start, ← offset] at whole
    have nothing : (front ++ gap).drop t.offset = [] := by
      rw [List.drop_eq_nil_iff, List.length_append, start, ← same, offset]
    rw [List.append_nil, nothing, ← same, endOf, List.foldl_nil, whole]
    exact filler
  | @token seen _ gap u rest _ _ filler _ _ offset _ ih =>
    cases before with
    | nil =>
      obtain ⟨rfl, _⟩ := List.cons.inj split
      have whole := sliceMiddle front gap (u.raw.toList ++ rest)
      rw [start, ← offset] at whole
      have tail : (front ++ (gap ++ (u.raw.toList ++ rest))).drop u.offset = u.raw.toList ++ rest := by
        rw [← List.append_assoc, List.drop_left' (by rw [List.length_append, start, offset])]
      rw [List.append_nil, tail, endOf, List.foldl_nil, whole]
      exact filler
    | cons v more =>
      obtain ⟨rfl, later⟩ := List.cons.inj split
      have size := finishLength u gap offset
      have whole : front ++ (gap ++ (u.raw.toList ++ rest)) = (front ++ gap ++ u.raw.toList) ++ rest := by
        simp
      have filler := ih (front ++ gap ++ u.raw.toList)
        (by simp only [List.length_append, start, size]) later
      rw [List.append_assoc seen] at filler
      rw [whole]
      exact filler

theorem once (tiled : Tiled seen i text body stop) (j : Nat) : body.countP (covers j) ≤ 1 := by
  induction tiled with
  | stop => exact Nat.zero_le 1
  | @token _ _ _ t _ body _ _ _ _ _ more ih =>
    by_cases inside : covers j t = true
    · have others : body.countP (covers j) = 0 := by
        refine List.countP_eq_zero.mpr fun u member again => ?_
        have later := more.behind u (List.mem_append_left _ member)
        simp only [covers, Bool.and_eq_true, decide_eq_true_eq] at inside again
        omega
      rw [List.countP_cons_of_pos inside, others]
    · rw [List.countP_cons_of_neg inside]
      exact ih

theorem nothingLost (tiled : Tiled seen i text body stop) {j : Nat} (low : i ≤ j) (high : j < i + text.length)
    (none : body.countP (covers j) = 0) :
    ∃ before t after, body ++ [stop] = before ++ t :: after ∧ endOf i before ≤ j ∧ j < t.offset := by
  induction tiled with
  | @stop _ _ _ stop _ _ _ offset => exact ⟨[], stop, [], rfl, low, by omega⟩
  | @token _ _ gap t rest body stop _ _ _ offset _ ih =>
    have size := finishLength t gap offset
    rcases Nat.lt_or_ge j t.offset with before | behind
    · exact ⟨[], t, body ++ [stop], rfl, low, before⟩
    · have outside : ¬ covers j t = true := List.countP_eq_zero.mp none t List.mem_cons_self
      have past : t.finish ≤ j := by
        simp only [covers, Bool.and_eq_true, decide_eq_true_eq] at outside
        omega
      rw [List.countP_cons_of_neg outside] at none
      rw [List.length_append, List.length_append] at high
      obtain ⟨before, u, after, split, from', upTo⟩ := ih past (by omega) none
      exact ⟨t :: before, u, after, congrArg (t :: ·) split, from', upTo⟩

end Tiled

theorem tokenizeTiled {source : String} {stream : Stream} (ok : tokenize source = .ok stream) :
    Tiled [] 0 source.toList stream.body stream.stop := by
  obtain ⟨final, scans, stop⟩ := tokenizeScans ok
  rw [stop]
  exact scansTiled scans (Scanner.followsStart source.toList)

theorem tokensTile {source : String} {stream : Stream} (ok : tokenize source = .ok stream) :
    Tiles source.toList stream.body stream.stop := by
  have whole := tokenizeTiled ok
  obtain ⟨kind, raw, offset⟩ := whole.ends
  rw [Nat.zero_add] at offset
  exact {
    atEnd := ⟨kind, offset, raw⟩
    onlyStop := fun t member => (whole.kinds t member).1
    raw := fun t member => ⟨(whole.kinds t member).2, whole.raws [] rfl t member⟩
    ordered := whole.ordered
    between := fun before t after split => whole.between [] rfl split
    once := whole.once
    nothingLost := fun i inside none => whole.nothingLost (Nat.zero_le i) (by rwa [Nat.zero_add]) none }

def tiledSource : String := "a + // b\n 1.x\r\n('\\n'\n\t== 2.5)//"

theorem tokensTileSample : ∃ stream, tokenize tiledSource = .ok stream ∧ stream.body.length = 11 ∧
    Tiles tiledSource.toList stream.body stream.stop := by
  have size : (tokenize tiledSource).toOption.map (·.body.length) = some 11 := by decide +kernel
  cases ok : tokenize tiledSource with
  | error e => simp [ok, Except.toOption] at size
  | ok stream => exact ⟨stream, rfl, by simpa [ok, Except.toOption] using size, tokensTile ok⟩

end Scriptlet.Token
