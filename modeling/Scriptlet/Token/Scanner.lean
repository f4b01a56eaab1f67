import Scriptlet.Token.Basic

/-! From characters to tokens. Blanks and comments separate tokens. A newline is a token of its own,
except inside round or square brackets and after a token that awaits more. -/
namespace Scriptlet

namespace Token

inductive Fault where
  | unterminatedString
  | unterminatedEscape
  | unknownEscape (c : Char)
  | invalidCharacter (c : Char)
  deriving DecidableEq, Repr

def Fault.message : Fault → String
  | .unterminatedString => "Unterminated string literal"
  | .unterminatedEscape => "Unterminated escape sequence"
  | .unknownEscape c => "Unknown escape sequence '\\" ++ c.toString ++ "'"
  | .invalidCharacter c => "Invalid character '" ++ c.toString ++ "'"

structure Blame where
  fault : Fault
  rest : List Char
  deriving DecidableEq, Repr

structure Lexeme where
  kind : Kind
  value : List Char
  raw : List Char
  rest : List Char
  deriving DecidableEq, Repr

def isWordStart (c : Char) : Bool := c.isAlpha || c == '_'
def isWordPart (c : Char) : Bool := c.isAlphanum || c == '_'

def splitNumber (source : List Char) : List Char × List Char :=
  let whole := source.takeWhile Char.isDigit
  match source.dropWhile Char.isDigit with
  | '.' :: c :: rest =>
    if c.isDigit then
      (whole ++ '.' :: (c :: rest).takeWhile Char.isDigit, (c :: rest).dropWhile Char.isDigit)
    else (whole, '.' :: c :: rest)
  | rest => (whole, rest)

theorem splitNumberAppend (source : List Char) :
    (splitNumber source).1 ++ (splitNumber source).2 = source := by
  have split := List.takeWhile_append_dropWhile (p := Char.isDigit) (l := source)
  unfold splitNumber
  split
  · rename_i c rest found
    rw [found] at split
    split
    · simp only [List.append_assoc, List.cons_append, List.takeWhile_append_dropWhile]
      exact split
    · exact split
  · exact split

def escape? : Char → Option Char
  | 'n' => some '\n'
  | 't' => some '\t'
  | '\\' => some '\\'
  | '"' => some '"'
  | '\'' => some '\''
  | _ => none

/-- The rest of a string after its opening mark: what it stands for, how it is written, and the source
after it. A string ends on the line on which it starts. -/
def splitString (mark : Char) (opening : List Char) :
    List Char → Except Blame (List Char × List Char × List Char)
  | [] => .error ⟨.unterminatedString, opening⟩
  | ['\\'] => .error ⟨.unterminatedEscape, ['\\']⟩
  | '\\' :: c :: rest => match escape? c with
    | none => .error ⟨.unknownEscape c, '\\' :: c :: rest⟩
    | some meant => do
      let (value, raw, after) ← splitString mark opening rest
      .ok (meant :: value, '\\' :: c :: raw, after)
  | c :: rest =>
    if c = '\n' then .error ⟨.unterminatedString, opening⟩
    else if c = mark then .ok ([], [c], rest)
    else do
      let (value, raw, after) ← splitString mark opening rest
      .ok (c :: value, c :: raw, after)

theorem splitStringAppend {mark : Char} {opening source value raw after : List Char}
    (ok : splitString mark opening source = .ok (value, raw, after)) : raw ++ after = source := by
  fun_induction splitString mark opening source generalizing value raw after with
  | case1 => cases ok
  | case2 => cases ok
  | case3 => cases ok
  | case4 c rest meant known ih =>
    cases tail : splitString mark opening rest with
    | error blame => simp [tail, bind, Except.bind] at ok
    | ok found =>
      obtain ⟨v, r, a⟩ := found
      simp only [tail, bind, Except.bind, Except.ok.injEq, Prod.mk.injEq] at ok
      obtain ⟨_, rfl, rfl⟩ := ok
      simp [ih tail]
  | case5 => cases ok
  | case6 => cases ok; simp
  | case7 c rest _ _ _ _ ih =>
    cases tail : splitString mark opening rest with
    | error blame => simp [tail, bind, Except.bind] at ok
    | ok found =>
      obtain ⟨v, r, a⟩ := found
      simp only [tail, bind, Except.bind, Except.ok.injEq, Prod.mk.injEq] at ok
      obtain ⟨_, rfl, rfl⟩ := ok
      simp [ih tail]

def lexeme (c : Char) (rest : List Char) : Except Blame Lexeme :=
  if c.isDigit then
    let (raw, after) := splitNumber (c :: rest)
    .ok ⟨.number, raw, raw, after⟩
  else if c = '"' ∨ c = '\'' then do
    let (value, raw, after) ← splitString c (c :: rest) rest
    .ok ⟨.string, value, c :: raw, after⟩
  else if isWordStart c then
    let raw := (c :: rest).takeWhile isWordPart
    .ok ⟨.ofWord raw, raw, raw, (c :: rest).dropWhile isWordPart⟩
  else match Kind.marks.find? fun mark => mark.1.isPrefixOf (c :: rest) with
    | some (raw, kind) => .ok ⟨kind, raw, raw, (c :: rest).drop raw.length⟩
    | none => .error ⟨.invalidCharacter c, c :: rest⟩

theorem lexemeAppend {c : Char} {rest : List Char} {l : Lexeme} (ok : lexeme c rest = .ok l) :
    l.raw ++ l.rest = c :: rest ∧ l.raw ≠ [] := by
  unfold lexeme at ok
  split at ok
  · rename_i digit
    cases ok
    have whole := splitNumberAppend (c :: rest)
    refine ⟨whole, fun empty => ?_⟩
    have front : (splitNumber (c :: rest)).1 ≠ [] := by
      unfold splitNumber
      simp only [List.takeWhile_cons, List.dropWhile_cons, digit, if_true]
      split
      · split <;> simp
      · simp
    exact front empty
  · split at ok
    · cases tail : splitString c (c :: rest) rest with
      | error blame => simp [tail, bind, Except.bind] at ok
      | ok found =>
        obtain ⟨v, r, a⟩ := found
        simp only [tail, bind, Except.bind, Except.ok.injEq] at ok
        subst ok
        simp [splitStringAppend tail]
    · split at ok
      · rename_i start
        cases ok
        have part : isWordPart c = true := by
          simp only [isWordStart, isWordPart, Char.isAlphanum, Bool.or_eq_true] at start ⊢
          rcases start with alpha | under
          · exact Or.inl (Or.inl alpha)
          · exact Or.inr under
        refine ⟨List.takeWhile_append_dropWhile, ?_⟩
        simp [part]
      · split at ok
        · rename_i raw kind found
          cases ok
          have front := List.find?_some found
          have listed := List.mem_of_find?_eq_some found
          rw [List.isPrefixOf_iff_prefix] at front
          obtain ⟨tail, same⟩ := front
          refine ⟨?_, fun empty => ?_⟩
          · simp only [← same, List.drop_left]
          · simp only at empty
            subst empty
            simp [Kind.marks] at listed
        · cases ok

/-- The state of a scan: where it stands, what is left, which brackets are open (innermost first), and
the kind of the last token that was no newline. -/
structure Scanner where
  position : Position
  rest : List Char
  brackets : List Bracket := []
  last : Option Kind := none
  deriving DecidableEq, Repr

namespace Scanner

def start (source : List Char) : Scanner := ⟨.start, source, [], none⟩

def continues (s : Scanner) : Bool :=
  match s.brackets.head? with
  | some .paren | some .square => true
  | _ => match s.last with
    | some k => k.awaitsMore
    | none => false

def pass (s : Scanner) (raw after : List Char) : Scanner :=
  { s with position := s.position.after raw, rest := after }

inductive Step where
  | finished
  | skipped (s : Scanner)
  | token (t : Token) (s : Scanner)
  | failed (blame : Blame)

def isBlank (c : Char) : Bool := c == ' ' || c == '\t' || c == '\r'

def step (s : Scanner) : Step :=
  match s.rest with
  | [] => .finished
  | c :: rest =>
    if c = '\n' then
      let s' := s.pass ['\n'] rest
      if s.continues then .skipped s'
      else .token ⟨.newline, "\n", "\n", s.position.offset, s.position.place⟩ s'
    else if isBlank c then .skipped (s.pass [c] rest)
    else if c = '/' ∧ rest.head? = some '/' then
      .skipped (s.pass ((c :: rest).takeWhile (· ≠ '\n')) ((c :: rest).dropWhile (· ≠ '\n')))
    else match lexeme c rest with
      | .error blame => .failed blame
      | .ok l =>
        .token ⟨l.kind, String.ofList l.value, String.ofList l.raw, s.position.offset, s.position.place⟩
          { s.pass l.raw l.rest with brackets := Bracket.track s.brackets l.kind, last := some l.kind }

theorem skippedShorter {s s' : Scanner} (h : s.step = .skipped s') : s'.rest.length < s.rest.length := by
  unfold step at h
  split at h
  · cases h
  · rename_i c rest source
    rw [source]
    split at h
    · split at h <;> cases h
      simp [pass]
    · split at h
      · cases h; simp [pass]
      · split at h
        · rename_i line _ comment
          cases h
          have shorter := (List.dropWhile_suffix (l := rest) (fun x => decide (x ≠ '\n'))).length_le
          simp only [pass, List.dropWhile_cons, comment.1]
          simp at shorter ⊢
          omega
        · split at h <;> cases h

theorem tokenShorter {s s' : Scanner} {t : Token} (h : s.step = .token t s') :
    s'.rest.length < s.rest.length := by
  unfold step at h
  split at h
  · cases h
  · rename_i c rest source
    rw [source]
    split at h
    · split at h <;> cases h
      simp [pass]
    · split at h
      · cases h
      · split at h
        · cases h
        · split at h
          · cases h
          · rename_i l found
            cases h
            obtain ⟨whole, front⟩ := lexemeAppend found
            have size := congrArg List.length whole
            have positive := List.length_pos_iff.mpr front
            simp only [List.length_append] at size
            simp only [pass]
            omega

/-- One token of a scan, with the state around it: the last token before it that was no newline, and
the open brackets and the position after it. -/
structure Found where
  token : Token
  previous : Option Kind
  brackets : List Bracket
  position : Position
  deriving DecidableEq, Repr

def run (s : Scanner) : List Found × Except Blame Scanner :=
  match _h : s.step with
  | .finished => ([], .ok s)
  | .skipped s' => run s'
  | .failed blame => ([], .error blame)
  | .token t s' =>
    let tail := run s'
    (⟨t, s.last, s'.brackets, s'.position⟩ :: tail.1, tail.2)
termination_by s.rest.length
decreasing_by
  · exact skippedShorter _h
  · exact tokenShorter _h

def endToken (s : Scanner) : Token := ⟨.eof, "", "", s.position.offset, s.position.place⟩

end Scanner

structure Error where
  fault : Fault
  offset : Nat
  source : String
  deriving DecidableEq, Repr

def Error.diagnostic (e : Error) : Diagnostic := ⟨e.fault.message, e.offset, e.source⟩

def Blame.toError (source : String) (blame : Blame) : Error :=
  ⟨blame.fault, source.length - blame.rest.length, source⟩

structure Stream where
  body : List Token
  stop : Token
  deriving DecidableEq, Repr

def Stream.toList (s : Stream) : List Token := s.body ++ [s.stop]

def scan (source : String) : Except Error Stream :=
  let found := (Scanner.start source.toList).run
  match found.2 with
  | .ok final => .ok ⟨found.1.map (·.token), final.endToken⟩
  | .error blame => .error (blame.toError source)

end Token

end Scriptlet
