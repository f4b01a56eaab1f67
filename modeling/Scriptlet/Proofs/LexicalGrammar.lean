import Scriptlet.Proofs.Spacing

/-! The words of a script, said without the scan that finds them. A source has tokens if it can be cut into
words in some way or other: where a scan takes a longer word than another cut does, what the scan takes in
addition was words as well, and the rest can still be cut. -/
namespace Scriptlet.Token

def operators : List (List Char) :=
  [['=', '='], ['!', '='], ['<', '='], ['>', '='], ['&', '&'], ['|', '|'], ['=', '>'], ['+'], ['-'], ['*'],
   ['/'], ['%'], ['<'], ['>'], ['!'], ['?'], [':'], ['='], [','], ['.'], ['('], [')'], ['\x7b'], ['\x7d'],
   ['['], [']']]

inductive Content (mark : Char) : List Char → Prop where
  | empty : Content mark []
  | escape {c more} (known : c ∈ ['n', 't', '\\', '"', '\'']) (rest : Content mark more) :
      Content mark ('\\' :: c :: more)
  | plain {c more} (free : c ∉ [mark, '\\', '\n']) (rest : Content mark more) : Content mark (c :: more)

inductive Lexical : List Char → Prop where
  | blank {c} (blank : c ∈ [' ', '\t', '\r']) : Lexical [c]
  | line : Lexical ['\n']
  | whole {digits} (plain : Numeral.Plain digits) (some : digits ≠ []) : Lexical digits
  | fraction {whole digits} (plain : Numeral.Plain whole) (some : whole ≠ []) (plain' : Numeral.Plain digits)
      (some' : digits ≠ []) : Lexical (whole ++ '.' :: digits)
  | name {c parts} (start : c.isAlpha = true ∨ c = '_') (more : ∀ d ∈ parts, d.isAlphanum = true ∨ d = '_') :
      Lexical (c :: parts)
  | operator {op} (listed : op ∈ operators) : Lexical op
  | string {mark body} (quote : mark = '"' ∨ mark = '\'') (content : Content mark body) :
      Lexical (mark :: (body ++ [mark]))

/- A source cut into words. A comment takes the rest of its line. -/
inductive Splits : List Char → Prop where
  | done : Splits []
  | word {text rest} (head : Lexical text) (tail : Splits rest) : Splits (text ++ rest)
  | comment {line rest} (oneLine : '\n' ∉ line) (stop : ∀ c ∈ rest.head?, c = '\n') (tail : Splits rest) :
      Splits ('/' :: '/' :: (line ++ rest))

theorem isWordStartIff {c : Char} : isWordStart c = true ↔ c.isAlpha = true ∨ c = '_' := by
  simp [isWordStart]

theorem isWordPartIff {c : Char} : isWordPart c = true ↔ c.isAlphanum = true ∨ c = '_' := by
  simp [isWordPart]

theorem isBlankIff {c : Char} : Scanner.isBlank c = true ↔ c ∈ [' ', '\t', '\r'] := by
  simp [Scanner.isBlank, or_assoc]

section Strings
variable {mark : Char} {opening body value raw after : List Char}

theorem escapeKnown (c : Char) : (∃ meant, escape? c = some meant) ↔ c ∈ ['n', 't', '\\', '"', '\''] := by
  unfold escape?
  split <;> simp_all

theorem splitStringContent {source : List Char} (ok : splitString mark opening source = .ok (value, raw, after)) :
    ∃ body, raw = body ++ [mark] ∧ Content mark body := by
  fun_induction splitString mark opening source generalizing value raw after with
  | case1 => cases ok
  | case2 => cases ok
  | case3 => cases ok
  | case4 c rest meant known ih =>
    obtain ⟨⟨v, r, a⟩, tail, same⟩ := exceptBindOk.mp ok
    cases same
    obtain ⟨body, rfl, content⟩ := ih tail
    exact ⟨'\\' :: c :: body, rfl, .escape ((escapeKnown c).mp ⟨meant, known⟩) content⟩
  | case5 => cases ok
  | case6 =>
    cases ok
    exact ⟨[], rfl, .empty⟩
  | case7 c rest notEnd notEscape line other ih =>
    obtain ⟨⟨v, r, a⟩, tail, same⟩ := exceptBindOk.mp ok
    cases same
    obtain ⟨body, rfl, content⟩ := ih tail
    have free : c ∉ [mark, '\\', '\n'] := by simp [other, line, notBackslash notEnd notEscape]
    exact ⟨c :: body, rfl, .plain free content⟩

theorem Content.splitString (content : Content mark body) (quote : mark = '"' ∨ mark = '\'')
    (opening after : List Char) :
    ∃ value, Token.splitString mark opening (body ++ mark :: after) = .ok (value, body ++ [mark], after) := by
  induction content with
  | empty => rcases quote with rfl | rfl <;> exact ⟨[], by simp [Token.splitString]⟩
  | @escape c more known _ ih =>
    obtain ⟨value, tail⟩ := ih
    obtain ⟨meant, escape⟩ := (escapeKnown c).mpr known
    exact ⟨meant :: value, by simp [Token.splitString, escape, tail, bind, Except.bind]⟩
  | @plain c more free _ ih =>
    obtain ⟨value, tail⟩ := ih
    simp only [List.mem_cons, List.not_mem_nil, or_false, not_or] at free
    obtain ⟨other, noEscape, line⟩ := free
    exact ⟨c :: value, by simp [Token.splitString, other, noEscape, line, tail, bind, Except.bind]⟩

theorem Content.oneLine (content : Content mark body) : '\n' ∉ body := by
  induction content with
  | empty => exact List.not_mem_nil
  | @escape c more known _ ih =>
    have other : '\n' ≠ c := by
      intro same
      subst same
      exact absurd known (by decide)
    simp [other, ih]
  | @plain c more free _ ih =>
    have other : '\n' ≠ c := by
      intro same
      subst same
      exact free (by simp)
    simp [other, ih]

end Strings

theorem unsignedLexical {text : List Char} (number : Unsigned text) : Lexical text := by
  obtain ⟨⟨negative, whole, fraction, exponent⟩, valid, rfl, rfl, rfl⟩ := number
  cases fraction with
  | none =>
    have written := Lexical.whole valid.whole.1 valid.whole.2
    simpa [Numeral.Written.text, Numeral.Written.signText, Numeral.Written.fractionText,
      Numeral.Written.exponentText] using written
  | some digits =>
    obtain ⟨plain, nonempty⟩ := valid.fraction digits rfl
    have written := Lexical.fraction valid.whole.1 valid.whole.2 plain nonempty
    simpa [Numeral.Written.text, Numeral.Written.signText, Numeral.Written.fractionText,
      Numeral.Written.exponentText] using written

theorem lexemeLexical {c : Char} {rest : List Char} {l : Lexeme} (ok : lexeme c rest = .ok l) :
    Lexical l.raw := by
  rcases lexemeCases ok with ⟨digit, _, raw, _⟩ | ⟨raw, quote, tail, _, same⟩ | ⟨start, _, raw, _⟩ | ⟨mark, _⟩
  · rw [raw]
    exact unsignedLexical (splitNumberUnsigned digit rest)
  · obtain ⟨body, rfl, content⟩ := splitStringContent tail
    rw [same]
    exact .string quote content
  · rw [raw, List.takeWhile_cons_of_pos (isWordPartOfStart start)]
    have parts : ∀ d ∈ rest.takeWhile isWordPart, isWordPart d = true := List.all_eq_true.mp List.all_takeWhile
    exact .name (isWordStartIff.mp start) fun d member => isWordPartIff.mp (parts d member)
  · have table : ∀ entry ∈ Kind.marks, entry.1 ∈ operators := by decide
    exact .operator (table _ mark)

theorem Scanner.Scans.splits {s final : Scanner} {tokens : List Token} (scans : Scans s tokens final) :
    Splits s.rest := by
  induction scans with
  | done empty =>
    rw [empty]
    exact .done
  | gap text gap _ ih =>
    rw [text]
    cases gap with
    | newline _ => exact .word .line ih
    | blank blank => exact .word (.blank (isBlankIff.mp blank)) ih
    | comment oneLine stop => exact .comment oneLine stop ih
  | newline text _ _ ih =>
    rw [text]
    exact .word .line ih
  | word text ok _ ih =>
    rw [text, ← (lexemeAppend ok).1]
    exact .word (lexemeLexical ok) ih

/- A character that a word may be short of, or a blank. A text that can be cut and starts with one can be
cut without it as well. -/
def loose (c : Char) : Bool := isWordPart c || [' ', '\t', '\r', '\n', '.', '=', '>'].contains c

theorem looseGap {c : Char} (gap : c = '\n' ∨ Scanner.isBlank c = true) : loose c = true := by
  rcases gap with rfl | blank
  · decide
  · have listed := isBlankIff.mp blank
    fin_cases listed <;> decide

theorem loosePart {c : Char} (part : isWordPart c = true) : loose c = true := by simp [loose, part]

theorem wordOne {c : Char} (part : isWordPart c = true ∨ c = '.') : Lexical [c] := by
  rcases part with part | rfl
  · rcases isWordPartIff.mp part with letter | rfl
    · rcases Bool.or_eq_true_iff.mp letter with alpha | digit
      · exact .name (Or.inl alpha) (List.forall_mem_nil _)
      · exact .whole (List.forall_mem_singleton.mpr digit) (by simp)
    · exact .name (Or.inr rfl) (List.forall_mem_nil _)
  · exact .operator (by decide)

theorem Splits.parts {more tail : List Char} (parts : ∀ d ∈ more, isWordPart d = true ∨ d = '.')
    (splits : Splits tail) : Splits (more ++ tail) := by
  induction more with
  | nil => exact splits
  | cons d rest ih =>
    obtain ⟨one, others⟩ := List.forall_mem_cons.mp parts
    have split := Splits.word (wordOne one) (ih others)
    exact split

theorem Lexical.start {c : Char} {more : List Char} (word : Lexical (c :: more)) :
    ((c = '\n' ∨ Scanner.isBlank c = true) ∧ more = []) ∨
    (isWordPart c = true ∧ ∀ d ∈ more, isWordPart d = true ∨ d = '.') ∨
    c :: more ∈ operators ∨
    ((c = '"' ∨ c = '\'') ∧ ∃ body, more = body ++ [c] ∧ Content c body) := by
  generalize same : c :: more = text at word
  cases word with
  | blank blank =>
    cases same
    exact Or.inl ⟨Or.inr (isBlankIff.mpr blank), rfl⟩
  | line =>
    cases same
    exact Or.inl ⟨Or.inl rfl, rfl⟩
  | whole plain _ =>
    subst same
    obtain ⟨digit, digits⟩ := List.forall_mem_cons.mp plain
    exact Or.inr (Or.inl ⟨digitPart digit, fun d member => Or.inl (digitPart (digits d member))⟩)
  | @fraction whole digits plain some plain' _ =>
    obtain ⟨e, rest, rfl⟩ := List.exists_cons_of_ne_nil some
    cases same
    obtain ⟨digit, front⟩ := List.forall_mem_cons.mp plain
    refine Or.inr (Or.inl ⟨digitPart digit, fun d member => ?_⟩)
    rcases List.mem_append.mp member with before | after
    · exact Or.inl (digitPart (front d before))
    · rcases List.mem_cons.mp after with point | later
      · exact Or.inr point
      · exact Or.inl (digitPart (plain' d later))
  | name start parts =>
    cases same
    refine Or.inr (Or.inl ⟨isWordPartOfStart (isWordStartIff.mpr start), fun d member => ?_⟩)
    exact Or.inl (isWordPartIff.mpr (parts d member))
  | operator listed =>
    subst same
    exact Or.inr (Or.inr (Or.inl listed))
  | string quote content =>
    cases same
    exact Or.inr (Or.inr (Or.inr ⟨quote, _, rfl, content⟩))

theorem Lexical.ne {text : List Char} (word : Lexical text) : text ≠ [] := by
  cases word with
  | blank _ => simp
  | line => simp
  | whole _ some => exact some
  | fraction _ _ _ _ => simp
  | name _ _ => simp
  | operator listed =>
    have table : ∀ op ∈ operators, op ≠ [] := by decide
    exact table _ listed
  | string _ _ => simp

theorem Splits.start {c : Char} {rest : List Char} (splits : Splits (c :: rest)) :
    ((c = '\n' ∨ Scanner.isBlank c = true ∨ isWordPart c = true) ∧ Splits rest) ∨
    (∃ op tail, op ∈ operators ∧ c :: rest = op ++ tail ∧ Splits tail) ∨
    ((c = '"' ∨ c = '\'') ∧ ∃ body tail, rest = body ++ c :: tail ∧ Content c body ∧ Splits tail) ∨
    (c = '/' ∧ rest.head? = some '/') := by
  generalize same : c :: rest = text at splits
  cases splits with
  | done => cases same
  | @word text tail word splits =>
    obtain ⟨d, more, rfl⟩ := List.exists_cons_of_ne_nil word.ne
    cases same
    rcases word.start with ⟨gap, rfl⟩ | ⟨part, parts⟩ | listed | ⟨quote, body, rfl, content⟩
    · exact Or.inl ⟨by tauto, splits⟩
    · exact Or.inl ⟨Or.inr (Or.inr part), splits.parts parts⟩
    · exact Or.inr (Or.inl ⟨_, tail, listed, rfl, splits⟩)
    · exact Or.inr (Or.inr (Or.inl ⟨quote, body, tail, by simp, content, splits⟩))
  | comment _ _ _ =>
    cases same
    exact Or.inr (Or.inr (Or.inr ⟨rfl, rfl⟩))

theorem Splits.tail {c : Char} {rest : List Char} (splits : Splits (c :: rest)) (free : loose c = true) :
    Splits rest := by
  rcases splits.start with ⟨_, tail⟩ | ⟨op, tail, listed, same, later⟩ | ⟨quote, _⟩ | ⟨slash, _⟩
  · exact tail
  · have table : ∀ op ∈ operators, op.head?.any loose = true → op.tail = [] ∨ op.tail ∈ operators := by
      decide
    obtain ⟨d, more, rfl⟩ := List.exists_cons_of_ne_nil (Lexical.operator listed).ne
    cases same
    rcases table _ listed free with empty | again
    · rw [List.tail_cons] at empty
      subst empty
      exact later
    · exact .word (.operator again) later
  · rcases quote with rfl | rfl <;> exact absurd free (by decide)
  · rw [slash] at free
    exact absurd free (by decide)

theorem Splits.dropWhile {test : Char → Bool} (inside : ∀ c, test c = true → loose c = true)
    {text : List Char} (splits : Splits text) : Splits (text.dropWhile test) := by
  induction text with
  | nil => exact .done
  | cons c rest ih =>
    rw [List.dropWhile_cons]
    split
    · rename_i holds
      exact ih (splits.tail (inside c holds))
    · exact splits

theorem Splits.afterNumber {text : List Char} (splits : Splits text) : Splits (splitNumber text).2 := by
  have digits : ∀ c : Char, c.isDigit = true → loose c = true := fun c digit => loosePart (digitPart digit)
  have rest := splits.dropWhile digits
  unfold splitNumber
  dsimp only
  split
  · rename_i c more point
    rw [point] at rest
    split
    · exact (rest.tail (by decide)).dropWhile digits
    · exact rest
  · exact rest

/- No other word reaches over the end of a line, so a comment can be left out of any cut. -/
theorem Lexical.oneLine {text : List Char} (word : Lexical text) : text = ['\n'] ∨ '\n' ∉ text := by
  have digits : ∀ {text : List Char}, Numeral.Plain text → '\n' ∉ text := fun plain member =>
    absurd (plain _ member) (by decide)
  cases word with
  | blank blank =>
    refine Or.inr fun member => ?_
    rw [← List.mem_singleton.mp member] at blank
    exact absurd blank (by decide)
  | line => exact Or.inl rfl
  | whole plain _ => exact Or.inr (digits plain)
  | fraction plain _ plain' _ => exact Or.inr (by simp [digits plain, digits plain'])
  | name start parts =>
    refine Or.inr fun member => ?_
    rcases List.mem_cons.mp member with rfl | later
    · exact absurd start (by decide)
    · exact absurd (parts _ later) (by decide)
  | operator listed =>
    have table : ∀ op ∈ operators, '\n' ∉ op := by decide
    exact Or.inr (table _ listed)
  | string quote content =>
    refine Or.inr ?_
    rcases quote with rfl | rfl <;> simp [content.oneLine]

theorem Splits.afterLine {text : List Char} (splits : Splits text) :
    Splits (text.dropWhile fun c => decide (c ≠ '\n')) := by
  have outside : ∀ {line : List Char}, '\n' ∉ line → ∀ c ∈ line, decide (c ≠ '\n') = true :=
    fun oneLine c member => decide_eq_true fun same => oneLine (same ▸ member)
  induction splits with
  | done => exact .done
  | @word text rest word splits ih =>
    rcases word.oneLine with rfl | oneLine
    · exact .word .line splits
    · rw [List.dropWhile_append_of_pos (outside oneLine)]
      exact ih
  | @comment line rest oneLine _ _ ih =>
    have slashes : '\n' ∉ '/' :: '/' :: line := by simp [oneLine]
    rw [← List.cons_append, ← List.cons_append, List.dropWhile_append_of_pos (outside slashes)]
    exact ih

theorem markAlone {raw : List Char} {kind : Kind} (entry : (raw, kind) ∈ Kind.marks) {m d : Char}
    (one : raw = [m]) (join : d ∉ ['=', '>']) (rest : List Char) :
    lexeme m (d :: rest) = .ok ⟨kind, raw, raw, d :: rest⟩ := by
  simp only [List.mem_cons, List.not_mem_nil, or_false, not_or] at join
  obtain ⟨equals, greater⟩ := join
  unfold Kind.marks at entry
  fin_cases entry <;> cases one <;>
    simp [lexeme, isWordStart, Kind.marks, Ne.symm equals, Ne.symm greater]

theorem operatorLexeme {op : List Char} (listed : op ∈ operators) (tail : List Char) :
    ∃ c more l, op = c :: more ∧ lexeme c (more ++ tail) = .ok l ∧
      (l.rest = tail ∨ ∃ d ∈ ['=', '>'], tail = d :: l.rest) := by
  by_cases short : op ∈ [['='], ['!'], ['<'], ['>']]
  · cases tail with
    | nil => fin_cases short <;> exact ⟨_, _, _, rfl, rfl, Or.inl rfl⟩
    | cons d rest =>
      by_cases join : d ∈ ['=', '>']
      · fin_cases join <;> fin_cases short <;>
          first | exact ⟨_, _, _, rfl, rfl, Or.inl rfl⟩ | exact ⟨_, _, _, rfl, rfl, Or.inr ⟨_, by decide, rfl⟩⟩
      · have table : ∀ op ∈ operators, ∃ entry ∈ Kind.marks, entry.1 = op := by decide
        obtain ⟨⟨raw, kind⟩, entry, rfl⟩ := table op listed
        have one : ∃ m, raw = [m] := by fin_cases short <;> exact ⟨_, rfl⟩
        obtain ⟨m, one⟩ := one
        exact ⟨m, [], _, one, markAlone entry one join rest, Or.inl rfl⟩
  · unfold operators at listed
    fin_cases listed <;> first | exact ⟨_, _, _, rfl, rfl, Or.inl rfl⟩ | exact absurd (by decide) short

theorem Lexical.lexeme {c : Char} {more : List Char} (word : Lexical (c :: more)) (line : c ≠ '\n')
    (blank : Scanner.isBlank c = false) (tail : List Char) :
    ∃ l, Token.lexeme c (more ++ tail) = .ok l ∧ (Splits tail → Splits l.rest) := by
  rcases word.start with ⟨gap | gap, _⟩ | ⟨part, _⟩ | listed | ⟨quote, body, rfl, content⟩
  · exact absurd gap line
  · rw [gap] at blank
    cases blank
  · by_cases digit : c.isDigit = true
    · exact ⟨_, lexemeNumber digit _, fun later => (Splits.word word later).afterNumber⟩
    · have start : isWordStart c = true := by
        simp only [isWordPart, Char.isAlphanum, Bool.or_eq_true, digit, Bool.false_eq_true, or_false] at part
        simpa [isWordStart] using part
      exact ⟨_, lexemeWord start _, fun later => (Splits.word word later).dropWhile fun _ => loosePart⟩
  · obtain ⟨d, rest, l, same, ok, left⟩ := operatorLexeme listed tail
    cases same
    refine ⟨l, ok, fun later => ?_⟩
    rcases left with same | ⟨d, join, same⟩
    · rw [same]
      exact later
    · rw [same] at later
      exact later.tail (by fin_cases join <;> decide)
  · obtain ⟨value, read⟩ := content.splitString quote (c :: (body ++ c :: tail)) tail
    refine ⟨⟨.string, value, c :: (body ++ [c]), tail⟩, ?_, id⟩
    rcases quote with rfl | rfl <;> simp [Token.lexeme, read, bind, Except.bind]

theorem Splits.lexeme {c : Char} {rest : List Char} (splits : Splits (c :: rest)) (line : c ≠ '\n')
    (blank : Scanner.isBlank c = false) (noComment : ¬ (c = '/' ∧ rest.head? = some '/')) :
    ∃ l, Token.lexeme c rest = .ok l ∧ Splits l.rest := by
  generalize same : c :: rest = text at splits
  cases splits with
  | done => cases same
  | word word later =>
    obtain ⟨d, more, rfl⟩ := List.exists_cons_of_ne_nil word.ne
    cases same
    obtain ⟨l, ok, left⟩ := word.lexeme line blank _
    exact ⟨l, ok, left later⟩
  | comment _ _ _ =>
    cases same
    exact absurd ⟨rfl, rfl⟩ noComment

namespace Scanner

theorem splitsStep {s : Scanner} (splits : Splits s.rest) :
    s.step = .finished ∨ ∃ s', (s.step = .skipped s' ∨ ∃ t, s.step = .token t s') ∧ Splits s'.rest := by
  cases text : s.rest with
  | nil =>
    left
    unfold step
    rw [text]
  | cons c rest =>
    right
    rw [text] at splits
    by_cases line : c = '\n'
    · subst line
      refine ⟨s.pass ['\n'] rest, ?_, splits.tail rfl⟩
      cases folds : s.continues with
      | true => exact Or.inl (stepFold text folds)
      | false => exact Or.inr ⟨_, stepLine text folds⟩
    · cases blank : isBlank c with
      | true => exact ⟨s.pass [c] rest, Or.inl (stepBlank text blank), splits.tail (looseGap (Or.inr blank))⟩
      | false =>
        by_cases comment : c = '/' ∧ rest.head? = some '/'
        · obtain ⟨rfl, head⟩ := comment
          obtain ⟨more, rfl⟩ := List.head?_eq_some_iff.mp head
          refine ⟨_, Or.inl (stepGap (text.trans ?_) (commentGap s more)), splits.afterLine⟩
          exact List.takeWhile_append_dropWhile.symm
        · obtain ⟨l, ok, later⟩ := splits.lexeme line blank comment
          exact ⟨s.passWord l, Or.inr ⟨_, stepWord text ok comment⟩, later⟩

theorem splitsRun {s : Scanner} (splits : Splits s.rest) : ∃ final, s.run.2 = .ok final := by
  fun_induction run s with
  | case1 s finished => exact ⟨s, rfl⟩
  | case2 s s' skipped ih =>
    rcases splitsStep splits with ends | ⟨later, same | ⟨t, same⟩, more⟩
    · cases skipped.symm.trans ends
    · cases skipped.symm.trans same
      exact ih more
    · cases skipped.symm.trans same
  | case3 s blame failed =>
    rcases splitsStep splits with ends | ⟨later, same | ⟨t, same⟩, more⟩
    · cases failed.symm.trans ends
    · cases failed.symm.trans same
    · cases failed.symm.trans same
  | case4 s t s' found tail ih =>
    rcases splitsStep splits with ends | ⟨later, same | ⟨u, same⟩, more⟩
    · cases found.symm.trans ends
    · cases found.symm.trans same
    · cases found.symm.trans same
      exact ih more

end Scanner

theorem tokenizeSplits (source : String) :
    (∃ stream, tokenize source = .ok stream) ↔ Splits source.toList := by
  constructor
  · intro found
    obtain ⟨stream, ok⟩ := found
    obtain ⟨final, scans, _⟩ := tokenizeScans ok
    exact scans.splits
  · intro splits
    obtain ⟨final, ends⟩ := Scanner.splitsRun (s := Scanner.start source.toList) splits
    exact ⟨_, tokenizeIff.mpr ⟨final, ends, rfl⟩⟩

end Scriptlet.Token
