import Mathlib.Data.List.TakeWhile
import Mathlib.Tactic.FinCases
import Scriptlet.Proofs.Brackets

/-! Text laid out piece by piece: words, blanks and line breaks. A scan finds the words again, if what
follows a word cannot make it longer and every line break counts, or not, as it is meant to. -/
namespace Scriptlet

open Token (Kind Bracket Scanner)

inductive Piece where
  | mark (kind : Kind)
  | word (name : String)
  | number (n : Nat)
  | string (s : String)
  | blank
  /-- A line break that says nothing. -/
  | fold
  /-- A line break that ends a line. -/
  | line

namespace Piece

def text : Piece → List Char
  | .mark kind => kind.spelling?.getD []
  | .word name => name.toList
  | .number n => Nat.toDigits 10 n
  | .string s => SExpr.scriptString s.toList
  | .blank => [' ']
  | .fold | .line => ['\n']

def meaning? : Piece → Option (Kind × String)
  | .mark kind => some (kind, String.ofList (kind.spelling?.getD []))
  | .word name => some (.ident, name)
  | .number n => some (.number, String.ofList (Nat.toDigits 10 n))
  | .string s => some (.string, s)
  | .line => some (.newline, "\n")
  | .blank | .fold => none

def textAll (pieces : List Piece) : List Char := pieces.flatMap text

end Piece

open Piece (textAll)

def Means (pieces : List Piece) (tokens : List Token) : Prop :=
  tokens.map (fun t => (t.kind, t.value)) = pieces.filterMap Piece.meaning?

namespace Means

variable {p : Piece} {a b pieces : List Piece} {tokens : List Token} {kind : Kind} {value : String}

theorem blank (means : Means (.blank :: pieces) tokens) : Means pieces tokens := means

theorem fold (means : Means (.fold :: pieces) tokens) : Means pieces tokens := means

theorem nil (means : Means [] tokens) : tokens = [] := List.map_eq_nil_iff.mp means

theorem uncons (means : Means (p :: pieces) tokens) (meaning : p.meaning? = some (kind, value)) :
    ∃ t more, tokens = t :: more ∧ t.kind = kind ∧ t.value = value ∧ Means pieces more := by
  unfold Means at means
  rw [List.filterMap_cons_some meaning] at means
  obtain ⟨t, more, rfl, word, same⟩ := List.map_eq_cons_iff.mp means
  cases word
  exact ⟨t, more, rfl, rfl, rfl, same⟩

theorem append (means : Means (a ++ b) tokens) :
    ∃ first more, tokens = first ++ more ∧ Means a first ∧ Means b more := by
  unfold Means at means
  rw [List.filterMap_append] at means
  exact List.map_eq_append_iff.mp means

theorem cons {t : Token} (meaning : p.meaning? = some (t.kind, t.value)) (more : Means pieces tokens) :
    Means (p :: pieces) (t :: tokens) := by
  unfold Means at more ⊢
  rw [List.filterMap_cons_some meaning, List.map_cons, more]

theorem join {first more : List Token} (left : Means a first) (right : Means b more) :
    Means (a ++ b) (first ++ more) := by
  unfold Means at left right ⊢
  rw [List.map_append, List.filterMap_append, left, right]

end Means

namespace Token

def Fresh (text : List Char) : Prop := ∀ c ∈ text.head?, isWordPart c = false ∧ c ∉ ['.', '=', '>', '/']

namespace Fresh

theorem nil : Fresh [] := fun _ member => (nomatch member)

theorem cons {c : Char} {text : List Char} (free : isWordPart c = false ∧ c ∉ ['.', '=', '>', '/']) :
    Fresh (c :: text) := by
  intro d same
  cases same
  exact free

theorem ne {c d : Char} {text : List Char} (fresh : Fresh (c :: text)) (listed : d ∈ ['.', '=', '>', '/']) :
    c ≠ d := by
  rintro rfl
  exact (fresh c rfl).2 listed

theorem stop {p : Char → Bool} (part : ∀ c, p c = true → isWordPart c = true) {after : List Char}
    (fresh : Fresh after) : ∀ c ∈ after.head?, p c = false := fun c head => Bool.eq_false_iff.mpr fun here => by
  have free := (fresh c head).1
  rw [part c here] at free
  cases free

theorem split {p : Char → Bool} (part : ∀ c, p c = true → isWordPart c = true) {word after : List Char}
    (all : ∀ c ∈ word, p c = true) (fresh : Fresh after) :
    (word ++ after).takeWhile p = word ∧ (word ++ after).dropWhile p = after :=
  ⟨Text.takeWhileStop all (fresh.stop part), Text.dropWhileStop all (fresh.stop part)⟩

end Fresh

def joins : Kind → Bool
  | .assign | .notOp | .less | .greater | .slash => true
  | _ => false

theorem markSpelling {raw : List Char} {kind : Kind} (entry : (raw, kind) ∈ Kind.marks) :
    kind.spelling? = some raw := by
  unfold Kind.marks at entry
  fin_cases entry <;> rfl

def Lexes (text : List Char) (kind : Kind) (value after : List Char) : Prop :=
  ∃ c rest, text = c :: rest ∧ Token.lexeme c (rest ++ after) = .ok ⟨kind, value, text, after⟩ ∧
    ¬ (c = '/' ∧ (rest ++ after).head? = some '/')

theorem Lexes.step {text value after : List Char} {kind : Kind} (lexes : Lexes text kind value after)
    {s : Scanner} (here : s.rest = text ++ after) :
    s.step = .token (s.wordToken ⟨kind, value, text, after⟩) (s.passWord ⟨kind, value, text, after⟩) := by
  obtain ⟨c, rest, rfl, ok, noComment⟩ := lexes
  exact Scanner.stepWord here ok noComment

theorem markLexes {raw : List Char} {kind : Kind} (entry : (raw, kind) ∈ Kind.marks) {after : List Char}
    (fresh : joins kind = true → Fresh after) : Lexes raw kind raw after := by
  unfold Kind.marks at entry
  cases joined : joins kind with
  | false => fin_cases entry <;> cases joined <;> exact ⟨_, _, rfl, rfl, by simp⟩
  | true =>
    cases after with
    | nil => fin_cases entry <;> cases joined <;> exact ⟨_, _, rfl, rfl, by simp⟩
    | cons d rest =>
      have equals := (fresh joined).ne (d := '=') (by decide)
      have greater := (fresh joined).ne (d := '>') (by decide)
      have slash := (fresh joined).ne (d := '/') (by decide)
      fin_cases entry <;> cases joined <;> refine ⟨_, _, rfl, ?_, by simp [slash]⟩ <;>
        simp [lexeme, isWordStart, Kind.marks, equals.symm, greater.symm]

theorem startNoDigit {c : Char} (start : isWordStart c = true) : c.isDigit = false ∧ c ≠ '"' ∧ c ≠ '\'' := by
  refine ⟨?_, ?_, ?_⟩
  · rw [Bool.eq_false_iff]
    intro digit
    rcases Bool.or_eq_true_iff.mp start with alpha | under
    · have low : 0x41 ≤ c.toNat := (Text.letterBounds alpha).1
      simp only [Char.isDigit, ge_iff_le, Bool.and_eq_true, decide_eq_true_eq, UInt32.le_iff_toNat_le] at digit
      exact absurd (Nat.le_trans low digit.2) (by decide)
    · rw [eq_of_beq under] at digit
      revert digit
      decide
  · rintro rfl
    revert start
    decide
  · rintro rfl
    revert start
    decide

theorem lexemeWord {c : Char} (start : isWordStart c = true) (rest : List Char) :
    lexeme c rest =
      .ok ⟨.ofWord ((c :: rest).takeWhile isWordPart), (c :: rest).takeWhile isWordPart,
        (c :: rest).takeWhile isWordPart, (c :: rest).dropWhile isWordPart⟩ := by
  obtain ⟨digit, double, single⟩ := startNoDigit start
  simp only [lexeme, digit, double, single, start, or_self, if_true, if_false, Bool.false_eq_true]

theorem wordLexes {c : Char} {rest after : List Char} (start : isWordStart c = true)
    (part : ∀ d ∈ rest, isWordPart d = true) (fresh : Fresh after) :
    Lexes (c :: rest) (.ofWord (c :: rest)) (c :: rest) after := by
  obtain ⟨front, back⟩ := fresh.split (fun _ => id) (List.forall_mem_cons.mpr ⟨isWordPartOfStart start, part⟩)
  refine ⟨c, rest, rfl, ?_, ?_⟩
  · rw [List.cons_append] at front back
    rw [lexemeWord start, front, back]
  · rintro ⟨rfl, _⟩
    revert start
    decide

theorem nameLexes {name : String} (key : Parse.isKey name = true) {after : List Char} (fresh : Fresh after) :
    Lexes name.toList .ident name.toList after := by
  unfold Parse.isKey at key
  split at key
  · cases key
  · rename_i c rest text
    simp only [Bool.and_eq_true, decide_eq_true_eq, List.all_eq_true] at key
    have lexes := wordLexes key.1.1 key.1.2 fresh
    rw [key.2] at lexes
    rw [text]
    exact lexes

theorem digitPart {c : Char} (digit : c.isDigit = true) : isWordPart c = true := by
  simp [isWordPart, Char.isAlphanum, digit]

theorem splitDigits {whole after : List Char} (digits : Numeral.Plain whole)
    (stop : ∀ c ∈ after.head?, c.isDigit = false)
    (noPoint : ∀ c more, after = '.' :: c :: more → c.isDigit = false) :
    splitNumber (whole ++ after) = (whole, after) := by
  have front := Text.takeWhileStop digits stop
  have back := Text.dropWhileStop digits stop
  unfold splitNumber
  simp only [front, back]
  split
  · rename_i c more
    rw [noPoint c more rfl, if_neg Bool.false_ne_true]
  · rfl

theorem splitWhole {whole after : List Char} (digits : Numeral.Plain whole) (fresh : Fresh after) :
    splitNumber (whole ++ after) = (whole, after) := by
  refine splitDigits digits (fresh.stop fun _ => digitPart) fun c more point => ?_
  subst point
  exact absurd rfl (fresh.ne (by decide))

theorem lexemeNumber {c : Char} (digit : c.isDigit = true) (rest : List Char) :
    lexeme c rest =
      .ok ⟨.number, (splitNumber (c :: rest)).1, (splitNumber (c :: rest)).1, (splitNumber (c :: rest)).2⟩ := by
  simp only [lexeme, digit, if_true]

theorem splitLexes {c : Char} {rest after : List Char} (digit : c.isDigit = true)
    (split : splitNumber (c :: rest ++ after) = (c :: rest, after)) :
    Lexes (c :: rest) .number (c :: rest) after := by
  refine ⟨c, rest, rfl, ?_, ?_⟩
  · rw [List.cons_append] at split
    rw [lexemeNumber digit, split]
  · rintro ⟨rfl, _⟩
    revert digit
    decide

theorem numberLexes (n : Nat) {after : List Char} (fresh : Fresh after) :
    Lexes (Nat.toDigits 10 n) .number (Nat.toDigits 10 n) after := by
  have plain := Numeral.plainToDigits n
  have number := splitWhole plain fresh
  have some : Nat.toDigits 10 n ≠ [] := List.ne_nil_of_length_pos Nat.length_toDigits_pos
  obtain ⟨c, rest, same⟩ := List.exists_cons_of_ne_nil some
  rw [same] at plain number ⊢
  exact splitLexes (plain c List.mem_cons_self) number

theorem splitScript (opening s after : List Char) :
    splitString '"' opening (s.flatMap SExpr.scriptChar ++ '"' :: after) =
      .ok (s, s.flatMap SExpr.scriptChar ++ ['"'], after) := by
  induction s with
  | nil => simp [splitString]
  | cons c s ih =>
    rw [List.flatMap_cons, List.append_assoc]
    by_cases backslash : c = '\\'
    · subst backslash
      simp [SExpr.scriptChar, splitString, escape?, ih, bind, Except.bind]
    by_cases mark : c = '"'
    · subst mark
      simp [SExpr.scriptChar, splitString, escape?, ih, bind, Except.bind]
    by_cases line : c = '\n'
    · subst line
      simp [SExpr.scriptChar, splitString, escape?, ih, bind, Except.bind]
    by_cases tab : c = '\t'
    · subst tab
      simp [SExpr.scriptChar, splitString, escape?, ih, bind, Except.bind]
    have itself : SExpr.scriptChar c = [c] := by simp [SExpr.scriptChar]
    rw [itself]
    simp [splitString, ih, bind, Except.bind, backslash, mark, line]

theorem stringLexes (s after : List Char) : Lexes (SExpr.scriptString s) .string s after := by
  refine ⟨'"', _, rfl, ?_, by simp⟩
  have read := splitScript ('"' :: (s.flatMap SExpr.scriptChar ++ '"' :: after)) s after
  have text : (s.flatMap SExpr.scriptChar ++ ['"']) ++ after = s.flatMap SExpr.scriptChar ++ '"' :: after := by
    simp
  show lexeme '"' ((s.flatMap SExpr.scriptChar ++ ['"']) ++ after) = _
  rw [text]
  simp [lexeme, read, bind, Except.bind, SExpr.scriptString]

theorem tokenizeLexes {text value : List Char} {kind : Kind} (lexes : Lexes text kind value []) :
    tokenize (String.ofList text) =
      .ok ⟨[⟨kind, String.ofList value, String.ofList text, 0, ⟨1, 1⟩⟩],
        ⟨.eof, "", "", (Position.start.after text).offset, (Position.start.after text).place⟩⟩ := by
  exact tokenizePath (.single (lexes.step (by rw [String.toList_ofList, List.append_nil]; rfl))) rfl

end Token

structure Mode where
  brackets : List Bracket
  last : Option Kind

namespace Mode

def continues (m : Mode) : Bool := Scanner.continues ⟨.start, [], m.brackets, m.last⟩

def read (m : Mode) (kind : Kind) : Mode := ⟨Bracket.track m.brackets kind, some kind⟩

end Mode

def Token.Scanner.mode (s : Scanner) : Mode := ⟨s.brackets, s.last⟩

/- A scan that comes to some pieces in one mode leaves them in the other, in front of the text that
follows, and has found the tokens that they spell. -/
def Recovers (m : Mode) (pieces : List Piece) (after : List Char) (m' : Mode) : Prop :=
  ∀ s : Scanner, s.mode = m → s.rest = textAll pieces ++ after →
    ∃ tokens s', s.Path tokens s' ∧ s'.mode = m' ∧ s'.rest = after ∧ Means pieces tokens

namespace Recovers

variable {m m' m'' : Mode} {a b pieces : List Piece} {after : List Char}

theorem done : Recovers m [] after m := fun s mode text => ⟨[], s, .here, mode, text, rfl⟩

theorem append (first : Recovers m a (textAll b ++ after) m') (second : Recovers m' b after m'') :
    Recovers m (a ++ b) after m'' := by
  intro s mode text
  have front : s.rest = textAll a ++ (textAll b ++ after) := by
    rw [text, textAll, List.flatMap_append, List.append_assoc]
    rfl
  obtain ⟨tokens, s', path, mode', rest, means⟩ := first s mode front
  obtain ⟨more, s'', path', mode'', rest', means'⟩ := second s' mode' rest
  exact ⟨tokens ++ more, s'', path.trans path', mode'', rest', means.join means'⟩

theorem blank (more : Recovers m pieces after m') : Recovers m (.blank :: pieces) after m' := by
  intro s mode text
  obtain ⟨tokens, s', path, rest⟩ := more (s.pass [' '] (textAll pieces ++ after)) mode rfl
  exact ⟨tokens, s', .skip (Scanner.stepBlank text rfl) path, rest⟩

theorem fold (continues : m.continues = true) (more : Recovers m pieces after m') :
    Recovers m (.fold :: pieces) after m' := by
  intro s mode text
  have goesOn : s.continues = true := by rw [← mode] at continues; exact continues
  obtain ⟨tokens, s', path, rest⟩ := more (s.pass ['\n'] (textAll pieces ++ after)) mode rfl
  exact ⟨tokens, s', .skip (Scanner.stepFold text goesOn) path, rest⟩

theorem line (ends : m.continues = false) (more : Recovers m pieces after m') :
    Recovers m (.line :: pieces) after m' := by
  intro s mode text
  have stops : s.continues = false := by rw [← mode] at ends; exact ends
  obtain ⟨tokens, s', path, mode', rest, means⟩ := more (s.pass ['\n'] (textAll pieces ++ after)) mode rfl
  exact ⟨s.newlineToken :: tokens, s', .token (Scanner.stepLine text stops) path, mode', rest,
    .cons rfl means⟩

theorem word {p : Piece} (kind : Kind) (value : List Char)
    (lexes : Token.Lexes p.text kind value (textAll pieces ++ after))
    (meaning : p.meaning? = some (kind, String.ofList value)) (more : Recovers (m.read kind) pieces after m') :
    Recovers m (p :: pieces) after m' := by
  intro s mode text
  have front : s.rest = p.text ++ (textAll pieces ++ after) := by
    rw [text, textAll, List.flatMap_cons, List.append_assoc]
    rfl
  have next : (s.passWord ⟨kind, value, p.text, textAll pieces ++ after⟩).mode = m.read kind := by
    rw [← mode]
    rfl
  obtain ⟨tokens, s', path, mode', rest', means⟩ := more _ next rfl
  exact ⟨_, s', .token (lexes.step front) path, mode', rest', .cons meaning means⟩

theorem markWord {kind : Kind} (listed : kind ∈ Kind.marks.map Prod.snd)
    (fresh : Token.joins kind = true → Token.Fresh (textAll pieces ++ after))
    (more : Recovers (m.read kind) pieces after m') : Recovers m (.mark kind :: pieces) after m' := by
  obtain ⟨⟨raw, _⟩, entry, rfl⟩ := List.mem_map.mp listed
  have lexes := Token.markLexes entry fresh
  refine word _ raw ?_ ?_ more
  · rw [Piece.text, Token.markSpelling entry]
    exact lexes
  · rw [Piece.meaning?, Token.markSpelling entry]
    rfl

theorem opens (b : Bracket) (more : Recovers ⟨b :: m.brackets, some b.opening⟩ pieces after m') :
    Recovers m (.mark b.opening :: pieces) after m' := by
  have listed : b.opening ∈ Kind.marks.map Prod.snd ∧ Token.joins b.opening = false := by
    cases b <;> decide
  refine markWord listed.1 (fun joined => absurd joined (by simp [listed.2])) ?_
  rw [Mode.read, Token.trackOpening]
  exact more

theorem closes (b : Bracket) {outer : List Bracket} {last : Option Kind}
    (more : Recovers ⟨outer, some b.closing⟩ pieces after m') :
    Recovers ⟨b :: outer, last⟩ (.mark b.closing :: pieces) after m' := by
  have listed : b.closing ∈ Kind.marks.map Prod.snd ∧ Token.joins b.closing = false := by
    cases b <;> decide
  refine markWord listed.1 (fun joined => absurd joined (by simp [listed.2])) ?_
  rw [Mode.read, Token.trackClosing]
  exact more

theorem sign {kind : Kind} (listed : kind ∈ Kind.marks.map Prod.snd ∧ Bracket.isMark kind = false)
    (fresh : Token.joins kind = true → Token.Fresh (textAll pieces ++ after))
    (more : Recovers ⟨m.brackets, some kind⟩ pieces after m') :
    Recovers m (.mark kind :: pieces) after m' := by
  refine markWord listed.1 fresh ?_
  rw [Mode.read, Token.trackFree _ listed.2]
  exact more

theorem keyword {kind : Kind} (listed : kind ∈ [Kind.trueWord, .falseWord, .nullWord])
    (fresh : Token.Fresh (textAll pieces ++ after)) (more : Recovers ⟨m.brackets, some kind⟩ pieces after m') :
    Recovers m (.mark kind :: pieces) after m' := by
  have table : ∀ kind ∈ [Kind.trueWord, .falseWord, .nullWord], Bracket.isMark kind = false := by decide
  refine word kind (kind.spelling?.getD []) ?_ rfl ?_
  · fin_cases listed <;> exact Token.wordLexes rfl (List.all_eq_true.mp rfl) fresh
  · rw [Mode.read, Token.trackFree _ (table kind listed)]
    exact more

theorem name {name : String} (isName : Node.IsName name) (fresh : Token.Fresh (textAll pieces ++ after))
    (more : Recovers ⟨m.brackets, some .ident⟩ pieces after m') : Recovers m (.word name :: pieces) after m' := by
  have key := (Parse.isKeyIff name).mpr isName
  refine word .ident name.toList (Token.nameLexes key fresh) (by rw [Piece.meaning?, String.ofList_toList]) ?_
  rw [Mode.read, Token.trackFree _ rfl]
  exact more

theorem number {n : Nat} (fresh : Token.Fresh (textAll pieces ++ after))
    (more : Recovers ⟨m.brackets, some .number⟩ pieces after m') : Recovers m (.number n :: pieces) after m' := by
  refine word _ _ (Token.numberLexes n fresh) rfl ?_
  rw [Mode.read, Token.trackFree _ rfl]
  exact more

theorem string {s : String} (more : Recovers ⟨m.brackets, some .string⟩ pieces after m') :
    Recovers m (.string s :: pieces) after m' := by
  refine word _ _ (Token.stringLexes s.toList _) (by rw [Piece.meaning?, String.ofList_toList]) ?_
  rw [Mode.read, Token.trackFree _ rfl]
  exact more

end Recovers

namespace Token

theorem tokenizeDigits {whole : List Char} (digits : Numeral.Plain whole) (some : whole ≠ []) :
    ∃ t stop, tokenize (String.ofList whole) = .ok ⟨[t], stop⟩ ∧ t.kind = .number ∧
      t.value = String.ofList whole := by
  obtain ⟨c, rest, rfl⟩ := List.exists_cons_of_ne_nil some
  have number : Lexes (c :: rest) .number (c :: rest) [] :=
    splitLexes (digits c List.mem_cons_self) (splitWhole digits .nil)
  exact ⟨_, _, tokenizeLexes number, rfl, rfl⟩

end Token

end Scriptlet
