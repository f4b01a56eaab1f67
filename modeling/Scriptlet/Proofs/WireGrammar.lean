import Mathlib.Data.List.TakeWhile
import Scriptlet.Proofs.Nesting
import Scriptlet.Proofs.NumeralGrammar
import Scriptlet.Wire

/-! The grammar of wire text. Words run up to a blank, a bracket or a sentinel, so two of them need a
blank between them; strings carry their length and lists their brackets, so these may touch anything.
A text reads as the value that it encodes, and encodes one value at most. -/
namespace Scriptlet.Wire
open Transport SExpr

def Blanks (gap : List Char) : Prop := ∀ c ∈ gap, Text.isBlank c = true

inductive Literal : List Char → SExpr → Prop where
  | truth : Literal ['t', 'r', 'u', 'e'] (.bool true)
  | falsity : Literal ['f', 'a', 'l', 's', 'e'] (.bool false)
  | null : Literal ['n', 'u', 'l', 'l'] .null

inductive Denotes : List Char → SExpr → Prop where
  | literal {word v} (listed : Literal word v) : Denotes word v
  | int {word n} (spelled : Numeral.Spelled word n) (plain : ¬ Numeral.Marked word)
      (short : n.whole.length ≤ Numeral.maxDigits) :
      Denotes word (.int (if n.negative then -(Numeral.value n.whole : Int) else Numeral.value n.whole))
  | float {word n} (spelled : Numeral.Spelled word n) (marked : Numeral.Marked word) :
      Denotes word (.float n.toBinary)
  | symbol {word} (noLiteral : ∀ v, ¬ Literal word v) (noNumeral : ∀ n, ¬ Numeral.Spelled word n) :
      Denotes word (.sym (String.ofList word))

/- The parts of wire text: a word, a value with an end of its own, and the items of a list, which may
stand right after a word. -/
inductive Form where
  | word (v : SExpr)
  | closed (v : SExpr)
  | items (afterWord : Bool) (values : List SExpr)

inductive Encodes : Form → List Char → Prop where
  | word {word v} (nonempty : word ≠ [])
      (free : ∀ c ∈ word, Text.isBlank c = false ∧ c ≠ '(' ∧ c ≠ ')' ∧ c ≠ sentinel)
      (means : Denotes word v) : Encodes (.word v) word
  | string {digits values content} (nonempty : digits ≠ []) (run : Numeral.Run digits values)
      (short : digits.length ≤ Numeral.maxDigits) (count : Numeral.value values = content.length) :
      Encodes (.closed (.str (String.ofList content))) (stringMark ++ (digits ++ ':' :: content))
  | list {items text} (inside : Encodes (.items false items) text) :
      Encodes (.closed (.list items)) ('(' :: (text ++ [')']))
  | noItem {afterWord gap} (blank : Blanks gap) : Encodes (.items afterWord []) gap
  | wordItem {afterWord gap word v items text} (blank : Blanks gap) (apart : afterWord = true → gap ≠ [])
      (head : Encodes (.word v) word) (tail : Encodes (.items true items) text) :
      Encodes (.items afterWord (v :: items)) (gap ++ (word ++ text))
  | closedItem {afterWord gap part v items text} (blank : Blanks gap) (head : Encodes (.closed v) part)
      (tail : Encodes (.items false items) text) :
      Encodes (.items afterWord (v :: items)) (gap ++ (part ++ text))

inductive Document (v : SExpr) : List Char → Prop where
  | value {before part after} (leading : Blanks before) (trailing : Blanks after)
      (encoded : Encodes (.word v) part ∨ Encodes (.closed v) part) : Document v (before ++ (part ++ after))

theorem literalIff {word : List Char} {v : SExpr} : literals.lookup word = some v ↔ Literal word v := by
  constructor
  · intro found
    simp only [literals, List.lookup_cons, List.lookup_nil] at found
    split at found
    · rename_i same
      cases beq_iff_eq.mp same
      cases found
      exact .truth
    · split at found
      · rename_i same
        cases beq_iff_eq.mp same
        cases found
        exact .falsity
      · split at found
        · rename_i same
          cases beq_iff_eq.mp same
          cases found
          exact .null
        · cases found
  · intro listed
    cases listed <;> rfl

theorem literalNoNumeral {word : List Char} {v : SExpr} (listed : Literal word v) :
    Numeral.read? word = none := by
  cases listed <;> decide

theorem lookupOfSpelled {word : List Char} {n : Numeral} (spelled : Numeral.Spelled word n) :
    literals.lookup word = none := by
  rw [Option.eq_none_iff_forall_ne_some]
  intro v found
  have none := literalNoNumeral (literalIff.mp found)
  rw [Numeral.readIff.mpr spelled] at none
  cases none

theorem wordValueIff {word : List Char} {v : SExpr} : wordValue word = .ok v ↔ Denotes word v := by
  constructor
  · intro ok
    unfold wordValue at ok
    split at ok
    · rename_i found
      cases ok
      exact .literal (literalIff.mp found)
    · rename_i noLiteral
      split at ok
      · rename_i n read
        have spelled := Numeral.readIff.mp read
        split at ok
        · rename_i whole
          unfold Numeral.toInt Numeral.integer at ok
          split at ok
          · cases ok
          · rename_i short
            cases ok
            exact .int spelled (spelled.wholeIff.mp whole) (Nat.le_of_not_lt short)
        · rename_i fractional
          cases ok
          exact .float spelled (Classical.not_not.mp fun plain => fractional (spelled.wholeIff.mpr plain))
      · rename_i noNumeral
        cases ok
        refine .symbol (fun v listed => ?_) (fun n spelled => ?_)
        · rw [literalIff.mpr listed] at noLiteral
          cases noLiteral
        · rw [Numeral.readIff.mpr spelled] at noNumeral
          cases noNumeral
  · intro means
    unfold wordValue
    cases means with
    | literal listed => rw [literalIff.mpr listed]
    | @int n spelled plain short =>
      have integer : n.toInt = .ok (if n.negative then -(Numeral.value n.whole : Int) else
          Numeral.value n.whole) := if_neg (Nat.not_lt.mpr short)
      simp only [lookupOfSpelled spelled, Numeral.readIff.mpr spelled, spelled.wholeIff.mpr plain, integer]
      rfl
    | float spelled marked =>
      have fractional : ¬ _ := fun whole => spelled.wholeIff.mp whole marked
      simp only [lookupOfSpelled spelled, Numeral.readIff.mpr spelled, if_neg fractional]
    | symbol noLiteral noNumeral =>
      have unlisted : literals.lookup word = none :=
        Option.eq_none_iff_forall_ne_some.mpr fun v found => noLiteral v (literalIff.mp found)
      have unread : Numeral.read? word = none :=
        Option.eq_none_iff_forall_ne_some.mpr fun n read => noNumeral n (Numeral.readIff.mp read)
      simp only [unlisted, unread]

theorem Denotes.atom {word : List Char} {v : SExpr} (means : Denotes word v) : IsAtom v := by
  intro items same
  cases means with
  | literal listed => cases listed <;> cases same
  | _ => cases same

theorem freeIff {c : Char} :
    isReserved c = false ↔ Text.isBlank c = false ∧ c ≠ '(' ∧ c ≠ ')' ∧ c ≠ sentinel := by
  simp only [isReserved, isDelimiter, Bool.or_eq_false_iff, beq_eq_false_iff_ne, and_assoc]

theorem allFree {word : List Char} (free : word.all (!isReserved ·) = true) :
    ∀ c ∈ word, Text.isBlank c = false ∧ c ≠ '(' ∧ c ≠ ')' ∧ c ≠ sentinel := by
  intro c member
  have here := List.all_eq_true.mp free c member
  exact freeIff.mp (by simpa using here)

def Ends (rest : List Char) : Prop := ∀ c ∈ rest.head?, isReserved c = true

theorem endsReserved {c : Char} (reserved : isReserved c = true) (rest : List Char) : Ends (c :: rest) := by
  rintro _ ⟨⟩
  exact reserved

theorem stringSplit (text : List Char) :
    stringMark.isPrefixOf text = false ∨ (∃ body, text = stringMark ++ body ∧ ':' ∉ body) ∨
      ∃ digits content, text = stringMark ++ (digits ++ ':' :: content) ∧ ':' ∉ digits := by
  cases mark : stringMark.isPrefixOf text with
  | false => exact Or.inl rfl
  | true =>
    obtain ⟨body, rfl⟩ := List.isPrefixOf_iff_prefix.mp mark
    by_cases colon : ':' ∈ body
    · obtain ⟨digits, content, rfl, first⟩ := List.eq_append_cons_of_mem colon
      exact Or.inr (Or.inr ⟨digits, content, rfl, first⟩)
    · exact Or.inr (Or.inl ⟨body, rfl, colon⟩)

theorem readNoMark {text : List Char} (noMark : stringMark.isPrefixOf text = false) :
    readString text = .error ⟨.unknownTag, text⟩ := by
  simp [readString, noMark]

theorem readNoColon {body : List Char} (noColon : ':' ∉ body) :
    readString (stringMark ++ body) = .error ⟨.malformedLength, stringMark ++ body⟩ := by
  have mark : stringMark.isPrefixOf (stringMark ++ body) = true :=
    List.isPrefixOf_iff_prefix.mpr (List.prefix_append _ _)
  have nothing : body.dropWhile (· ≠ ':') = [] := by
    rw [List.dropWhile_eq_nil_iff]
    intro c member
    rw [decide_eq_true_eq]
    exact fun same => noColon (same ▸ member)
  simp only [readString, mark, List.drop_left, nothing]
  rfl

theorem readLength {digits content : List Char} (noColon : ':' ∉ digits) :
    readString (stringMark ++ (digits ++ ':' :: content)) =
      if digits.isEmpty || !digits.all Text.isDigitLike then
        .error ⟨.malformedLength, stringMark ++ (digits ++ ':' :: content)⟩
      else match Numeral.natural digits with
        | .error e => .error ⟨.numeral e, stringMark ++ (digits ++ ':' :: content)⟩
        | .ok length =>
          if content.length < length then .error ⟨.shortContent, stringMark ++ (digits ++ ':' :: content)⟩
          else .ok (.str (String.ofList (content.take length)), content.drop length) := by
  have inside : ∀ c ∈ digits, decide (c ≠ ':') = true := by
    intro c member
    rw [decide_eq_true_eq]
    exact fun same => noColon (same ▸ member)
  have stop : ∀ c ∈ (':' :: content).head?, decide (c ≠ ':') = false := by simp
  have mark : stringMark.isPrefixOf (stringMark ++ (digits ++ ':' :: content)) = true :=
    List.isPrefixOf_iff_prefix.mpr (List.prefix_append _ _)
  simp only [readString, mark, List.drop_left, Text.takeWhileStop inside stop, Text.dropWhileStop inside stop]
  rfl

theorem readStringIff {text rest : List Char} {v : SExpr} :
    readString text = .ok (v, rest) ↔
      ∃ digits values content, text = stringMark ++ (digits ++ ':' :: (content ++ rest)) ∧
        digits ≠ [] ∧ Numeral.Run digits values ∧ digits.length ≤ Numeral.maxDigits ∧
        Numeral.value values = content.length ∧ v = .str (String.ofList content) := by
  constructor
  · intro ok
    obtain noMark | ⟨body, rfl, noColon⟩ | ⟨digits, content, rfl, noColon⟩ := stringSplit text
    · cases (readNoMark noMark).symm.trans ok
    · cases (readNoColon noColon).symm.trans ok
    · rw [readLength noColon] at ok
      split at ok
      · cases ok
      · split at ok
        · cases ok
        · rename_i length read
          split at ok
          · cases ok
          · rename_i enough
            cases ok
            obtain ⟨values, nonempty, run, short, count⟩ := Numeral.naturalIff.mp read
            refine ⟨digits, values, content.take length, ?_, nonempty, run, short, ?_, rfl⟩
            · rw [List.take_append_drop]
            · rw [List.length_take, count, Nat.min_eq_left (Nat.le_of_not_lt enough)]
  · intro ⟨digits, values, content, split, nonempty, run, short, count, same⟩
    have noColon : ':' ∉ digits := fun member => absurd (run.decimal _ member) (by decide)
    have like : digits.all Text.isDigitLike = true := by
      rw [List.all_eq_true]
      intro c member
      simp [Text.isDigitLike, run.decimal c member]
    have length : Numeral.natural digits = .ok content.length :=
      Numeral.naturalIff.mpr ⟨values, nonempty, run, short, count⟩
    rw [split, same, readLength noColon]
    simp [like, length, nonempty]

theorem encodedStart {v : SExpr} {part : List Char}
    (encoded : Encodes (.word v) part ∨ Encodes (.closed v) part) :
    ∃ c tail, part = c :: tail ∧ Text.isBlank c = false ∧ c ≠ ')' := by
  rcases encoded with encoded | encoded
  · cases encoded with
    | word nonempty free means =>
      obtain ⟨c, tail, rfl⟩ := List.exists_cons_of_ne_nil nonempty
      obtain ⟨blank, _, close, _⟩ := free c List.mem_cons_self
      exact ⟨c, tail, rfl, blank, close⟩
  · cases encoded with
    | string => exact ⟨sentinel, _, rfl, by decide, by decide⟩
    | list => exact ⟨'(', _, rfl, by decide, by decide⟩

theorem blanksSplit (text : List Char) :
    ∃ gap, Blanks gap ∧ text = gap ++ text.dropWhile Text.isBlank :=
  ⟨text.takeWhile Text.isBlank, fun c member => List.all_eq_true.mp List.all_takeWhile c member,
    List.takeWhile_append_dropWhile.symm⟩

theorem notBlankAfter {text more : List Char} {c : Char} (found : text.dropWhile Text.isBlank = c :: more) :
    Text.isBlank c = false :=
  Text.dropWhileHead Text.isBlank text c (by rw [found]; rfl)

theorem skipBlanks {gap : List Char} (blank : Blanks gap) {c : Char} (start : Text.isBlank c = false)
    (rest : List Char) : (gap ++ c :: rest).dropWhile Text.isBlank = c :: rest :=
  Text.dropWhileStop blank (by rintro _ ⟨⟩; exact start)

theorem skipAllBlanks {gap : List Char} (blank : Blanks gap) : gap.dropWhile Text.isBlank = [] := by
  have nothing : ∀ c ∈ ([] : List Char).head?, Text.isBlank c = false := fun _ head => (nomatch head)
  have all := Text.dropWhileStop blank nothing
  rwa [List.append_nil] at all

/- What reading a value says about the text. After a word there is a place where a word may end. -/
def Consumes (depth : Nat) (text : List Char) (v : SExpr) (rest : List Char) : Prop :=
  ∃ part, text = part ++ rest ∧ v.height ≤ depth ∧
    (Encodes (.word v) part ∧ Ends rest ∨ Encodes (.closed v) part)

theorem itemTurnCases {opening text rest : List Char} {value : WireReader SExpr} {turn : Reader.Turn SExpr}
    (ok : itemTurn opening value text = .ok (turn, rest)) :
    ∃ gap, Blanks gap ∧ ((turn = .stop ∧ text = gap ++ ')' :: rest) ∨
      ∃ v c more, turn = .more v ∧ text = gap ++ c :: more ∧ Text.isBlank c = false ∧
        value (c :: more) = .ok (v, rest)) := by
  obtain ⟨gap, blank, split⟩ := blanksSplit text
  refine ⟨gap, blank, ?_⟩
  unfold itemTurn at ok
  split at ok
  · cases ok
  · rename_i c more found
    rw [found] at split
    split at ok
    · rename_i close
      cases ok
      exact Or.inl ⟨rfl, close ▸ split⟩
    · split at ok
      · rename_i v after read
        cases ok
        exact Or.inr ⟨v, c, more, rfl, split, notBlankAfter found, read⟩
      · cases ok

theorem itemsConsumed {depth : Nat} {value : WireReader SExpr} {opening : List Char}
    (sound : ∀ {c more v rest}, Text.isBlank c = false → value (c :: more) = .ok (v, rest) →
      Consumes depth (c :: more) v rest)
    {text rest : List Char} {values : List SExpr}
    (turns : Reader.Repeats (itemTurn opening value) text values rest)
    (afterWord : Bool) (ends : afterWord = true → Ends text) :
    ∃ part, text = part ++ ')' :: rest ∧ heightAll values ≤ depth ∧
      Encodes (.items afterWord values) part := by
  induction turns generalizing afterWord with
  | stop head =>
    obtain ⟨gap, blank, ⟨_, split⟩ | ⟨_, _, _, same, _⟩⟩ := itemTurnCases head
    · exact ⟨gap, split, Nat.zero_le _, .noItem blank⟩
    · cases same
  | last head =>
    obtain ⟨gap, blank, ⟨same, _⟩ | ⟨_, _, _, same, _⟩⟩ := itemTurnCases head <;> cases same
  | more head shorter tail ih =>
    obtain ⟨gap, blank, ⟨same, _⟩ | ⟨v, c, more, same, rfl, start, read⟩⟩ := itemTurnCases head
    · cases same
    · cases same
      obtain ⟨part, split, low, ⟨encoded, after⟩ | encoded⟩ := sound start read
      · obtain ⟨inside, rfl, lows, items⟩ := ih true (fun _ => after)
        refine ⟨gap ++ (part ++ inside), by simp [split], ?_,
          .wordItem blank (fun yes nothing => ?_) encoded items⟩
        · rw [heightAll]
          exact Nat.max_le.mpr ⟨low, lows⟩
        · -- A word cannot start where a word may end.
          subst nothing
          have reserved := ends yes c rfl
          cases encoded with
          | word nonempty free means =>
            obtain ⟨d, tail, rfl⟩ := List.exists_cons_of_ne_nil nonempty
            cases split
            rw [freeIff.mpr (free c List.mem_cons_self)] at reserved
            cases reserved
      · obtain ⟨inside, rfl, lows, items⟩ := ih false (by simp)
        refine ⟨gap ++ (part ++ inside), by simp [split], ?_, .closedItem blank encoded items⟩
        rw [heightAll]
        exact Nat.max_le.mpr ⟨low, lows⟩
  | stuck head still =>
    -- An item is not empty, so every turn moves on.
    obtain ⟨gap, blank, ⟨same, _⟩ | ⟨v, c, more, same, rfl, start, read⟩⟩ := itemTurnCases head
    · cases same
    · cases same
      obtain ⟨part, split, _, encoded⟩ := sound start read
      obtain ⟨d, tail, rfl, _⟩ := encodedStart (encoded.imp_left And.left)
      refine absurd ?_ still
      rw [split]
      simp only [List.length_append, List.length_cons]
      omega

theorem wordConsumed {c : Char} {more rest : List Char} {v : SExpr} (start : isReserved c = false)
    (depth : Nat) (read : readWord (c :: more) = .ok (v, rest)) :
    Consumes (depth + 1) (c :: more) v rest := by
  unfold readWord at read
  split at read
  · rename_i value
    cases read
    have means := wordValueIff.mp value
    have free := allFree (List.all_takeWhile (p := (!isReserved ·)) (l := c :: more))
    refine ⟨_, List.takeWhile_append_dropWhile.symm, ?_, Or.inl ⟨.word ?_ free means, ?_⟩⟩
    · rw [means.atom.height]
      exact Nat.succ_le_succ (Nat.zero_le depth)
    · simp [start]
    · intro d head
      have stop := Text.dropWhileHead (!isReserved ·) (c :: more) d head
      simpa using stop
  · cases read

theorem valueConsumed {depth : Nat} {c : Char} {more rest : List Char} {v : SExpr}
    (start : Text.isBlank c = false) (read : readValue depth (c :: more) = .ok (v, rest)) :
    Consumes depth (c :: more) v rest := by
  induction depth generalizing c more v rest with
  | zero => cases read
  | succ depth ih =>
    unfold readValue at read
    dsimp only at read
    split at read
    · rename_i opening
      subst opening
      split at read
      · rename_i items after collected
        cases read
        have turns := Reader.collectIff.mp collected
        obtain ⟨part, rfl, low, inside⟩ := itemsConsumed ih turns false (fun no => (nomatch no))
        refine ⟨'(' :: (part ++ [')']), by simp, ?_, Or.inr (.list inside)⟩
        rw [heightList]
        exact Nat.succ_le_succ low
      · cases read
    · rename_i notOpen
      split at read
      · cases read
      · rename_i notClose
        split at read
        · obtain ⟨digits, values, content, split, nonempty, run, short, count, rfl⟩ := readStringIff.mp read
          refine ⟨stringMark ++ (digits ++ ':' :: content), by simp [split], ?_,
            Or.inr (.string nonempty run short count)⟩
          simp [height]
        · rename_i notMark
          exact wordConsumed (freeIff.mpr ⟨start, notOpen, notClose, notMark⟩) depth read

theorem itemsEnd {values : List SExpr} {part : List Char} (encoded : Encodes (.items true values) part)
    (rest : List Char) : Ends (part ++ ')' :: rest) := by
  have blankFirst : ∀ {gap : List Char} (after), Blanks gap → gap ≠ [] → Ends (gap ++ after) := by
    intro gap after blank some
    obtain ⟨c, tail, rfl⟩ := List.exists_cons_of_ne_nil some
    exact endsReserved (by simp [isReserved, blank c List.mem_cons_self]) _
  cases encoded with
  | noItem blank =>
    by_cases nothing : part = []
    · subst nothing
      exact endsReserved (by decide) rest
    · exact blankFirst _ blank nothing
  | wordItem blank apart head tail =>
    rw [List.append_assoc]
    exact blankFirst _ blank (apart rfl)
  | @closedItem _ gap _ _ _ _ blank head tail =>
    by_cases nothing : gap = []
    · subst nothing
      cases head with
      | string => exact endsReserved (by decide) _
      | list => exact endsReserved (by decide) _
    · rw [List.append_assoc]
      exact blankFirst _ blank nothing

theorem itemReads {value : WireReader SExpr} {v : SExpr} {gap part rest : List Char} (blank : Blanks gap)
    (encoded : Encodes (.word v) part ∨ Encodes (.closed v) part)
    (read : value (part ++ rest) = .ok (v, rest)) (opening : List Char) :
    itemTurn opening value (gap ++ (part ++ rest)) = .ok (.more v, rest) ∧
      rest.length < (gap ++ (part ++ rest)).length := by
  obtain ⟨c, tail, rfl, start, notClose⟩ := encodedStart encoded
  rw [List.cons_append] at read
  constructor
  · unfold itemTurn
    rw [List.cons_append, skipBlanks blank start]
    simp only [if_neg notClose, read]
  · simp only [List.length_append, List.length_cons]
    omega

def Form.Reads (part : List Char) : Form → Prop
  | .word v => ∀ depth rest, v.height ≤ depth → Ends rest → readValue depth (part ++ rest) = .ok (v, rest)
  | .closed v => ∀ depth rest, v.height ≤ depth → readValue depth (part ++ rest) = .ok (v, rest)
  | .items _ values => ∀ depth opening rest, heightAll values ≤ depth →
      Reader.Repeats (itemTurn opening (readValue depth)) (part ++ ')' :: rest) values rest

theorem wordReads {word rest : List Char} {v : SExpr} (nonempty : word ≠ [])
    (free : ∀ c ∈ word, Text.isBlank c = false ∧ c ≠ '(' ∧ c ≠ ')' ∧ c ≠ sentinel) (means : Denotes word v)
    (depth : Nat) (ends : Ends rest) : readValue (depth + 1) (word ++ rest) = .ok (v, rest) := by
  have inside : ∀ c ∈ word, (!isReserved c) = true := by
    intro c member
    simp [freeIff.mpr (free c member)]
  have stop : ∀ c ∈ rest.head?, (!isReserved c) = false := by
    intro c member
    simp [ends c member]
  have read : readWord (word ++ rest) = .ok (v, rest) := by
    simp [readWord, Text.takeWhileStop inside stop, Text.dropWhileStop inside stop, wordValueIff.mpr means]
  obtain ⟨c, more, rfl⟩ := List.exists_cons_of_ne_nil nonempty
  obtain ⟨_, notOpen, notClose, notMark⟩ := free c List.mem_cons_self
  rw [List.cons_append] at read ⊢
  simp only [readValue, if_neg notOpen, if_neg notClose, if_neg notMark, read]

theorem stringReads {text rest : List Char} {v : SExpr} (read : readString (stringMark ++ text) = .ok (v, rest))
    (depth : Nat) : readValue (depth + 1) (stringMark ++ text) = .ok (v, rest) := by
  have notOpen : sentinel ≠ '(' := by decide
  have notClose : sentinel ≠ ')' := by decide
  have start : stringMark ++ text = sentinel :: (stringTag ++ text) := rfl
  rw [start] at read ⊢
  simp only [readValue, if_neg notOpen, if_neg notClose, if_true, read]

theorem encodedReads {form : Form} {part : List Char} (encoded : Encodes form part) : form.Reads part := by
  induction encoded with
  | @word word v nonempty free means =>
    intro depth rest enough ends
    rw [means.atom.height] at enough
    obtain ⟨inner, rfl⟩ := Nat.exists_eq_add_of_le' enough
    exact wordReads nonempty free means inner ends
  | @string digits values content nonempty run short count =>
    intro depth rest enough
    obtain ⟨inner, rfl⟩ := Nat.exists_eq_add_of_le' (Nat.le_trans (heightPositive _) enough)
    rw [List.append_assoc, List.append_assoc, List.cons_append]
    exact stringReads (readStringIff.mpr ⟨digits, values, content, rfl, nonempty, run, short, count, rfl⟩) inner
  | @list items text inside ih =>
    intro depth rest enough
    rw [heightList] at enough
    obtain ⟨inner, rfl⟩ := Nat.exists_eq_add_of_le' (Nat.le_trans (Nat.le_add_left 1 _) enough)
    have shape : '(' :: (text ++ [')']) ++ rest = '(' :: (text ++ ')' :: rest) := by simp
    have items := Reader.collectIff.mpr
      (ih inner ('(' :: (text ++ ')' :: rest)) rest (Nat.le_of_succ_le_succ enough))
    rw [shape]
    simp only [readValue, if_true, items]
  | noItem blank =>
    intro depth opening rest enough
    refine .stop ?_
    unfold itemTurn
    rw [skipBlanks blank (by decide)]
    rfl
  | @wordItem afterWord gap word v items text blank apart head tail reads ih =>
    intro depth opening rest enough
    rw [heightAll, Nat.max_le] at enough
    have read := reads depth (text ++ ')' :: rest) enough.1 (itemsEnd tail rest)
    obtain ⟨turn, shorter⟩ := itemReads blank (Or.inl head) read opening
    rw [List.append_assoc, List.append_assoc]
    exact .more turn shorter (ih depth opening rest enough.2)
  | @closedItem afterWord gap part v items text blank head tail reads ih =>
    intro depth opening rest enough
    rw [heightAll, Nat.max_le] at enough
    have read := reads depth (text ++ ')' :: rest) enough.1
    obtain ⟨turn, shorter⟩ := itemReads blank (Or.inr head) read opening
    rw [List.append_assoc, List.append_assoc]
    exact .more turn shorter (ih depth opening rest enough.2)

theorem readDocumentIff {depth : Nat} {text : List Char} {v : SExpr} :
    readDocument depth text = .ok v ↔ Document v text ∧ v.height ≤ depth := by
  constructor
  · intro ok
    unfold readDocument at ok
    split at ok
    · cases ok
    · rename_i start some
      split at ok
      · cases ok
      · rename_i v' after read
        split at ok
        · rename_i done
          cases ok
          obtain ⟨before, leading, split⟩ := blanksSplit text
          obtain ⟨after', trailing, split'⟩ := blanksSplit after
          rw [done, List.append_nil] at split'
          subst split'
          obtain ⟨c, more, first⟩ := List.exists_cons_of_ne_nil some
          rw [first] at read
          obtain ⟨part, whole, enough, encoded⟩ := valueConsumed (notBlankAfter first) read
          rw [split, first, whole]
          exact ⟨.value leading trailing (encoded.imp_left And.left), enough⟩
        · cases ok
  · rintro ⟨document, enough⟩
    cases document with
    | @value before part after leading trailing encoded =>
      have read : readValue depth (part ++ after) = .ok (v, after) := by
        rcases encoded with encoded | encoded
        · have ends : Ends after := by
            intro c head
            simp [isReserved, trailing c (List.mem_of_mem_head? head)]
          exact encodedReads encoded depth after enough ends
        · exact encodedReads encoded depth after enough
      obtain ⟨c, tail, rfl, start, _⟩ := encodedStart encoded
      unfold readDocument
      rw [List.cons_append] at read ⊢
      simp only [skipBlanks leading start, read, skipAllBlanks trailing]

theorem documentUnique {v w : SExpr} {text : List Char} (one : Document v text) (other : Document w text) :
    v = w := by
  have reads := readDocumentIff.mpr ⟨one, Nat.le_max_left v.height w.height⟩
  have reads' := readDocumentIff.mpr ⟨other, Nat.le_max_right v.height w.height⟩
  exact Except.ok.inj (reads.symm.trans reads')

theorem readTextIff {depth : Nat} {text : String} {v : SExpr} :
    read depth text = .ok v ↔ Document v text.toList ∧ v.height ≤ depth := by
  rw [← readDocumentIff]
  unfold read
  split
  · rename_i found
    rw [found]
    exact ⟨fun same => congrArg _ (Except.ok.inj same), fun same => congrArg _ (Except.ok.inj same)⟩
  · rename_i failed
    rw [failed]
    exact ⟨fun same => (nomatch same), fun same => (nomatch same)⟩

theorem readsExactlyEncodings (text : String) (v : SExpr) :
    ((∃ depth, readDocument depth text.toList = .ok v) ↔ Document v text.toList) ∧
      (∀ depth, readDocument depth text.toList = .ok v ↔ Document v text.toList ∧ v.height ≤ depth) ∧
      (∀ depth, read depth text = .ok v ↔ Document v text.toList ∧ v.height ≤ depth) ∧
      ∀ w, Document v text.toList → Document w text.toList → v = w := by
  refine ⟨⟨fun ⟨_, read⟩ => (readDocumentIff.mp read).1, fun document => ?_⟩, fun _ => readDocumentIff,
    fun _ => readTextIff, fun _ => documentUnique⟩
  exact ⟨v.height, readDocumentIff.mpr ⟨document, Nat.le_refl _⟩⟩

def touching : String := "\n(f\x00STR:٢:)(7)"

theorem touchingDocument : Document (.list [.sym "f", .str ")(", .int 7]) touching.toList := by
  have nothing : Blanks [] := fun _ member => (nomatch member)
  have newline : Blanks ['\n'] := List.forall_mem_singleton.mpr rfl
  have seven : Encodes (.word (.int 7)) ['7'] := .word (by simp) (allFree rfl) (wordValueIff.mp rfl)
  have name : Encodes (.word (.sym "f")) ['f'] := .word (by simp) (allFree rfl) (wordValueIff.mp rfl)
  have string : Encodes (.closed (.str ")(")) "\x00STR:٢:)(".toList :=
    @Encodes.string ['٢'] [2] [')', '('] (by simp) rfl (by decide) rfl
  have last := @Encodes.wordItem false [] _ _ _ _ nothing (fun no => (nomatch no)) seven (.noItem nothing)
  have items := @Encodes.wordItem false [] _ _ _ _ nothing (fun no => (nomatch no)) name
    (.closedItem nothing string last)
  exact .value newline nothing (Or.inr (.list items))

theorem readsExactlyEncodingsTouching :
    read 2 touching = .ok (.list [.sym "f", .str ")(", .int 7]) ∧ ¬ Document (.sym touching) touching.toList := by
  obtain ⟨_, _, library, unique⟩ := readsExactlyEncodings touching (.list [.sym "f", .str ")(", .int 7])
  refine ⟨(library 2).mpr ⟨touchingDocument, by simp [height, heightAll]⟩, fun other => ?_⟩
  cases unique _ touchingDocument other

end Scriptlet.Wire
