import Scriptlet.Proofs.WireGrammar

/-! Where reading wire text fails. A reader goes over blanks, into lists and past whole items, and stops
at the first place that it cannot read. Numbers without a value are such places; they are not reported
as faults of the text. -/
namespace Scriptlet
open Transport SExpr

namespace Wire

/- The places of a text that a reader comes to: the lists that are open there, each by the text from its
bracket on and the innermost first, whether a word has just ended, and the text from there on. -/
inductive Reaches (depth : Nat) (text : List Char) : List (List Char) → Bool → List Char → Prop where
  | start : Reaches depth text [] false text
  | blank {lists afterWord c rest} (here : Reaches depth text lists afterWord (c :: rest))
      (blank : Text.isBlank c = true) : Reaches depth text lists false rest
  | opened {lists afterWord rest} (here : Reaches depth text lists afterWord ('(' :: rest))
      (room : lists.length < depth) : Reaches depth text (('(' :: rest) :: lists) false rest
  | word {opening lists v word rest} (here : Reaches depth text (opening :: lists) false (word ++ rest))
      (encoded : Encodes (.word v) word) (room : v.height + (lists.length + 1) ≤ depth) :
      Reaches depth text (opening :: lists) true rest
  | closed {opening lists afterWord v part rest}
      (here : Reaches depth text (opening :: lists) afterWord (part ++ rest))
      (encoded : Encodes (.closed v) part) (room : v.height + (lists.length + 1) ≤ depth) :
      Reaches depth text (opening :: lists) false rest

/- A number without a value at the front of a text: the length of a string, or a word, which cannot
start where another word has just ended. -/
inductive Unconverted : Bool → List Char → Numeral.Error → Prop where
  | length {afterWord digits rest e} (nonempty : digits ≠ []) (like : ∀ c ∈ digits, Text.isDigitLike c = true)
      (unvalued : Numeral.Unvalued digits e) :
      Unconverted afterWord (stringMark ++ (digits ++ ':' :: rest)) e
  | integer {word n rest} (nonempty : word ≠ []) (free : ∀ c ∈ word, isReserved c = false)
      (spelled : Numeral.Spelled word n) (plain : ¬ Numeral.Marked word)
      (long : Numeral.maxDigits < n.whole.length) (ends : Ends rest) :
      Unconverted false (word ++ rest) (.tooLong n.whole.length)

theorem Reaches.gap {depth : Nat} {text rest : List Char} {lists : List (List Char)} {afterWord : Bool}
    {gap : List Char} (blank : Blanks gap) (here : Reaches depth text lists afterWord (gap ++ rest)) :
    ∃ after, Reaches depth text lists after rest ∧ (after = true → gap = [] ∧ afterWord = true) := by
  induction gap generalizing afterWord with
  | nil => exact ⟨afterWord, here, fun yes => ⟨rfl, yes⟩⟩
  | cons c gap ih =>
    obtain ⟨first, others⟩ := List.forall_mem_cons.mp blank
    obtain ⟨after, there, last⟩ := ih others (here.blank first)
    exact ⟨after, there, fun yes => absurd (last yes).2 (by simp)⟩

theorem itemTurnError {opening text : List Char} {value : WireReader SExpr} {blame : Blame}
    (failed : itemTurn opening value text = .error blame) :
    ∃ gap, Blanks gap ∧ ((text = gap ∧ blame = ⟨.unclosed, opening⟩) ∨
      ∃ c more, text = gap ++ c :: more ∧ Text.isBlank c = false ∧ c ≠ ')' ∧
        value (c :: more) = .error blame) := by
  obtain ⟨gap, blank, split⟩ := blanksSplit text
  refine ⟨gap, blank, ?_⟩
  unfold itemTurn at failed
  split at failed
  · rename_i nothing
    cases failed
    rw [nothing, List.append_nil] at split
    exact Or.inl ⟨split, rfl⟩
  · rename_i c more found
    rw [found] at split
    split at failed
    · cases failed
    · rename_i notClose
      split at failed
      · cases failed
      · rename_i wrong
        cases failed
        exact Or.inr ⟨c, more, split, notBlankAfter found, notClose, wrong⟩

theorem Reaches.items {depth budget : Nat} {text opening start s rest : List Char} {lists : List (List Char)}
    {afterWord : Bool} {values : List SExpr} (room : budget + (lists.length + 1) = depth)
    (turns : Reader.Turns (itemTurn opening (readValue budget)) s values rest)
    (here : Reaches depth text (start :: lists) afterWord s) (ends : afterWord = true → Ends s) :
    ∃ after, Reaches depth text (start :: lists) after rest ∧ (after = true → Ends rest) := by
  induction turns generalizing afterWord with
  | none => exact ⟨afterWord, here, ends⟩
  | more head _ _ ih =>
    obtain ⟨gap, blank, ⟨same, _⟩ | ⟨v, c, more, same, rfl, start, read⟩⟩ := itemTurnCases head
    · cases same
    · cases same
      obtain ⟨part, split, low, encoded⟩ := valueConsumed start read
      have fits := room ▸ Nat.add_le_add_right low (lists.length + 1)
      obtain ⟨after, there, last⟩ := here.gap blank
      rw [split] at there
      obtain ⟨encoded, stop⟩ | encoded := encoded
      · have fresh : after = false := by
          -- A word cannot start where a word may end.
          rw [Bool.eq_false_iff]
          intro yes
          obtain ⟨rfl, yes⟩ := last yes
          have reserved := ends yes c rfl
          cases encoded with
          | word nonempty free means =>
            obtain ⟨d, tail, rfl⟩ := List.exists_cons_of_ne_nil nonempty
            cases split
            rw [freeIff.mpr (free c List.mem_cons_self)] at reserved
            cases reserved
        rw [fresh] at there
        exact ih (there.word encoded fits) (fun _ => stop)
      · exact ih (there.closed encoded fits) (fun no => (nomatch no))

theorem lengthUnconverted {text rest : List Char} {n : Numeral.Error}
    (failed : readString text = .error ⟨.numeral n, rest⟩) :
    rest = text ∧ ∀ afterWord, Unconverted afterWord text n := by
  obtain noMark | ⟨body, rfl, noColon⟩ | ⟨digits, content, rfl, noColon⟩ := stringSplit text
  · cases (readNoMark noMark).symm.trans failed
  · cases (readNoColon noColon).symm.trans failed
  · rw [readLength noColon] at failed
    split at failed
    · cases failed
    · rename_i like
      simp only [Bool.or_eq_true, Bool.not_eq_true', not_or, Bool.not_eq_true, Bool.not_eq_false,
        List.isEmpty_eq_false_iff, List.all_eq_true] at like
      split at failed
      · rename_i unread
        cases failed
        exact ⟨rfl, fun _ => .length like.1 like.2 ((Numeral.naturalErrorIff like.1).mp unread)⟩
      · split at failed <;> cases failed

theorem wordValueErrorIff {word : List Char} {e : Numeral.Error} :
    wordValue word = .error e ↔ ∃ n, Numeral.Spelled word n ∧ ¬ Numeral.Marked word ∧
      Numeral.maxDigits < n.whole.length ∧ e = .tooLong n.whole.length := by
  constructor
  · intro failed
    unfold wordValue at failed
    split at failed
    · cases failed
    · split at failed
      · rename_i n read
        have spelled := Numeral.readIff.mp read
        split at failed
        · rename_i whole
          have long := exceptMapError.mp failed
          unfold Numeral.toInt Numeral.integer at long
          split at long
          · rename_i digits
            cases long
            exact ⟨n, spelled, spelled.wholeIff.mp whole, digits, rfl⟩
          · cases long
        · cases failed
      · cases failed
  · intro ⟨n, spelled, plain, long, same⟩
    have unread : n.toInt = .error e := same ▸ if_pos long
    simp only [wordValue, lookupOfSpelled spelled, Numeral.readIff.mpr spelled, spelled.wholeIff.mpr plain, unread]
    rfl

theorem wordUnconverted {c : Char} {more rest : List Char} {n : Numeral.Error} (start : isReserved c = false)
    (failed : readWord (c :: more) = .error ⟨.numeral n, rest⟩) :
    rest = c :: more ∧ Unconverted false (c :: more) n := by
  unfold readWord at failed
  split at failed
  · cases failed
  · rename_i unread
    cases failed
    obtain ⟨n, spelled, plain, long, rfl⟩ := wordValueErrorIff.mp unread
    have nonempty : (c :: more).takeWhile (!isReserved ·) ≠ [] := by simp [start]
    have free := allFree (List.all_takeWhile (p := (!isReserved ·)) (l := c :: more))
    have ends : Ends ((c :: more).dropWhile (!isReserved ·)) := by
      intro d head
      simpa using Text.dropWhileHead (!isReserved ·) (c :: more) d head
    have unconverted := Unconverted.integer nonempty (fun d member => freeIff.mpr (free d member)) spelled plain
      long ends
    rw [List.takeWhile_append_dropWhile] at unconverted
    exact ⟨rfl, unconverted⟩

theorem stringFault {text : List Char} {blame : Blame} (failed : readString text = .error blame) :
    blame.rest = text ∧ (blame.fault = .unknownTag ∨ blame.fault = .malformedLength ∨
      blame.fault = .shortContent ∨ ∃ n, blame.fault = .numeral n) := by
  obtain noMark | ⟨body, rfl, noColon⟩ | ⟨digits, content, rfl, noColon⟩ := stringSplit text
  · cases (readNoMark noMark).symm.trans failed
    exact ⟨rfl, Or.inl rfl⟩
  · cases (readNoColon noColon).symm.trans failed
    exact ⟨rfl, Or.inr (Or.inl rfl)⟩
  · rw [readLength noColon] at failed
    split at failed
    · cases failed
      exact ⟨rfl, Or.inr (Or.inl rfl)⟩
    · split at failed
      · cases failed
        exact ⟨rfl, Or.inr (Or.inr (Or.inr ⟨_, rfl⟩))⟩
      · split at failed <;> cases failed
        exact ⟨rfl, Or.inr (Or.inr (Or.inl rfl))⟩

theorem wordFault {text : List Char} {blame : Blame} (failed : readWord text = .error blame) :
    ∃ n, blame = ⟨.numeral n, text⟩ := by
  unfold readWord at failed
  split at failed <;> cases failed
  exact ⟨_, rfl⟩

inductive Stops (depth : Nat) (text : List Char) : Blame → Prop where
  | empty (blank : Blanks text) : Stops depth text ⟨.emptyInput, []⟩
  | trailing {front c rest v} (whole : text = front ++ c :: rest) (start : Text.isBlank c = false)
      (done : Document v front) (enough : v.height ≤ depth) : Stops depth text ⟨.trailing, c :: rest⟩
  | unclosed {opening lists afterWord} (here : Reaches depth text (opening :: lists) afterWord []) :
      Stops depth text ⟨.unclosed, opening⟩
  | tooDeep {lists afterWord rest} (here : Reaches depth text lists afterWord rest)
      (full : lists.length = depth) : Stops depth text ⟨.tooDeep, rest⟩
  | close {afterWord rest} (here : Reaches depth text [] afterWord (')' :: rest)) :
      Stops depth text ⟨.unexpectedClose, ')' :: rest⟩
  | string {lists afterWord rest blame} (here : Reaches depth text lists afterWord (sentinel :: rest))
      (room : lists.length < depth) (failed : readString (sentinel :: rest) = .error blame) :
      Stops depth text blame
  | word {lists c rest blame} (here : Reaches depth text lists false (c :: rest)) (room : lists.length < depth)
      (start : isReserved c = false) (failed : readWord (c :: rest) = .error blame) : Stops depth text blame

theorem valueStops {depth budget : Nat} {text more : List Char} {lists : List (List Char)}
    {afterWord : Bool} {c : Char} {blame : Blame} (room : budget + lists.length = depth)
    (here : Reaches depth text lists afterWord (c :: more)) (ends : afterWord = true → Ends (c :: more))
    (start : Text.isBlank c = false) (top : c = ')' → lists = [])
    (failed : readValue budget (c :: more) = .error blame) : Stops depth text blame := by
  induction budget generalizing lists afterWord c more with
  | zero =>
    cases failed
    exact .tooDeep here (by omega)
  | succ budget ih =>
    have inside : lists.length < depth := by omega
    unfold readValue at failed
    dsimp only at failed
    split at failed
    · rename_i opening
      subst opening
      split at failed
      · cases failed
      · rename_i wrong
        cases failed
        obtain ⟨values, last, turns, stops⟩ := Reader.collectError.mp wrong
        have deeper : budget + (('(' :: more) :: lists).length = depth := by
          rw [List.length_cons]
          omega
        obtain ⟨after, there, stop⟩ := Reaches.items deeper turns (here.opened inside) (fun no => (nomatch no))
        obtain ⟨gap, blank, ⟨rfl, rfl⟩ | ⟨d, tail, rfl, start, notClose, wrong⟩⟩ := itemTurnError stops
        · rw [← List.append_nil last] at there
          obtain ⟨later, there, _⟩ := there.gap blank
          exact .unclosed there
        · obtain ⟨later, there, follows⟩ := there.gap blank
          refine ih deeper there (fun yes => ?_) start (fun close => absurd close notClose) wrong
          obtain ⟨rfl, yes⟩ := follows yes
          exact stop yes
    · rename_i notOpen
      split at failed
      · rename_i close
        subst close
        cases failed
        obtain rfl := top rfl
        exact .close here
      · rename_i notClose
        split at failed
        · rename_i mark
          subst mark
          exact .string here inside failed
        · rename_i notMark
          have free := freeIff.mpr ⟨start, notOpen, notClose, notMark⟩
          have fresh : afterWord = false := by
            rw [Bool.eq_false_iff]
            intro yes
            rw [ends yes c rfl] at free
            cases free
          exact .word (fresh ▸ here) inside free failed

theorem readDocumentStops {depth : Nat} {text : List Char} {blame : Blame}
    (failed : readDocument depth text = .error blame) : Stops depth text blame := by
  obtain ⟨gap, blank, split⟩ := blanksSplit text
  unfold readDocument at failed
  split at failed
  · rename_i nothing
    cases failed
    exact .empty (List.dropWhile_eq_nil_iff.mp nothing)
  · rename_i start some
    obtain ⟨c, more, first⟩ := List.exists_cons_of_ne_nil some
    rw [first] at split failed
    have notBlank := notBlankAfter first
    split at failed
    · rename_i wrong
      cases failed
      have begins : Reaches depth text [] false (gap ++ c :: more) :=
        (congrArg (Reaches depth text [] false) split).mp .start
      obtain ⟨after, here, follows⟩ := begins.gap blank
      have fresh : after = true → Ends (c :: more) := fun yes => absurd (follows yes).2 (by simp)
      exact valueStops (Nat.add_zero depth) here fresh notBlank (fun _ => rfl) wrong
    · rename_i v after read
      split at failed
      · cases failed
      · rename_i rest some
        cases failed
        obtain ⟨gap', blank', split'⟩ := blanksSplit after
        obtain ⟨d, tail, first'⟩ := List.exists_cons_of_ne_nil some
        obtain ⟨part, whole, enough, encoded⟩ := valueConsumed notBlank read
        have document := Document.value blank blank' (encoded.imp_left And.left)
        rw [first'] at split' ⊢
        refine .trailing ?_ (notBlankAfter first') document enough
        rw [split, whole, split']
        simp only [List.append_assoc]

def Breaks (depth : Nat) : List (List Char) → List Char → Blame → Prop
  | [], here, blame => readDocument depth here = .error blame
  | opening :: lists, here, blame =>
    Reader.collect (itemTurn opening (readValue (depth - (lists.length + 1)))) here = .error blame

theorem readDocumentBlank {depth : Nat} {c : Char} {rest : List Char} (blank : Text.isBlank c = true) :
    readDocument depth (c :: rest) = readDocument depth rest := by
  unfold readDocument
  rw [List.dropWhile_cons_of_pos blank]

theorem itemTurnBlank {opening : List Char} {value : WireReader SExpr} {c : Char} {rest : List Char}
    (blank : Text.isBlank c = true) : itemTurn opening value (c :: rest) = itemTurn opening value rest := by
  unfold itemTurn
  rw [List.dropWhile_cons_of_pos blank]

theorem breaksBlank {depth : Nat} {lists : List (List Char)} {c : Char} {rest : List Char} {blame : Blame}
    (blank : Text.isBlank c = true) (breaks : Breaks depth lists rest blame) :
    Breaks depth lists (c :: rest) blame := by
  cases lists with
  | nil => exact (readDocumentBlank blank).trans breaks
  | cons opening lists =>
    obtain ⟨values, last, turns, fails⟩ := Reader.collectError.mp breaks
    refine Reader.collectError.mpr ?_
    cases turns with
    | none => exact ⟨[], _, .none, (itemTurnBlank blank).trans fails⟩
    | more head shorter tail =>
      exact ⟨_, last, .more ((itemTurnBlank blank).trans head) (Nat.lt_succ_of_lt shorter) tail, fails⟩

theorem breaksValue {depth : Nat} {lists : List (List Char)} {c : Char} {rest : List Char} {blame : Blame}
    (start : Text.isBlank c = false) (notClose : c ≠ ')')
    (failed : readValue (depth - lists.length) (c :: rest) = .error blame) :
    Breaks depth lists (c :: rest) blame := by
  have here : (c :: rest).dropWhile Text.isBlank = c :: rest := List.dropWhile_cons_of_neg (by simp [start])
  cases lists with
  | nil =>
    have failed : readValue depth (c :: rest) = .error blame := failed
    simp only [Breaks, readDocument, here, failed]
  | cons opening lists =>
    have failed : readValue (depth - (lists.length + 1)) (c :: rest) = .error blame := failed
    refine Reader.collectError.mpr ⟨[], _, .none, ?_⟩
    simp only [itemTurn, here, if_neg notClose, failed]

theorem breaksItem {depth : Nat} {opening part rest : List Char} {lists : List (List Char)} {v : SExpr}
    {blame : Blame} (encoded : Encodes (.word v) part ∧ Ends rest ∨ Encodes (.closed v) part)
    (room : v.height + (lists.length + 1) ≤ depth) (breaks : Breaks depth (opening :: lists) rest blame) :
    Breaks depth (opening :: lists) (part ++ rest) blame := by
  have enough : v.height ≤ depth - (lists.length + 1) := Nat.le_sub_of_add_le room
  have read : readValue (depth - (lists.length + 1)) (part ++ rest) = .ok (v, rest) := by
    obtain ⟨word, ends⟩ | closed := encoded
    · exact encodedReads word _ rest enough ends
    · exact encodedReads closed _ rest enough
  have nothing : Blanks [] := fun _ member => (nomatch member)
  obtain ⟨turn, shorter⟩ := itemReads nothing (encoded.imp_left And.left) read opening
  obtain ⟨values, last, turns, fails⟩ := Reader.collectError.mp breaks
  exact Reader.collectError.mpr ⟨v :: values, last, .more turn shorter turns, fails⟩

theorem Reaches.breaks {depth : Nat} {text here : List Char} {lists : List (List Char)} {afterWord : Bool}
    (reaches : Reaches depth text lists afterWord here) (ends : afterWord = true → Ends here) {blame : Blame}
    (breaks : Breaks depth lists here blame) : readDocument depth text = .error blame := by
  induction reaches generalizing blame with
  | start => exact breaks
  | blank _ blank ih =>
    refine ih (fun _ => endsReserved ?_ _) (breaksBlank blank breaks)
    simp [isReserved, blank]
  | @opened lists _ rest _ room ih =>
    refine ih (fun _ => endsReserved (by decide) _) (breaksValue (by decide) (by decide) ?_)
    obtain ⟨budget, same⟩ : ∃ budget, depth - lists.length = budget + 1 := ⟨_, (Nat.succ_pred (by omega)).symm⟩
    have inner : depth - (lists.length + 1) = budget := by omega
    have failed : Reader.collect (itemTurn ('(' :: rest) (readValue budget)) rest = .error blame := inner ▸ breaks
    rw [same]
    simp only [readValue, if_true, failed]
  | word _ encoded room ih =>
    exact ih (fun no => absurd no (by decide)) (breaksItem (Or.inl ⟨encoded, ends rfl⟩) room breaks)
  | @closed opening lists _ v part rest _ encoded room ih =>
    refine ih (fun _ => ?_) (breaksItem (Or.inr encoded) room breaks)
    cases encoded with
    | string => exact endsReserved (by decide) _
    | list => exact endsReserved (by decide) _

theorem Unconverted.start {afterWord : Bool} {here : List Char} {n : Numeral.Error}
    (unconverted : Unconverted afterWord here n) :
    ∃ c rest, here = c :: rest ∧ Text.isBlank c = false ∧ c ≠ ')' ∧ (afterWord = true → Ends here) := by
  cases unconverted with
  | length => exact ⟨sentinel, _, rfl, by decide, by decide, fun _ => endsReserved (by decide) _⟩
  | integer nonempty free spelled plain long ends =>
    obtain ⟨c, rest, rfl⟩ := List.exists_cons_of_ne_nil nonempty
    obtain ⟨blank, _, notClose, _⟩ := freeIff.mp (free c List.mem_cons_self)
    exact ⟨c, _, rfl, blank, notClose, fun no => (nomatch no)⟩

theorem Unconverted.fails {afterWord : Bool} {here : List Char} {n : Numeral.Error}
    (unconverted : Unconverted afterWord here n) (budget : Nat) :
    readValue (budget + 1) here = .error ⟨.numeral n, here⟩ := by
  cases unconverted with
  | @length _ digits rest _ nonempty like unvalued =>
    have noColon : ':' ∉ digits := fun member => absurd (like _ member) (by decide)
    have all : digits.all Text.isDigitLike = true := List.all_eq_true.mpr like
    have failed : readString (stringMark ++ (digits ++ ':' :: rest)) =
        .error ⟨.numeral n, stringMark ++ (digits ++ ':' :: rest)⟩ := by
      rw [readLength noColon, (Numeral.naturalErrorIff nonempty).mpr unvalued]
      simp [nonempty, all]
    have notOpen : sentinel ≠ '(' := by decide
    have notClose : sentinel ≠ ')' := by decide
    have first : stringMark ++ (digits ++ ':' :: rest) = sentinel :: (stringTag ++ (digits ++ ':' :: rest)) := rfl
    rw [first] at failed ⊢
    simp only [readValue, if_neg notOpen, if_neg notClose, if_true, failed]
  | @integer word n rest nonempty free spelled plain long ends =>
    have inside : ∀ c ∈ word, (!isReserved c) = true := by
      intro c member
      simp [free c member]
    have stop : ∀ c ∈ rest.head?, (!isReserved c) = false := by
      intro c member
      simp [ends c member]
    have value := wordValueErrorIff.mpr ⟨n, spelled, plain, long, rfl⟩
    have failed : readWord (word ++ rest) = .error ⟨.numeral (.tooLong n.whole.length), word ++ rest⟩ := by
      simp only [readWord, Text.takeWhileStop inside stop, value]
    obtain ⟨c, more, rfl⟩ := List.exists_cons_of_ne_nil nonempty
    obtain ⟨_, notOpen, notClose, notMark⟩ := freeIff.mp (free c List.mem_cons_self)
    rw [List.cons_append] at failed ⊢
    simp only [readValue, if_neg notOpen, if_neg notClose, if_neg notMark, failed]

theorem readDocumentNumeralIff {depth : Nat} {text rest : List Char} {n : Numeral.Error} :
    readDocument depth text = .error ⟨.numeral n, rest⟩ ↔
      ∃ lists afterWord, Reaches depth text lists afterWord rest ∧ lists.length < depth ∧
        Unconverted afterWord rest n := by
  constructor
  · intro failed
    generalize same : Blame.mk (.numeral n) rest = blame at failed
    cases readDocumentStops failed with
    | @string lists afterWord _ _ here room failed =>
      obtain ⟨rfl, unconverted⟩ := lengthUnconverted (same ▸ failed)
      exact ⟨lists, afterWord, here, room, unconverted afterWord⟩
    | @word lists _ _ _ here room start failed =>
      obtain ⟨rfl, unconverted⟩ := wordUnconverted start (same ▸ failed)
      exact ⟨lists, false, here, room, unconverted⟩
    | _ => cases same
  · intro ⟨lists, afterWord, reaches, room, unconverted⟩
    obtain ⟨c, more, rfl, blank, notClose, ends⟩ := unconverted.start
    refine reaches.breaks ends (breaksValue blank notClose ?_)
    obtain ⟨budget, same⟩ : ∃ budget, depth - lists.length = budget + 1 := ⟨_, (Nat.succ_pred (by omega)).symm⟩
    rw [same]
    exact unconverted.fails budget

theorem readDocumentEmptyIff {depth : Nat} {text : List Char} :
    (∃ rest, readDocument depth text = .error ⟨.emptyInput, rest⟩) ↔ Blanks text := by
  constructor
  · intro ⟨rest, failed⟩
    generalize same : Blame.mk .emptyInput rest = blame at failed
    cases readDocumentStops failed with
    | empty blank => exact blank
    | string here room failed =>
      obtain ⟨_, faults⟩ := stringFault failed
      rw [← same] at faults
      simp at faults
    | word here room start failed =>
      obtain ⟨n, rfl⟩ := wordFault failed
      cases same
    | _ => cases same
  · intro blank
    exact ⟨[], by simp only [readDocument, skipAllBlanks blank]⟩

end Wire

def DecodeFault.isReported : DecodeFault → Bool
  | .numeral _ => false
  | _ => true

namespace Wire

theorem readErrorIff {depth : Nat} {text : String} {e : DecodeError} :
    read depth text = .error e ↔ ∃ blame, readDocument depth text.toList = .error blame ∧
      e = ⟨blame.fault, some (text.length - blame.rest.length)⟩ := by
  unfold read
  cases readDocument depth text.toList with
  | ok v => simp
  | error blame => simp [eq_comm]

theorem reportsAllButNumbers (depth : Nat) (text : String) :
    (∀ n offset, read depth text = .error ⟨.numeral n, offset⟩ ↔
      ∃ lists afterWord here, Reaches depth text.toList lists afterWord here ∧
        lists.length < depth ∧ Unconverted afterWord here n ∧
        offset = some (text.length - here.length)) ∧
      ((∃ offset, read depth text = .error ⟨.emptyInput, offset⟩) ↔ Blanks text.toList) ∧
      ((∀ lists afterWord here n, Reaches depth text.toList lists afterWord here →
          lists.length < depth → ¬ Unconverted afterWord here n) →
        (∃ v, read depth text = .ok v) ∨ ∃ e, read depth text = .error e ∧ e.fault.isReported = true) := by
  have numbers : ∀ n offset, read depth text = .error ⟨.numeral n, offset⟩ ↔
      ∃ lists afterWord here, Reaches depth text.toList lists afterWord here ∧
        lists.length < depth ∧ Unconverted afterWord here n ∧
        offset = some (text.length - here.length) := by
    intro n offset
    rw [readErrorIff]
    constructor
    · intro ⟨⟨fault, here⟩, failed, same⟩
      cases same
      obtain ⟨lists, afterWord, reaches, room, unconverted⟩ := readDocumentNumeralIff.mp failed
      exact ⟨lists, afterWord, here, reaches, room, unconverted, rfl⟩
    · intro ⟨lists, afterWord, here, reaches, room, unconverted, same⟩
      have failed := readDocumentNumeralIff.mpr ⟨lists, afterWord, reaches, room, unconverted⟩
      exact ⟨_, failed, by rw [same]⟩
  refine ⟨numbers, ?_, fun convertible => ?_⟩
  · rw [← @readDocumentEmptyIff depth]
    constructor
    · intro ⟨offset, failed⟩
      obtain ⟨⟨fault, rest⟩, nothing, same⟩ := readErrorIff.mp failed
      cases same
      exact ⟨rest, nothing⟩
    · intro ⟨rest, failed⟩
      exact ⟨_, readErrorIff.mpr ⟨_, failed, rfl⟩⟩
  · cases result : read depth text with
    | ok v => exact Or.inl ⟨v, rfl⟩
    | error e =>
      refine Or.inr ⟨e, rfl, ?_⟩
      obtain ⟨fault, offset⟩ := e
      cases fault with
      | numeral n =>
        obtain ⟨lists, afterWord, here, reaches, room, unconverted, _⟩ := (numbers n offset).mp result
        exact absurd unconverted (convertible lists afterWord here n reaches room)
      | _ => rfl

theorem lengthSignUnreported : ∃ e, read 1 "\x00STR:²:" = .error e ∧ e.fault.isReported = false :=
  ⟨⟨.numeral (.notDecimal "²"), some 0⟩, rfl, rfl⟩

def openList : String := "(f \x00STR:1²:x"

def letter : String := "\x00STR:x:"

theorem reportsAllButNumbersOpenList :
    read 9 openList = .error ⟨.numeral (.notDecimal "1²"), some 3⟩ ∧
      ((∃ v, read 9 letter = .ok v) ∨ ∃ e, read 9 letter = .error e ∧ e.fault.isReported = true) := by
  have room : 0 < 9 := by decide
  have name : Encodes (.word (.sym "f")) ['f'] := .word (by simp) (allFree rfl) (wordValueIff.mp rfl)
  constructor
  · have begins : Reaches 9 openList.toList [] false ('(' :: 'f' :: ' ' :: "\x00STR:1²:x".toList) := .start
    have behind := (@Reaches.word _ _ _ _ _ ['f'] _ (begins.opened room) name (by decide)).blank rfl
    have sign : Numeral.Unvalued ['1', '²'] (.notDecimal "1²") :=
      @Numeral.Unvalued.sign ['1'] '²' [] (List.forall_mem_singleton.mpr rfl) rfl (by decide)
    have length : Unconverted false (stringMark ++ (['1', '²'] ++ ':' :: ['x'])) (.notDecimal "1²") :=
      .length (by simp) (List.all_eq_true.mp rfl) sign
    exact ((reportsAllButNumbers 9 openList).1 _ _).mpr ⟨_, _, _, behind, by decide, length, rfl⟩
  · refine (reportsAllButNumbers 9 letter).2.2 fun lists afterWord here n reaches room unconverted => ?_
    have malformed : read 9 letter = .error ⟨.malformedLength, some 0⟩ := rfl
    have escapes := ((reportsAllButNumbers 9 letter).1 n _).mpr ⟨_, _, _, reaches, room, unconverted, rfl⟩
    cases malformed.symm.trans escapes

end Wire

end Scriptlet
