import Scriptlet.Json
import Scriptlet.Proofs.Numerals
import Scriptlet.Proofs.WireGrammar

/-! Plain data and wire text give back the value that they were made from. In plain data the mark in front
of a string tells it from a symbol, and no symbol starts with the first character of the mark. What the
writer of wire text makes is an encoding of the value, and the reader reads encodings. -/
namespace Scriptlet.Json
open Transport SExpr

theorem encodeDescends : Descends encode .tooDeep where
  zero _ := rfl
  atom depth v atom := by
    cases v with
    | list items => exact absurd rfl (atom items)
    | _ => rfl
  list depth items := by
    refine ⟨.arr, ?_⟩
    rw [encode]
    cases items.mapM (encode depth) <;> rfl

theorem decodeString (depth : Nat) (s : String) :
    decode (depth + 1) (.str (String.ofList (stringMark ++ s.toList))) = .ok (.str s) := by
  have mark : stringMark.isPrefixOf (stringMark ++ s.toList) = true :=
    List.isPrefixOf_iff_prefix.mpr (List.prefix_append _ _)
  rw [decode, String.toList_ofList, if_pos mark, List.drop_left, String.ofList_toList]

theorem decodeSymbol (depth : Nat) {name : String} (plain : name.toList.head? ≠ some sentinel) :
    decode (depth + 1) (.str name) = .ok (.sym name) := by
  have noMark : ¬ stringMark.isPrefixOf name.toList = true := by
    rw [List.isPrefixOf_iff_prefix]
    rintro ⟨rest, same⟩
    rw [← same] at plain
    exact plain rfl
  rw [decode, if_neg noMark, if_neg plain]

theorem mapMDecode {f : SExpr → Except EncodeError Json} {g : Json → Except DecodeFault SExpr}
    {items : List SExpr} {parts : List Json}
    (each : List.Forall₂ (fun v j => f v = .ok j) items parts)
    (inverse : ∀ v ∈ items, ∀ j, f v = .ok j → g j = .ok v) : parts.mapM g = .ok items := by
  rw [mapMOk]
  induction each with
  | nil => exact .nil
  | cons head _ ih =>
    obtain ⟨first, rest⟩ := List.forall_mem_cons.mp inverse
    exact .cons (first _ head) (ih rest)

theorem decodeEncoded {depth more : Nat} {v : SExpr} {j : Json} (encoded : encode depth v = .ok j)
    (enough : v.height ≤ more) : decode more j = .ok v := by
  induction more generalizing depth v j with
  | zero => exact absurd enough (Nat.not_le.mpr v.heightPositive)
  | succ more ih =>
    cases depth with
    | zero => cases encoded
    | succ depth =>
      cases v with
      | null => cases encoded; rfl
      | bool b => cases encoded; rfl
      | int n => cases encoded; rfl
      | float x =>
        simp only [encode] at encoded
        split at encoded
        · cases encoded
          rfl
        · cases encoded
      | str s =>
        simp only [encode] at encoded
        split at encoded
        · cases encoded
        · cases encoded
          exact decodeString more s
      | sym name =>
        simp only [encode] at encoded
        split at encoded
        · cases encoded
        · rename_i plain
          cases encoded
          exact decodeSymbol more plain
      | list items =>
        rw [heightList, Nat.succ_le_succ_iff, heightAllLe] at enough
        rw [encode] at encoded
        cases parts : items.mapM (encode depth) with
        | error e =>
          rw [parts] at encoded
          cases encoded
        | ok js =>
          rw [parts] at encoded
          cases encoded
          have back := mapMDecode (mapMOk.mp parts) fun v member _ head => ih head (enough v member)
          rw [decode, back]
          rfl
      | «foreign» value => cases encoded

end Scriptlet.Json

namespace Scriptlet.Wire
open Transport

theorem charsDescends : Descends chars .tooDeep where
  zero _ := rfl
  atom depth v atom := by
    cases v with
    | list items => exact absurd rfl (atom items)
    | _ => rfl
  list depth items := ⟨_, rfl⟩

theorem freeBetween {c : Char} (low : 0x30 ≤ c.toNat) (high : c.toNat ≤ 0x7a) : isReserved c = false := by
  have blank : Text.isBlank c = false := by
    rw [Bool.eq_false_iff]
    intro blank
    obtain ⟨range, member, above, below⟩ := Text.inRangesIff.mp blank
    simp only [Text.blankRanges, List.mem_cons, List.not_mem_nil, or_false] at member
    rcases member with rfl | rfl | rfl | rfl | rfl | rfl | rfl | rfl | rfl | rfl <;> omega
  have delimiter : isDelimiter c = false := by
    simp only [isDelimiter, Bool.or_eq_false_iff, beq_eq_false_iff_ne]
    refine ⟨⟨?_, ?_⟩, ?_⟩ <;> rintro rfl <;> revert low <;> decide
  simp [isReserved, blank, delimiter]

theorem alphanumFree {c : Char} (word : c.isAlphanum = true) : isReserved c = false := by
  rcases Bool.or_eq_true_iff.mp word with letter | digit
  · obtain ⟨low, high⟩ := Text.letterBounds letter
    exact freeBetween (Nat.le_trans (by decide) low) high
  · simp only [Char.isDigit, ge_iff_le, Bool.and_eq_true, decide_eq_true_eq, UInt32.le_iff_toNat_le] at digit
    exact freeBetween digit.1 (Nat.le_trans digit.2 (by decide))

theorem numeralFree {w : Numeral.Written} (valid : w.Valid) : ∀ c ∈ w.text, isReserved c = false := by
  intro c member
  rcases Numeral.Written.textChars valid member with digit | mark
  · exact alphanumFree (by simp [Char.isAlphanum, digit])
  · simp only [List.mem_cons, List.not_mem_nil, or_false] at mark
    rcases mark with rfl | rfl | rfl | rfl <;> decide

theorem numeralEncodes {w : Numeral.Written} (valid : w.Valid) {v : SExpr}
    (value : (if w.numeral.isWhole then .int <$> w.numeral.toInt
      else .ok (.float w.numeral.toBinary) : Except Numeral.Error SExpr) = .ok v) :
    Encodes (.word v) w.text := by
  have read := Numeral.Written.reads valid
  have means : wordValue w.text = .ok v := by
    simp only [wordValue, lookupOfSpelled (Numeral.readIff.mp read), read, value]
  refine .word (fun nothing => ?_) (fun c member => freeIff.mp (numeralFree valid c member))
    (wordValueIff.mp means)
  rw [nothing] at read
  cases read

theorem symbolEncodes {name : String} (fine : symbolFault? name = none) :
    Encodes (.word (.sym name)) name.toList := by
  unfold symbolFault? at fine
  dsimp only at fine
  split at fine
  · cases fine
  · rename_i nonempty
    split at fine
    · cases fine
    · rename_i noLiteral
      split at fine
      · cases fine
      · rename_i noReserved
        simp only [Bool.or_eq_true, not_or, Option.not_isSome_iff_eq_none] at noLiteral
        simp only [List.any_eq_true, not_exists, not_and, Bool.not_eq_true] at noReserved
        have means : wordValue name.toList = .ok (.sym name) := by
          simp [wordValue, noLiteral.1, noLiteral.2]
        refine .word ?_ (fun c member => freeIff.mp (noReserved c member)) (wordValueIff.mp means)
        simpa using nonempty

theorem stringEncodes {s : String} (short : s.length < 10 ^ Numeral.maxDigits) :
    Encodes (.closed (.str s)) (stringMark ++ Nat.toDigits 10 s.length ++ ':' :: s.toList) := by
  have nonempty : Nat.toDigits 10 s.length ≠ [] := Nat.toDigits_ne_nil
  have few := (Nat.length_toDigits_le_iff (by decide) (by decide)).mpr short
  have count : Numeral.value (Numeral.plain (Nat.toDigits 10 s.length)) = s.toList.length := by
    rw [Numeral.valueToDigits, String.length_toList]
  have string := Encodes.string nonempty (Numeral.plainRun (Numeral.plainToDigits s.length)) few count
  rwa [String.ofList_toList, ← List.append_assoc] at string

/- One blank in front of each item suits both kinds of items. -/
theorem spacedEncodes {items : List SExpr} {parts : List (List Char)}
    (encoded : List.Forall₂ (fun v part => Encodes (.word v) part ∨ Encodes (.closed v) part) items parts)
    (afterWord : Bool) : Encodes (.items afterWord items) (parts.flatMap (' ' :: ·)) := by
  have blank : Blanks [' '] := List.forall_mem_singleton.mpr rfl
  induction encoded generalizing afterWord with
  | nil => exact .noItem (fun _ member => (nomatch member))
  | cons head tail ih =>
    rw [List.flatMap_cons, List.cons_append, ← List.singleton_append]
    rcases head with head | head
    · exact .wordItem blank (fun _ => List.cons_ne_nil _ _) head (ih true)
    · exact .closedItem blank head (ih false)

theorem intercalateCons (part : List Char) (parts : List (List Char)) :
    [' '].intercalate (part :: parts) = part ++ parts.flatMap (' ' :: ·) := by
  induction parts generalizing part with
  | nil => simp
  | cons next more ih => rw [List.intercalate_cons_cons, ih next]; simp

theorem itemsEncode {items : List SExpr} {parts : List (List Char)}
    (encoded : List.Forall₂ (fun v part => Encodes (.word v) part ∨ Encodes (.closed v) part) items parts) :
    Encodes (.items false items) ([' '].intercalate parts) := by
  have blank : Blanks [] := fun _ member => (nomatch member)
  cases encoded with
  | nil => exact .noItem blank
  | cons head tail =>
    rw [intercalateCons]
    rcases head with head | head
    · exact .wordItem blank (fun no => (nomatch no)) head (spacedEncodes tail true)
    · exact .closedItem blank head (spacedEncodes tail false)

theorem charsEncode {depth : Nat} {v : SExpr} {text : List Char} (written : chars depth v = .ok text)
    (short : ∀ s, .str s ∈ v.atoms → s.length < 10 ^ Numeral.maxDigits) :
    Encodes (.word v) text ∨ Encodes (.closed v) text := by
  induction depth generalizing v text with
  | zero => cases written
  | succ depth ih =>
    cases v with
    | null =>
      cases written
      exact Or.inl (.word (by simp) (allFree rfl) (.literal .null))
    | bool b =>
      cases written
      cases b with
      | true => exact Or.inl (.word (by simp) (allFree rfl) (.literal .truth))
      | false => exact Or.inl (.word (by simp) (allFree rfl) (.literal .falsity))
    | int n =>
      simp only [chars] at written
      split at written
      · rename_i digits found
        cases written
        obtain ⟨w, valid, rfl, whole, value⟩ := Numeral.ofIntWritten found
        exact Or.inl (numeralEncodes valid (by simp [whole, value]))
      · cases written
    | float x =>
      simp only [chars] at written
      split at written
      · rename_i finite
        cases written
        obtain ⟨w, valid, same, notWhole, value⟩ := Binary64.charsWritten finite
        rw [← same]
        exact Or.inl (numeralEncodes valid (by simp [notWhole, value]))
      · cases written
    | str s =>
      simp only [chars] at written
      split at written
      · cases written
      · cases written
        exact Or.inr (stringEncodes (short s (by simp [SExpr.atoms])))
    | sym name =>
      simp only [chars] at written
      split at written
      · cases written
      · rename_i fine
        cases written
        exact Or.inl (symbolEncodes fine)
    | list items =>
      simp only [chars] at written
      obtain ⟨parts, each, same⟩ := exceptBindOk.mp written
      cases same
      have members : List.Forall₂ (fun v part => v ∈ items ∧ chars depth v = .ok part) items parts :=
        (List.forall₂_and_left _ _).mpr ⟨fun _ member => member, mapMOk.mp each⟩
      refine Or.inr (.list (itemsEncode (members.imp fun v part both => ?_)))
      exact ih both.2 fun s inside => short s (SExpr.atomsOfMember both.1 inside)
    | «foreign» value => cases written

theorem charsDocument {depth : Nat} {v : SExpr} {text : List Char} (written : chars depth v = .ok text)
    (short : ∀ s, .str s ∈ v.atoms → s.length < 10 ^ Numeral.maxDigits) : Document v text := by
  have nothing : Blanks [] := fun _ member => (nomatch member)
  have document := Document.value nothing nothing (charsEncode written short)
  rwa [List.nil_append, List.append_nil] at document

theorem readDocumentOfChars {depth : Nat} {v : SExpr} {text : List Char}
    (written : chars depth v = .ok text)
    (short : ∀ s, .str s ∈ v.atoms → s.length < 10 ^ Numeral.maxDigits)
    {more : Nat} (deeper : depth ≤ more) : readDocument more text = .ok v := by
  have enough := (charsDescends.okIff.mp ⟨text, written⟩).1
  exact readDocumentIff.mpr ⟨charsDocument written short, Nat.le_trans enough deeper⟩

theorem readInvertsWrite {v : SExpr}
    (short : ∀ s, .str s ∈ v.atoms → s.length < 10 ^ Numeral.maxDigits) :
    (∀ depth text, write depth v = .ok text → ∀ more, depth ≤ more → read more text = .ok v) ∧
      ∀ depth text, chars depth v = .ok text → ∀ more, depth ≤ more → readDocument more text = .ok v := by
  refine ⟨fun depth text written more deeper => ?_, fun depth text written more deeper =>
    readDocumentOfChars written short deeper⟩
  unfold write at written
  cases encoded : chars depth v with
  | error e => rw [encoded] at written; cases written
  | ok letters =>
    rw [encoded] at written
    cases written
    simp [read, readDocumentOfChars encoded short deeper]

def sample : SExpr :=
  .list [.sym "define", .list [.sym "f", .list []], .str "a (b): \"\n7 true", .str "", .int (-17),
    .float (.ofDecimal true 15 (-1)), .bool true, .int 1, .null, .sym "1+"]

def sampleText : String :=
  "(define (f ()) \x00STR:15:a (b): \"\n7 true \x00STR:0: -17 -1.5 true 1 null 1+)"

theorem readInvertsWriteSample : write 3 sample = .ok sampleText ∧ read 4 sampleText = .ok sample := by
  have written : write 3 sample = .ok sampleText := by decide +kernel
  refine ⟨written, (readInvertsWrite ?_).1 3 sampleText written 4 (by decide)⟩
  intro s member
  have few : s.length ≤ Numeral.maxDigits := by
    simp only [sample, SExpr.atoms, SExpr.atomsAll, List.mem_append, List.mem_cons, reduceCtorEq,
      SExpr.str.injEq, List.not_mem_nil, or_false, false_or] at member
    rcases member with rfl | rfl <;> decide
  exact Nat.lt_of_le_of_lt few (Nat.lt_pow_self (by decide))

end Scriptlet.Wire
