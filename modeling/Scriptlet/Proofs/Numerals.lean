import Mathlib.Tactic.Ring
import Scriptlet.Proofs.NumeralGrammar
import Scriptlet.Proofs.Rounding
import Scriptlet.SExpr

/-! Numerals written in plain digits, read back. A whole number reads back as itself, and the text of a
finite number has a point or an exponent and reads back as that number. -/
namespace Scriptlet

namespace Numeral

def plain (text : List Char) : List Nat := text.map fun c => c.toNat - '0'.toNat

def Plain (text : List Char) : Prop := ∀ c ∈ text, c.isDigit = true

theorem plainToDigits (n : Nat) : Plain (Nat.toDigits 10 n) := by
  intro c member
  exact Nat.isDigit_of_mem_toDigits (by decide) (by decide) member

theorem plainAppend {a b : List Char} (left : Plain a) (right : Plain b) : Plain (a ++ b) := by
  intro c member
  rcases List.mem_append.mp member with front | back
  · exact left c front
  · exact right c back

theorem plainZeros (k : Nat) : Plain (List.replicate k '0') := by
  intro c member
  rw [List.eq_of_mem_replicate member]
  decide

theorem valuePlain (text : List Char) : value (plain text) = Nat.ofDigitChars 10 text 0 := by
  simp [value, plain, Nat.ofDigitChars, List.foldl_map]

theorem valueToDigits (n : Nat) : value (plain (Nat.toDigits 10 n)) = n := by
  rw [valuePlain, Nat.ofDigitChars_ten_toDigits]

theorem valueLeadingZeros (k : Nat) (text : List Char) :
    value (plain (List.replicate k '0' ++ text)) = value (plain text) := by
  rw [valuePlain, valuePlain, Nat.ofDigitChars_append, Nat.ofDigitChars_replicate_zero, Nat.mul_zero]

theorem valueTrailingZeros (text : List Char) (k : Nat) :
    value (plain (text ++ List.replicate k '0')) = value (plain text) * 10 ^ k := by
  rw [valuePlain, valuePlain, Nat.ofDigitChars_append, Nat.ofDigitChars_replicate_zero, Nat.mul_comm]

theorem plainRun {text : List Char} (digit : Plain text) : Run text (plain text) := by
  unfold Run plain
  rw [List.map_map]
  exact List.map_congr_left fun c member => Text.decimalValueOfIsDigit (digit c member)

structure Written where
  negative : Bool
  whole : List Char
  fraction : Option (List Char)
  exponent : Option (Bool × List Char)

namespace Written

def signText (w : Written) : List Char := if w.negative then ['-'] else []

def fractionText (w : Written) : List Char :=
  match w.fraction with
  | none => []
  | some digits => '.' :: digits

def exponentText (w : Written) : List Char :=
  match w.exponent with
  | none => []
  | some (negative, digits) => 'e' :: (if negative then '-' else '+') :: digits

def text (w : Written) : List Char := w.signText ++ (w.whole ++ (w.fractionText ++ w.exponentText))

def numeral (w : Written) : Numeral :=
  ⟨w.negative, plain w.whole, w.fraction.map plain, w.exponent.map fun e => (e.1, plain e.2)⟩

structure Valid (w : Written) : Prop where
  whole : Plain w.whole ∧ w.whole ≠ []
  fraction : ∀ digits ∈ w.fraction, Plain digits ∧ digits ≠ []
  exponent : ∀ e ∈ w.exponent, Plain e.2 ∧ e.2 ≠ []

theorem fractionSpelled {w : Written} (valid : w.Valid) :
    SpelledFraction w.fractionText (w.fraction.map plain) := by
  unfold fractionText
  cases found : w.fraction with
  | none => exact .absent
  | some digits =>
    obtain ⟨digit, nonempty⟩ := valid.fraction digits found
    exact .digits nonempty (plainRun digit)

theorem exponentSpelled {w : Written} (valid : w.Valid) :
    SpelledExponent w.exponentText (w.exponent.map fun e => (e.1, plain e.2)) := by
  unfold exponentText
  cases found : w.exponent with
  | none => exact .absent
  | some e =>
    obtain ⟨negative, digits⟩ := e
    obtain ⟨digit, nonempty⟩ := valid.exponent _ found
    cases negative with
    | true => exact .digits (Or.inl rfl) .minus nonempty (plainRun digit)
    | false => exact .digits (Or.inl rfl) .plus nonempty (plainRun digit)

theorem reads {w : Written} (valid : w.Valid) : read? w.text = some w.numeral := by
  obtain ⟨digit, nonempty⟩ := valid.whole
  exact readIff.mpr (.parts nonempty (plainRun digit) (fractionSpelled valid) (exponentSpelled valid))

theorem textChars {w : Written} (valid : w.Valid) {c : Char} (member : c ∈ w.text) :
    c.isDigit = true ∨ c ∈ ['-', '+', '.', 'e'] := by
  simp only [text, List.mem_append] at member
  rcases member with sign | whole | fraction | exponent
  · unfold signText at sign
    split at sign
    · simp at sign; simp [sign]
    · simp at sign
  · exact Or.inl (valid.whole.1 c whole)
  · unfold fractionText at fraction
    split at fraction
    · simp at fraction
    · rename_i digits found
      rcases List.mem_cons.mp fraction with rfl | digit
      · simp
      · exact Or.inl ((valid.fraction digits found).1 c digit)
  · unfold exponentText at exponent
    split at exponent
    · simp at exponent
    · rename_i negative digits found
      rcases List.mem_cons.mp exponent with rfl | exponent
      · simp
      · rcases List.mem_cons.mp exponent with rfl | digit
        · cases negative <;> simp
        · exact Or.inl ((valid.exponent (negative, digits) found).1 c digit)

end Written

theorem ofIntWritten {n : Int} {text : List Char} (ok : ofInt n = .ok text) :
    ∃ w : Written, w.Valid ∧ w.text = text ∧ w.numeral.isWhole = true ∧ w.numeral.toInt = .ok n := by
  unfold ofInt at ok
  dsimp only at ok
  split at ok
  · cases ok
  · rename_i short
    cases ok
    refine ⟨⟨decide (n < 0), Nat.toDigits 10 n.natAbs, none, none⟩,
      ⟨⟨plainToDigits _, Nat.toDigits_ne_nil⟩, by simp, by simp⟩, ?_, rfl, ?_⟩
    · by_cases negative : n < 0 <;>
        simp [Written.text, Written.signText, Written.fractionText, Written.exponentText, negative]
    · have size : ¬ maxDigits < (plain (Nat.toDigits 10 n.natAbs)).length := by simpa [plain] using short
      simp only [Written.numeral, toInt, integer, if_neg size, valueToDigits, decide_eq_true_eq]
      split <;> rw [Except.ok.injEq] <;> omega

theorem Run.below {text : List Char} {values : List Nat} (run : Run text values) : ∀ d ∈ values, d < 10 := by
  intro d member
  have value : some d ∈ text.map Text.decimalValue? := run ▸ List.mem_map_of_mem member
  obtain ⟨c, _, same⟩ := List.mem_map.mp value
  obtain ⟨first, found, rfl⟩ := Option.map_eq_some_iff.mp same
  have range := List.find?_some found
  simp only [Bool.and_eq_true, decide_eq_true_eq] at range
  omega

theorem valueBelow {digits : List Nat} (below : ∀ d ∈ digits, d < 10) : value digits < 10 ^ digits.length := by
  have general : ∀ start, digits.foldl (fun sum digit => 10 * sum + digit) start <
      (start + 1) * 10 ^ digits.length := by
    induction digits with
    | nil => simp
    | cons d digits ih =>
      obtain ⟨first, rest⟩ := List.forall_mem_cons.mp below
      intro start
      calc digits.foldl (fun sum digit => 10 * sum + digit) (10 * start + d)
          < (10 * start + d + 1) * 10 ^ digits.length := ih rest _
        _ ≤ (10 * (start + 1)) * 10 ^ digits.length := Nat.mul_le_mul_right _ (by omega)
        _ = (start + 1) * 10 ^ (d :: digits).length := by rw [List.length_cons]; ring
  have whole := general 0
  rwa [Nat.zero_add, Nat.one_mul] at whole

theorem writable {n : Int} (small : n.natAbs < 10 ^ maxDigits) : ∃ text, ofInt n = .ok text := by
  have short := (Nat.length_toDigits_le_iff (by decide) (by decide)).mpr small
  exact ⟨_, if_neg (Nat.not_lt.mpr short)⟩

theorem toIntSmall {text : List Char} {m : Numeral} {n : Int} (read : read? text = some m)
    (ok : m.toInt = .ok n) : n.natAbs < 10 ^ maxDigits := by
  obtain ⟨negative, values, fraction, exponent⟩ := m
  cases readIff.mp read with
  | parts _ run _ _ =>
    unfold toInt integer at ok
    split at ok
    · cases ok
    · rename_i short
      cases ok
      have size : value values < 10 ^ maxDigits :=
        Nat.lt_of_lt_of_le (valueBelow run.below) (Nat.pow_le_pow_right (by decide) (Nat.le_of_not_lt short))
      dsimp only
      split <;> omega

end Numeral

namespace Decimal
open Numeral

/- A text with a point or an exponent that stands for a decimal. The sign may be added later. -/
structure Spells (w : Written) (d : Decimal) : Prop where
  valid : w.Valid
  unsigned : w.negative = false
  notWhole : w.numeral.isWhole = false
  reads : ∀ negative, Numeral.toBinary { w.numeral with negative := negative } = d.toBinary negative

theorem pointSpells {whole fraction : List Char} {d : Decimal}
    (front : Plain whole ∧ whole ≠ []) (back : Plain fraction ∧ fraction ≠ [])
    (same : ∀ negative, Binary64.ofDecimal negative (value (plain (whole ++ fraction)))
      (-fraction.length) = d.toBinary negative) :
    Spells ⟨false, whole, some fraction, none⟩ d := by
  refine ⟨⟨front, ?_, by simp⟩, rfl, rfl, ?_⟩
  · rintro digits ⟨⟩
    exact back
  · intro negative
    rw [← same negative]
    simp [Numeral.toBinary, Written.numeral, plain]

theorem leftSpelled (n : Nat) {e : Int} (left : (Nat.toDigits 10 n).length + e ≤ 0) :
    Spells ⟨false, ['0'], some (List.replicate (-((Nat.toDigits 10 n).length + e)).toNat '0' ++
      Nat.toDigits 10 n), none⟩ ⟨n, e⟩ := by
  have zero : ∀ text : List Char, ['0'] ++ text = List.replicate 1 '0' ++ text := fun _ => rfl
  refine pointSpells ⟨plainZeros 1, by simp⟩ ⟨plainAppend (plainZeros _) (plainToDigits n), by simp⟩ ?_
  intro negative
  have places : -(((List.replicate (-((Nat.toDigits 10 n).length + e)).toNat '0' ++
      Nat.toDigits 10 n).length : Nat) : Int) = e := by
    simp only [List.length_append, List.length_replicate]; omega
  rw [places, zero, valueLeadingZeros, valueLeadingZeros, valueToDigits]
  rfl

theorem rightSpelled (n : Nat) {e : Int} (right : 0 ≤ e) :
    Spells ⟨false, Nat.toDigits 10 n ++ List.replicate e.toNat '0', some ['0'], none⟩ ⟨n, e⟩ := by
  refine pointSpells ⟨plainAppend (plainToDigits n) (plainZeros _), by simp⟩ ⟨plainZeros 1, by simp⟩ ?_
  intro negative
  have zeros : Nat.toDigits 10 n ++ List.replicate e.toNat '0' ++ ['0'] =
      Nat.toDigits 10 n ++ List.replicate (e.toNat + 1) '0' := by
    rw [List.replicate_succ', List.append_assoc]
  have places : -((['0'].length : Nat) : Int) = e - (e.toNat + 1 : Nat) := by
    simp only [List.length_cons, List.length_nil]; omega
  rw [zeros, valueTrailingZeros, valueToDigits, places, Binary64.ofDecimalScale]
  rfl

theorem toDigitsSplit (n k : Nat) :
    value (plain ((Nat.toDigits 10 n).take k ++ (Nat.toDigits 10 n).drop k)) = n := by
  rw [List.take_append_drop, valueToDigits]

theorem plainTake {text : List Char} (digit : Plain text) (k : Nat) : Plain (text.take k) :=
  fun c member => digit c (List.mem_of_mem_take member)

theorem plainDrop {text : List Char} (digit : Plain text) (k : Nat) : Plain (text.drop k) :=
  fun c member => digit c (List.mem_of_mem_drop member)

theorem middleSpelled (n : Nat) {e : Int} (left : 0 < (Nat.toDigits 10 n).length + e) (right : e < 0) :
    Spells ⟨false, (Nat.toDigits 10 n).take ((Nat.toDigits 10 n).length + e).toNat,
      some ((Nat.toDigits 10 n).drop ((Nat.toDigits 10 n).length + e).toNat), none⟩ ⟨n, e⟩ := by
  have digit := plainToDigits n
  have places : -(((Nat.toDigits 10 n).drop ((Nat.toDigits 10 n).length + e).toNat).length : Int) = e := by
    rw [List.length_drop]; omega
  refine pointSpells ⟨plainTake digit _, ?_⟩ ⟨plainDrop digit _, ?_⟩ ?_
  · simp only [ne_eq, List.take_eq_nil_iff, Nat.toDigits_ne_nil, or_false]; omega
  · intro empty
    rw [empty] at places
    simp at places
    omega
  · intro negative
    rw [places, toDigitsSplit]
    rfl

theorem positionalSpelled (d : Decimal) :
    ∃ w, Spells w d ∧ w.text =
      positional (Nat.toDigits 10 d.digits) ((Nat.toDigits 10 d.digits).length + d.exponent) := by
  obtain ⟨n, e⟩ := d
  by_cases left : (Nat.toDigits 10 n).length + e ≤ 0
  · refine ⟨_, leftSpelled n left, ?_⟩
    simp [positional, left, Written.text, Written.signText, Written.fractionText, Written.exponentText]
  · by_cases right : 0 ≤ e
    · refine ⟨_, rightSpelled n right, ?_⟩
      have zeros : ((Nat.toDigits 10 n).length + e).toNat - (Nat.toDigits 10 n).length = e.toNat := by
        omega
      simp [positional, left, right, zeros, Written.text, Written.signText, Written.fractionText,
        Written.exponentText]
    · refine ⟨_, middleSpelled n (Int.not_le.mp left) (Int.not_le.mp right), ?_⟩
      simp [positional, left, right, Written.text, Written.signText, Written.fractionText,
        Written.exponentText]

theorem exponentSpells {whole fraction : List Char} {k : Int} {d : Decimal} (zeros : Nat)
    (front : Plain whole ∧ whole ≠ []) (back : Plain fraction)
    (same : ∀ negative, Binary64.ofDecimal negative (value (plain (whole ++ fraction)))
      (k - fraction.length) = d.toBinary negative) :
    Spells ⟨false, whole, if fraction.isEmpty then none else some fraction,
      some (decide (k < 0), List.replicate zeros '0' ++ Nat.toDigits 10 k.natAbs)⟩ d := by
  refine ⟨⟨front, ?_, ?_⟩, rfl, by simp [Written.numeral, isWhole], ?_⟩
  · intro digits member
    dsimp only at member
    split at member
    · cases member
    · rename_i some
      cases member
      exact ⟨back, by simpa using some⟩
  · rintro exponent ⟨⟩
    exact ⟨plainAppend (plainZeros _) (plainToDigits _), by simp⟩
  · intro negative
    have fractionDigits : ((if fraction.isEmpty then none else some fraction).map plain).getD [] =
        plain fraction := by
      cases fraction <;> rfl
    have power : (if k < 0 then -(k.natAbs : Int) else k.natAbs) = k := by split <;> omega
    rw [← same negative]
    simp only [Numeral.toBinary, Written.numeral, Option.map_some, fractionDigits, valueLeadingZeros,
      valueToDigits, decide_eq_true_eq, power]
    simp [plain]

theorem scientificSpelled (d : Decimal) :
    ∃ w, Spells w d ∧ w.text =
      scientific (Nat.toDigits 10 d.digits) ((Nat.toDigits 10 d.digits).length + d.exponent) := by
  obtain ⟨n, e⟩ := d
  have digit := plainToDigits n
  have size := Nat.length_toDigits_pos (b := 10) (n := n)
  refine ⟨_, exponentSpells (k := (Nat.toDigits 10 n).length + e - 1)
    (2 - (Nat.toDigits 10 ((Nat.toDigits 10 n).length + e - 1).natAbs).length)
    ⟨plainTake digit 1, ?_⟩ (plainDrop digit 1) ?_, ?_⟩
  · simp [Nat.toDigits_ne_nil]
  · intro negative
    have places : ((Nat.toDigits 10 n).length + e - 1 : Int) - ((Nat.toDigits 10 n).drop 1).length = e := by
      rw [List.length_drop]; omega
    rw [places, toDigitsSplit]
    rfl
  · simp only [scientific, Written.text, Written.signText, Written.fractionText, Written.exponentText,
      decide_eq_true_eq]
    cases (Nat.toDigits 10 n).drop 1 <;> simp

theorem charsSpelled (d : Decimal) : ∃ w, Spells w d ∧ w.text = d.chars := by
  unfold chars
  dsimp only
  split
  · exact positionalSpelled d
  · exact scientificSpelled d

end Decimal

namespace Binary64
open Numeral

theorem charsWritten {x : Binary64} (finite : x.isFinite = true) :
    ∃ w : Written, w.Valid ∧ w.text = x.chars ∧ w.numeral.isWhole = false ∧ w.numeral.toBinary = x := by
  cases x with
  | infinite => cases finite
  | nan => cases finite
  | finite negative code =>
    by_cases zero : code.val = 0
    · have same : code = ⟨0, by decide⟩ := Fin.ext zero
      refine ⟨⟨negative, ['0'], some ['0'], none⟩, ⟨⟨plainZeros 1, by simp⟩, ?_, by simp⟩, ?_, rfl, ?_⟩
      · rintro digits ⟨⟩
        exact ⟨plainZeros 1, by simp⟩
      · simp [chars, zero, Written.text, Written.signText, Written.fractionText, Written.exponentText]
      · have nothing : value (plain ['0'] ++ plain ['0']) = 0 := by decide
        simp [Numeral.toBinary, Written.numeral, nothing, ofDecimal, Binary64.zero, same]
    · obtain ⟨w, spelled, text⟩ := Decimal.charsSpelled (Decimal.shortest code)
      have read := ofDecimalSign negative (Decimal.shortestReads code (Nat.pos_of_ne_zero zero))
      refine ⟨{ w with negative := negative }, ⟨spelled.valid.1, spelled.valid.2, spelled.valid.3⟩, ?_,
        spelled.notWhole, (spelled.reads negative).trans read⟩
      simp only [chars, if_neg zero, ← text]
      simp [Written.text, Written.signText, spelled.unsigned, Written.fractionText, Written.exponentText]

end Binary64

end Scriptlet
