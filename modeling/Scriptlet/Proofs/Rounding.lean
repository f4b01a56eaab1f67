import Mathlib.Tactic.LinearCombination
import Mathlib.Tactic.Ring
import Scriptlet.Number.Binary64

/-! Rounding to the nearest magnitude. It depends on the value alone and not on the fraction that the
value is given as, and a magnitude is its own rounding. So the shortest decimal of a number reads back
as that number. -/
namespace Scriptlet

namespace Binary64

theorem roundDivScale (num den c : Nat) (positive : 0 < c) :
    roundDiv (num * c) (den * c) = roundDiv num den := by
  have greater : den * c < 2 * (num % den * c) ↔ den < 2 * (num % den) := by
    rw [← Nat.mul_assoc]
    exact Nat.mul_lt_mul_right positive
  have equal : 2 * (num % den * c) = den * c ↔ 2 * (num % den) = den := by
    rw [← Nat.mul_assoc]
    exact Nat.mul_left_inj (Nat.ne_of_gt positive)
  simp only [roundDiv, Nat.mul_div_mul_right _ _ positive, Nat.mul_mod_mul_right, greater, equal]

theorem nearestCodeScale (num den c : Nat) (positive : 0 < c) :
    nearestCode (num * c) (den * c) = nearestCode num den := by
  have shuffle : ∀ p : Nat, den * c * p = den * p * c := by intro p; ring
  simp only [nearestCode, Nat.mul_div_mul_right _ _ positive, shuffle, roundDivScale _ _ _ positive]

theorem nearestCodeRatio {num den num' den' : Nat} (positive : 0 < den) (positive' : 0 < den')
    (same : num * den' = num' * den) : nearestCode num den = nearestCode num' den' := by
  rw [← nearestCodeScale num den den' positive', ← nearestCodeScale num' den' den positive, same,
    Nat.mul_comm den den']

theorem runPositive : 0 < run := Nat.pow_pos (by decide)

theorem runEq : run = 2 ^ 52 := rfl

theorem log2Mantissa {fraction : Nat} (small : fraction < run) (shift : Nat) :
    ((run + fraction) * 2 ^ shift).log2 = 52 + shift := by
  have low : 2 ^ (52 + shift) ≤ (run + fraction) * 2 ^ shift := by
    rw [Nat.pow_add, ← runEq]
    exact Nat.mul_le_mul_right _ (Nat.le_add_right _ _)
  have high : (run + fraction) * 2 ^ shift < 2 ^ (52 + shift + 1) := by
    have twice : 2 ^ (52 + shift + 1) = (run + run) * 2 ^ shift := by rw [runEq]; ring
    rw [twice]
    exact Nat.mul_lt_mul_of_pos_right (Nat.add_lt_add_left small _) (Nat.pow_pos (by decide))
  have nonzero : (run + fraction) * 2 ^ shift ≠ 0 := by
    have := Nat.pow_pos (n := 52 + shift) (show 0 < 2 by decide)
    omega
  exact (Nat.log2_eq_iff nonzero).mpr ⟨low, high⟩

theorem roundDivExact (n c : Nat) (positive : 0 < c) : roundDiv (n * c) c = n := by
  simp [roundDiv, Nat.mul_div_cancel _ positive]
  omega

theorem unitsLow {fraction : Nat} (small : fraction < run) : units fraction = fraction := by
  simp [units, Nat.div_eq_of_lt small, Nat.mod_eq_of_lt small]

theorem unitsShifted {fraction : Nat} (small : fraction < run) (shift : Nat) :
    units (run * (shift + 1) + fraction) = (run + fraction) * 2 ^ shift := by
  have index : (run * (shift + 1) + fraction) / run = shift + 1 := by
    rw [Nat.mul_add_div runPositive, Nat.div_eq_of_lt small, Nat.add_zero]
  have rest : (run * (shift + 1) + fraction) % run = fraction := by
    rw [Nat.mul_add_mod, Nat.mod_eq_of_lt small]
  simp [units, index, rest]

/- The spacing of a run is the power of two that `nearestCode` divides by. -/
theorem nearestCodeUnits (code : Nat) : nearestCode (units code) 1 = code := by
  have whole := Nat.div_add_mod code run
  have small := Nat.mod_lt code runPositive
  cases index : code / run with
  | zero =>
    have low : code < run := by rw [index] at whole; omega
    have noShift : code.log2 - 52 = 0 := by
      by_cases zero : code = 0
      · simp [zero]
      · have := (Nat.log2_lt zero).mpr (runEq ▸ low)
        omega
    have self := roundDivExact code 1 (by decide)
    rw [Nat.mul_one] at self
    simp [nearestCode, unitsLow low, noShift, self]
  | succ shift =>
    rw [index] at whole
    rw [← whole, unitsShifted small]
    simp only [nearestCode, Nat.div_one, Nat.pow_eq, log2Mantissa small, Nat.add_sub_cancel_left,
      Nat.one_mul, roundDivExact _ _ (Nat.pow_pos (n := shift) (show 0 < 2 by decide))]
    ring

theorem ofUnitsRatio (negative : Bool) {num den num' den' : Nat} (positive : 0 < den)
    (positive' : 0 < den') (same : num * den' = num' * den) :
    ofUnits negative num den = ofUnits negative num' den' := by
  simp only [ofUnits, nearestCodeRatio positive positive' same]

theorem ofUnitsExact (negative : Bool) (code : Fin codes) {num den : Nat} (positive : 0 < den)
    (same : num = units code * den) : ofUnits negative num den = .finite negative code := by
  rw [ofUnitsRatio negative positive (show 0 < 1 by decide) (by rw [Nat.mul_one, same])]
  simp [ofUnits, nearestCodeUnits]

theorem digitCountScale {n : Nat} (positive : 0 < n) (k : Nat) :
    (Nat.toDigits 10 (n * 10 ^ k)).length = (Nat.toDigits 10 n).length + k := by
  induction k with
  | zero => simp
  | succ k ih =>
    have step := Nat.toDigits_append_toDigits (b := 10) (d := 0) (by decide)
      (Nat.mul_pos positive (Nat.pow_pos (n := k) (show 0 < 10 by decide))) (by decide)
    have shuffle : n * 10 ^ (k + 1) = 10 * (n * 10 ^ k) + 0 := by ring
    rw [shuffle, ← step, List.length_append, ih, Nat.toDigits_zero]
    simp [Nat.add_assoc]

theorem ofDecimalScale (negative : Bool) (n k : Nat) (e : Int) :
    ofDecimal negative (n * 10 ^ k) (e - k) = ofDecimal negative n e := by
  by_cases zero : n = 0
  · simp [ofDecimal, zero]
  · have positive : 0 < n := Nat.pos_of_ne_zero zero
    have nonzero : n * 10 ^ k ≠ 0 := Nat.mul_ne_zero zero (Nat.ne_of_gt (Nat.pow_pos (by decide)))
    have size : e - k + ((Nat.toDigits 10 n).length + k : Nat) = e + (Nat.toDigits 10 n).length := by
      push_cast; ring
    simp only [ofDecimal, digitCountScale positive, size, zero, nonzero, false_or]
    split
    · rfl
    · split
      · rfl
      · refine ofUnitsRatio negative (Nat.pow_pos (by decide)) (Nat.pow_pos (by decide)) ?_
        have powers : k + (e - k).toNat + (-e).toNat = e.toNat + (-(e - k)).toNat := by omega
        have product := congrArg (n * one * 10 ^ ·) powers
        simp only [Nat.pow_add] at product
        simp only [Nat.pow_eq]
        linear_combination product

theorem ofDecimalSign {n : Nat} {e : Int} {code : Fin codes} (negative : Bool)
    (positive : ofDecimal false n e = .finite false code) :
    ofDecimal negative n e = .finite negative code := by
  unfold ofDecimal at positive ⊢
  dsimp only at positive ⊢
  split at positive
  · rename_i tiny
    rw [if_pos tiny]
    simp only [zero, finite.injEq, true_and] at positive ⊢
    exact positive
  · rename_i fits
    rw [if_neg fits]
    split at positive
    · cases positive
    · rename_i small
      rw [if_neg small]
      unfold ofUnits at positive ⊢
      dsimp only at positive ⊢
      split at positive
      · rename_i below
        rw [dif_pos below]
        simp only [finite.injEq, true_and] at positive ⊢
        exact positive
      · cases positive

theorem unitsPositive {code : Nat} (positive : 0 < code) : 0 < units code := by
  unfold units
  dsimp only
  split
  · rename_i first
    have whole := Nat.div_add_mod code run
    rw [first] at whole
    omega
  · have := runPositive
    exact Nat.mul_pos (by omega) (Nat.pow_pos (by decide))

theorem unitsBelow (code : Nat) : units code < 2 ^ (53 + code / run) := by
  have small := Nat.mod_lt code runPositive
  have twice : run + code % run < 2 ^ 53 := by rw [runEq] at small ⊢; omega
  unfold units
  dsimp only
  split
  · calc code % run < 2 ^ 53 := by omega
      _ ≤ 2 ^ (53 + code / run) := Nat.pow_le_pow_right (by decide) (Nat.le_add_right _ _)
  · calc (run + code % run) * 2 ^ (code / run - 1)
        < 2 ^ 53 * 2 ^ (code / run - 1) := Nat.mul_lt_mul_of_pos_right twice (Nat.pow_pos (by decide))
      _ = 2 ^ (53 + (code / run - 1)) := (Nat.pow_add ..).symm
      _ ≤ 2 ^ (53 + code / run) :=
        Nat.pow_le_pow_right (by decide) (Nat.add_le_add_left (Nat.sub_le _ _) _)

theorem ofDecimalInside (negative : Bool) {n : Nat} {e : Int} (nonzero : n ≠ 0)
    (low : -decimalRange ≤ e + (Nat.toDigits 10 n).length)
    (high : e + (Nat.toDigits 10 n).length ≤ decimalRange) :
    ofDecimal negative n e = ofUnits negative (n * 10 ^ e.toNat * one) (10 ^ (-e).toNat) := by
  have notTiny : ¬ (n = 0 ∨ e + ((Nat.toDigits 10 n).length : Int) < -decimalRange) := by omega
  simp only [ofDecimal, if_neg notTiny, if_neg (Int.not_lt.mpr high), Nat.pow_eq]

end Binary64

namespace Decimal
open Binary64

theorem digitCountAtMost {u e m j p : Nat} (below : u < 2 ^ e) (bits : e ≤ 8 * j + m)
    (digits : 3 * j + m ≤ p) (positive : 0 < p) : (Nat.toDigits 10 (u * 5 ^ m)).length ≤ p := by
  refine (Nat.length_toDigits_le_iff (by decide) positive).mpr ?_
  calc u * 5 ^ m < 2 ^ e * 5 ^ m := Nat.mul_lt_mul_of_pos_right below (Nat.pow_pos (by decide))
    _ ≤ 2 ^ (8 * j + m) * 5 ^ m := Nat.mul_le_mul_right _ (Nat.pow_le_pow_right (by decide) bits)
    _ = (2 ^ 8) ^ j * (2 ^ m * 5 ^ m) := by rw [Nat.pow_add, Nat.pow_mul, Nat.mul_assoc]
    _ ≤ (10 ^ 3) ^ j * (2 ^ m * 5 ^ m) := Nat.mul_le_mul_right _ (Nat.pow_le_pow_left (by decide) _)
    _ = 10 ^ (3 * j + m) := by rw [← Nat.mul_pow, ← Nat.pow_mul, ← Nat.pow_add]
    _ ≤ 10 ^ p := Nat.pow_le_pow_right (by decide) digits

theorem digitCountAbove {u p q : Nat} (some : 0 < u) (bits : p ≤ 2 * q) (positive : 0 < p) :
    p < (Nat.toDigits 10 (u * 5 ^ (p + q))).length := by
  refine Nat.lt_of_not_le fun short => ?_
  have below := (Nat.length_toDigits_le_iff (by decide) positive).mp short
  refine absurd below (Nat.not_lt.mpr ?_)
  calc 10 ^ p = 5 ^ p * 2 ^ p := by rw [← Nat.mul_pow]
    _ ≤ 5 ^ p * 2 ^ (2 * q) := Nat.mul_le_mul_left _ (Nat.pow_le_pow_right (by decide) bits)
    _ = 5 ^ p * (2 ^ 2) ^ q := by rw [Nat.pow_mul]
    _ ≤ 5 ^ p * 5 ^ q := Nat.mul_le_mul_left _ (Nat.pow_le_pow_left (by decide) _)
    _ = 1 * 5 ^ (p + q) := by rw [Nat.one_mul, Nat.pow_add]
    _ ≤ u * 5 ^ (p + q) := Nat.mul_le_mul_right _ some

theorem exactDigitCount (code : Fin codes) (positive : 0 < code.val) :
    674 < (Nat.toDigits 10 (exact code).digits).length ∧
      (Nat.toDigits 10 (exact code).digits).length ≤ 1474 := by
  have index : code.val / run < 2047 := by
    rw [Nat.div_lt_iff_lt_mul runPositive]
    exact code.isLt
  constructor
  · exact digitCountAbove (q := 400) (unitsPositive positive) (by decide) (by decide)
  · exact digitCountAtMost (j := 129) (unitsBelow code) (by omega) (by decide) (by decide)

/- Neither bound of `ofDecimal` cuts the exact expansion off, and its fraction is the magnitude. -/
theorem exactReads (code : Fin codes) (positive : 0 < code.val) :
    (exact code).toBinary false = .finite false code := by
  obtain ⟨long, short⟩ := exactDigitCount code positive
  have exponent : (exact code).exponent = -1074 := rfl
  have nonzero : (exact code).digits ≠ 0 := by
    intro zero
    rw [zero] at long
    simp at long
  unfold toBinary
  rw [ofDecimalInside false nonzero (by unfold decimalRange; omega) (by unfold decimalRange; omega)]
  refine ofUnitsExact false code (Nat.pow_pos (by decide)) ?_
  have tens : ∀ m, units code * Nat.pow 5 m * 10 ^ 0 * Nat.pow 2 m = units code * 10 ^ m := by
    intro m
    simp only [Nat.pow_eq, Nat.pow_zero, Nat.mul_one, Nat.mul_assoc, ← Nat.mul_pow]
  exact tens 1074

theorem shortestReads (code : Fin codes) (positive : 0 < code.val) :
    (shortest code).toBinary false = .finite false code := by
  unfold shortest
  cases found : (List.range 17).findSome? fun n => candidate? code (n + 1) with
  | none => exact exactReads code positive
  | some d =>
    obtain ⟨size, _, candidate⟩ := List.exists_of_findSome?_eq_some found
    have reads := List.find?_some candidate
    simpa using reads

end Decimal

end Scriptlet
