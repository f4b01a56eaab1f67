/-! Binary floating point numbers of 64 bits, exactly, and the shortest decimal that reads back as a
given one. The finite magnitudes are numbered from zero upwards, so a magnitude is a code and the next
larger one has the next code. Every magnitude is a whole multiple of the least positive one, which is
the unit here. -/
namespace Scriptlet

namespace Binary64

def run : Nat := Nat.pow 2 52

def codes : Nat := 2047 * run

end Binary64

inductive Binary64 where
  | finite (negative : Bool) (code : Fin Binary64.codes)
  | infinite (negative : Bool)
  | nan
  deriving DecidableEq, Repr

namespace Binary64

def one : Nat := Nat.pow 2 1074

/-- The magnitude with the given code, in units. The magnitudes of the first two runs are one unit
apart, and from there on the spacing doubles with every run. -/
def units (code : Nat) : Nat :=
  let index := code / run
  let fraction := code % run
  if index = 0 then fraction else (run + fraction) * Nat.pow 2 (index - 1)

def roundDiv (num den : Nat) : Nat :=
  let whole := num / den
  let twice := 2 * (num % den)
  if den < twice ∨ (twice = den ∧ whole % 2 = 1) then whole + 1 else whole

/-- The code of the magnitude nearest to `num / den` units. A mantissa that rounds up to the next
power of two carries into the next run by itself. -/
def nearestCode (num den : Nat) : Nat :=
  let shift := (num / den).log2 - 52
  shift * run + roundDiv num (den * Nat.pow 2 shift)

def ofUnits (negative : Bool) (num den : Nat) : Binary64 :=
  let code := nearestCode num den
  if h : code < codes then .finite negative ⟨code, h⟩ else .infinite negative

def zero (negative : Bool) : Binary64 := .finite negative ⟨0, by decide⟩

/-- Decimals from this power of ten up are infinite, and those below its inverse are zero. -/
def decimalRange : Int := 400

def ofDecimal (negative : Bool) (digits : Nat) (exponent : Int) : Binary64 :=
  let size := exponent + (Nat.toDigits 10 digits).length
  if digits = 0 ∨ size < -decimalRange then zero negative
  else if decimalRange < size then .infinite negative
  else ofUnits negative (digits * Nat.pow 10 exponent.toNat * one) (Nat.pow 10 (-exponent).toNat)

def isFinite : Binary64 → Bool
  | .finite .. => true
  | _ => false

inductive Quantity where
  | units (n : Int)
  | infinite (negative : Bool)
  deriving DecidableEq, Repr

def Quantity.ofInt (n : Int) : Quantity := .units (n * one)

/-- Both zeros have the same value, and a nan has none. -/
def quantity? : Binary64 → Option Quantity
  | .finite negative code => some (.units (if negative then -(units code : Int) else units code))
  | .infinite negative => some (.infinite negative)
  | .nan => none

end Binary64

structure Decimal where
  digits : Nat
  exponent : Int
  deriving DecidableEq, Repr

namespace Decimal

def toBinary (negative : Bool) (d : Decimal) : Binary64 := .ofDecimal negative d.digits d.exponent

def trim (d : Decimal) : Decimal :=
  if h : d.digits ≠ 0 ∧ d.digits % 10 = 0 then trim ⟨d.digits / 10, d.exponent + 1⟩ else d
termination_by d.digits
decreasing_by show d.digits / 10 < d.digits; omega

def exact (code : Nat) : Decimal := ⟨Binary64.units code * Nat.pow 5 1074, -1074⟩

def ceiling (code : Nat) : Int :=
  (Nat.toDigits 10 (Binary64.units code * Nat.pow 10 400 / Binary64.one)).length - 400

/-- Of the two decimals with `size` digits around a magnitude, the one that reads back; if both do,
the nearer, and of two equally near the even one. -/
def candidate? (code : Fin Binary64.codes) (size : Nat) : Option Decimal :=
  let exponent := ceiling code - size
  let num := Binary64.units code * Nat.pow 10 (-exponent).toNat
  let den := Binary64.one * Nat.pow 10 exponent.toNat
  let near := [Binary64.roundDiv num den, num / den, num / den + 1].map fun digits =>
    trim ⟨digits, exponent⟩
  near.find? fun d => d.toBinary false = .finite false code

/-- Seventeen digits always suffice; the exact expansion stands by for what they would miss. -/
def shortest (code : Fin Binary64.codes) : Decimal :=
  ((List.range 17).findSome? fun n => candidate? code (n + 1)).getD (exact code)

def leastPoint : Int := -3

def greatestPoint : Int := 16

def positional (digits : List Char) (point : Int) : List Char :=
  if point ≤ 0 then '0' :: '.' :: List.replicate (-point).toNat '0' ++ digits
  else if digits.length ≤ point then
    digits ++ List.replicate (point.toNat - digits.length) '0' ++ ['.', '0']
  else digits.take point.toNat ++ '.' :: digits.drop point.toNat

def scientific (digits : List Char) (point : Int) : List Char :=
  let exponent := point - 1
  let fraction := digits.drop 1
  let size := Nat.toDigits 10 exponent.natAbs
  digits.take 1 ++ (if fraction.isEmpty then [] else '.' :: fraction) ++
    'e' :: (if exponent < 0 then '-' else '+') :: List.replicate (2 - size.length) '0' ++ size

def chars (d : Decimal) : List Char :=
  let digits := Nat.toDigits 10 d.digits
  let point := digits.length + d.exponent
  if leastPoint ≤ point ∧ point ≤ greatestPoint then positional digits point
  else scientific digits point

end Decimal

namespace Binary64

def chars : Binary64 → List Char
  | .nan => ['n', 'a', 'n']
  | .infinite negative => (if negative then ['-'] else []) ++ ['i', 'n', 'f']
  | .finite negative code =>
    (if negative then ['-'] else []) ++
      if code.val = 0 then ['0', '.', '0'] else (Decimal.shortest code).chars

def text (x : Binary64) : String := String.ofList x.chars

end Binary64

end Scriptlet
