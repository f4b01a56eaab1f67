import Scriptlet.Number.Binary64
import Scriptlet.Text

/-! Decimal numerals: a sign, whole digits, a fraction and an exponent. Digits of every script count.
A numeral without fraction and exponent is a whole number of at most `Numeral.maxDigits` digits. -/
namespace Scriptlet

structure Numeral where
  negative : Bool
  whole : List Nat
  fraction : Option (List Nat)
  exponent : Option (Bool × List Nat)
  deriving DecidableEq, Repr

namespace Numeral

def maxDigits : Nat := 4300

inductive Error where
  | tooLong (digits : Nat)
  | notDecimal (text : String)
  | unwritable
  deriving DecidableEq, Repr

def Error.message : Error → String
  | .tooLong digits =>
    "Exceeds the limit (" ++ toString maxDigits ++ " digits) for integer string conversion: value has " ++
      toString digits ++ " digits; use sys.set_int_max_str_digits() to increase the limit"
  | .notDecimal text =>
    "invalid literal for int() with base 10: " ++ String.ofList ((Text.quotedChars text.toList).take 200)
  | .unwritable =>
    "Exceeds the limit (" ++ toString maxDigits ++ " digits) for integer string conversion; " ++
      "use sys.set_int_max_str_digits() to increase the limit"

def digits (text : List Char) : List Nat × List Char :=
  ((text.takeWhile Text.isDecimal).filterMap Text.decimalValue?, text.dropWhile Text.isDecimal)

def value (digits : List Nat) : Nat := digits.foldl (fun sum digit => 10 * sum + digit) 0

def fractionOf : List Char → Option (List Nat) × List Char
  | '.' :: rest => match digits rest with
    | ([], _) => (none, '.' :: rest)
    | found => (some found.1, found.2)
  | text => (none, text)

def exponentOf (text : List Char) : Option (Bool × List Nat) × List Char :=
  match text with
  | c :: rest =>
    if c = 'e' ∨ c = 'E' then
      let (negative, rest) := match rest with
        | '-' :: more => (true, more)
        | '+' :: more => (false, more)
        | _ => (false, rest)
      match digits rest with
      | ([], _) => (none, text)
      | found => (some (negative, found.1), found.2)
    else (none, text)
  | [] => (none, [])

def read? (text : List Char) : Option Numeral :=
  let (negative, body) := match text with
    | '-' :: rest => (true, rest)
    | _ => (false, text)
  let (whole, rest) := digits body
  let (fraction, rest) := fractionOf rest
  let (exponent, rest) := exponentOf rest
  if whole.isEmpty || !rest.isEmpty then none else some ⟨negative, whole, fraction, exponent⟩

def isWhole (n : Numeral) : Bool := n.fraction.isNone && n.exponent.isNone

def integer (negative : Bool) (digits : List Nat) : Except Error Int :=
  if maxDigits < digits.length then .error (.tooLong digits.length)
  else .ok (if negative then -(value digits : Int) else value digits)

def toInt (n : Numeral) : Except Error Int := integer n.negative n.whole

def toBinary (n : Numeral) : Binary64 :=
  let fraction := n.fraction.getD []
  let power : Int := match n.exponent with
    | some (negative, digits) => if negative then -(value digits : Int) else value digits
    | none => 0
  .ofDecimal n.negative (value (n.whole ++ fraction)) (power - fraction.length)

def natural (text : List Char) : Except Error Nat :=
  let found := digits text
  if maxDigits < found.1.length then .error (.tooLong found.1.length)
  else if found.2.isEmpty && !found.1.isEmpty then .ok (value found.1)
  else .error (.notDecimal (String.ofList text))

def ofInt (n : Int) : Except Error (List Char) :=
  let digits := Nat.toDigits 10 n.natAbs
  if maxDigits < digits.length then .error .unwritable
  else .ok (if n < 0 then '-' :: digits else digits)

end Numeral

end Scriptlet
