import Scriptlet.SExpr

/-! Values as plain data, for hosts that have no symbols, and its text in ASCII alone. A symbol becomes
a string, and a string becomes a string with a mark in front. -/
namespace Scriptlet

inductive Json where
  | null
  | bool (b : Bool)
  | int (n : Int)
  | float (x : Binary64)
  | str (s : String)
  | arr (items : List Json)
  | foreign (value : Foreign)
  deriving Repr, Inhabited

namespace Json
open Transport

def encode : Nat → SExpr → Except EncodeError Json
  | 0, _ => .error .tooDeep
  | _ + 1, .null => .ok .null
  | _ + 1, .bool b => .ok (.bool b)
  | _ + 1, .int n => .ok (.int n)
  | _ + 1, .float x => if x.isFinite then .ok (.float x) else .error (.nonFinite x)
  | _ + 1, .str s =>
    if s.toList.contains sentinel then .error .sentinelInString
    else .ok (.str (String.ofList (stringMark ++ s.toList)))
  | _ + 1, .sym name =>
    if name.toList.head? = some sentinel then .error (.sentinelSymbol name) else .ok (.str name)
  | depth + 1, .list items => .arr <$> items.mapM (encode depth)
  | _ + 1, .foreign value => .error (.unsupported value.type)

def decode : Nat → Json → Except DecodeFault SExpr
  | 0, _ => .error .tooDeep
  | _ + 1, .null => .ok .null
  | _ + 1, .bool b => .ok (.bool b)
  | _ + 1, .int n => .ok (.int n)
  | _ + 1, .float x => .ok (.float x)
  | _ + 1, .str s =>
    if stringMark.isPrefixOf s.toList then .ok (.str (String.ofList (s.toList.drop stringMark.length)))
    else if s.toList.head? = some sentinel then .error (.unknownTagIn s)
    else .ok (.sym s)
  | depth + 1, .arr items => .list <$> items.mapM (decode depth)
  | _ + 1, .foreign value => .error (.unsupported value.type)

def toSExpr (depth : Nat) (j : Json) : Except DecodeError SExpr :=
  match decode depth j with
  | .ok v => .ok v
  | .error fault => .error ⟨fault, none⟩

def unitEscape (n : Nat) : List Char := '\\' :: 'u' :: Text.hex 4 n

def stringChar (c : Char) : List Char :=
  if c = '"' ∨ c = '\\' then ['\\', c]
  else if c = '\n' then ['\\', 'n']
  else if c = '\r' then ['\\', 'r']
  else if c = '\t' then ['\\', 't']
  else if c = '\x08' then ['\\', 'b']
  else if c = '\x0c' then ['\\', 'f']
  else if 0x20 ≤ c.toNat ∧ c.toNat ≤ 0x7e then [c]
  else if c.toNat < 0x10000 then unitEscape c.toNat
  else
    let above := c.toNat - 0x10000
    unitEscape (0xd800 + above / 0x400) ++ unitEscape (0xdc00 + above % 0x400)

mutual

def chars : Json → Except SExpr.TextError (List Char)
  | .null => .ok ['n', 'u', 'l', 'l']
  | .bool b => .ok (if b then ['t', 'r', 'u', 'e'] else ['f', 'a', 'l', 's', 'e'])
  | .int n => SExpr.intChars n
  | .float x => .ok x.chars
  | .str s => .ok ('"' :: s.toList.flatMap stringChar ++ ['"'])
  | .arr items => do
    let parts ← charsAll items
    .ok ('[' :: [',', ' '].intercalate parts ++ [']'])
  | .foreign value => .error (.foreign value.text)

def charsAll : List Json → Except SExpr.TextError (List (List Char))
  | [] => .ok []
  | j :: rest => do
    let head ← chars j
    let tail ← charsAll rest
    .ok (head :: tail)

end

def toText (j : Json) : Except SExpr.TextError String := String.ofList <$> j.chars

end Json

end Scriptlet
