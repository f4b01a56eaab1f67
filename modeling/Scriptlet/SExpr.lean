import Scriptlet.Number.Numeral

/-! S-expressions: atoms and lists. A symbol is a name, and differs from the string with the same
text. A foreign value is something a host may pass in that is no S-expression; it has no written
form, and only its equality with other values means anything. A value has two texts: the script text
has strings in double marks and bare symbols, and the listing spells out what each atom is. -/
namespace Scriptlet

structure Foreign where
  type : String
  text : String
  number : Option Int := none
  inSets : Bool := true
  deriving DecidableEq, Repr, Inhabited

/-- Foreign numbers are equal if their values are, and other foreign values if they are the same. -/
def Foreign.same (a b : Foreign) : Bool :=
  match a.number, b.number with
  | some m, some n => m == n
  | _, _ => a == b

inductive SExpr where
  | null
  | bool (b : Bool)
  | int (n : Int)
  | float (x : Binary64)
  | str (s : String)
  | sym (name : String)
  | list (items : List SExpr)
  | foreign (value : Foreign)
  deriving Repr, Inhabited

namespace SExpr

def quantity? : SExpr → Option Binary64.Quantity
  | .bool b => some (.ofInt (if b then 1 else 0))
  | .int n => some (.ofInt n)
  | .float x => x.quantity?
  | .foreign value => value.number.map .ofInt
  | _ => none

mutual

/-- Equality of values. Numbers are equal if their exact values are, whatever their kind, so a nan is
equal to nothing; all else is equal if it has the same shape and parts. -/
def same : SExpr → SExpr → Bool
  | .null, .null => true
  | .str a, .str b => a == b
  | .sym a, .sym b => a == b
  | .list as, .list bs => sameAll as bs
  | .foreign a, .foreign b => a.same b
  | a, b => match a.quantity?, b.quantity? with
    | some x, some y => x == y
    | _, _ => false

def sameAll : List SExpr → List SExpr → Bool
  | [], [] => true
  | a :: as, b :: bs => same a b && sameAll as bs
  | _, _ => false

end

inductive TextError where
  | foreign (text : String)
  | numeral (e : Numeral.Error)
  | tooDeep
  deriving DecidableEq, Repr

def intChars (n : Int) : Except TextError (List Char) :=
  match Numeral.ofInt n with
  | .ok text => .ok text
  | .error e => .error (.numeral e)

structure MemberError where
  type : String
  deriving DecidableEq, Repr

def MemberError.message (e : MemberError) : String := "unhashable type: " ++ Text.quoted e.type

def member : SExpr → Except MemberError SExpr
  | .list _ => .error ⟨"list"⟩
  | .foreign value => if value.inSets then .ok (.foreign value) else .error ⟨value.type⟩
  | v => .ok v

def insert (members : List SExpr) (v : SExpr) : List SExpr :=
  if members.any (·.same v) then members else members ++ [v]

/-- The different values among some. A nan is different from every value, and so counts each time. -/
def distinct (values : List SExpr) : Except MemberError (List SExpr) := do
  let values ← values.mapM member
  .ok (values.foldl insert [])

def scriptChar : Char → List Char
  | '\\' => ['\\', '\\']
  | '"' => ['\\', '"']
  | '\n' => ['\\', 'n']
  | '\t' => ['\\', 't']
  | c => [c]

def scriptString (s : List Char) : List Char := '"' :: s.flatMap scriptChar ++ ['"']

def script : Nat → SExpr → Except TextError (List Char)
  | 0, _ => .error .tooDeep
  | _ + 1, .null => .ok ['n', 'u', 'l', 'l']
  | _ + 1, .bool b => .ok (if b then ['t', 'r', 'u', 'e'] else ['f', 'a', 'l', 's', 'e'])
  | _ + 1, .int n => intChars n
  | _ + 1, .float x => .ok x.chars
  | _ + 1, .str s => .ok (scriptString s.toList)
  | _ + 1, .sym name => .ok name.toList
  | depth + 1, .list items => do
    let parts ← items.mapM (script depth)
    .ok ('(' :: [' '].intercalate parts ++ [')'])
  | _ + 1, .foreign value => .error (.foreign value.text)

def toScript (depth : Nat) (v : SExpr) : Except TextError String := String.ofList <$> v.script depth

def listing : Nat → SExpr → Except TextError (List Char)
  | 0, _ => .error .tooDeep
  | _ + 1, .null => .ok ['N', 'o', 'n', 'e']
  | _ + 1, .bool b => .ok (if b then ['T', 'r', 'u', 'e'] else ['F', 'a', 'l', 's', 'e'])
  | _ + 1, .int n => intChars n
  | _ + 1, .float x => .ok x.chars
  | _ + 1, .str s => .ok (Text.quotedChars s.toList)
  | _ + 1, .sym name => .ok ("Symbol(".toList ++ Text.quotedChars name.toList ++ [')'])
  | depth + 1, .list items => do
    let parts ← items.mapM (listing depth)
    .ok ('[' :: [',', ' '].intercalate parts ++ [']'])
  | _ + 1, .foreign value => .ok value.text.toList

def toListing (depth : Nat) (v : SExpr) : Except TextError String := String.ofList <$> v.listing depth

def toPlain (depth : Nat) : SExpr → Except TextError String
  | .str s => .ok s
  | .sym name => .ok name
  | v => v.toListing depth

end SExpr

namespace Transport

/-- The character that marks a string. No string may hold it. -/
def sentinel : Char := '\x00'

def stringTag : List Char := ['S', 'T', 'R', ':']

def stringMark : List Char := sentinel :: stringTag

def literals : List (List Char × SExpr) :=
  [(['t', 'r', 'u', 'e'], .bool true), (['f', 'a', 'l', 's', 'e'], .bool false),
   (['n', 'u', 'l', 'l'], .null)]

def isDelimiter (c : Char) : Bool := c == '(' || c == ')' || c == sentinel

def isReserved (c : Char) : Bool := Text.isBlank c || isDelimiter c

end Transport

inductive EncodeError where
  | emptySymbol
  | literalSymbol (name : String)
  | reservedSymbol (name : String)
  | sentinelSymbol (name : String)
  | nonFinite (x : Binary64)
  | sentinelInString
  | unsupported (type : String)
  | tooDeep
  | numeral (e : Numeral.Error)
  deriving DecidableEq, Repr

def EncodeError.message : EncodeError → String
  | .emptySymbol => "cannot encode an empty symbol"
  | .literalSymbol name => "symbol " ++ Text.quoted name ++ " would decode as a literal"
  | .reservedSymbol name => "symbol " ++ Text.quoted name ++ " contains a reserved character"
  | .sentinelSymbol name => "symbol " ++ Text.quoted name ++ " starts with the sentinel byte"
  | .nonFinite x => "cannot encode non-finite number " ++ x.text
  | .sentinelInString => "string content contains the sentinel byte"
  | .unsupported type => "cannot encode value of type " ++ type
  | .tooDeep => "value nested too deeply"
  | .numeral e => e.message

inductive DecodeFault where
  | emptyInput
  | trailing
  | unexpectedClose
  | unclosed
  | unknownTag
  | malformedLength
  | shortContent
  | unknownTagIn (text : String)
  | unsupported (type : String)
  | tooDeep
  | numeral (e : Numeral.Error)
  deriving DecidableEq, Repr

def DecodeFault.message : DecodeFault → String
  | .emptyInput => "empty input"
  | .trailing => "trailing content after value"
  | .unexpectedClose => "unexpected ')'"
  | .unclosed => "unclosed '('"
  | .unknownTag => "unknown sentinel tag"
  | .malformedLength => "malformed string length"
  | .shortContent => "string content shorter than its length"
  | .unknownTagIn text => "unknown sentinel tag in " ++ Text.quoted text
  | .unsupported type => "unsupported JSON value of type " ++ type
  | .tooDeep => "value nested too deeply"
  | .numeral e => e.message

structure Complaint where
  text : String
  offset : Option Int
  deriving DecidableEq, Repr

def Complaint.render (c : Complaint) : String :=
  match c.offset with
  | some offset => "offset " ++ toString offset ++ ": " ++ c.text
  | none => c.text

structure DecodeError where
  fault : DecodeFault
  offset : Option Nat
  deriving DecidableEq, Repr

def DecodeError.complaint (e : DecodeError) : Complaint := ⟨e.fault.message, e.offset.map Int.ofNat⟩

end Scriptlet
