import Scriptlet.Reader
import Scriptlet.SExpr

/-! The wire text of a value, written and read back. Lists stand in brackets, a string carries its
length, and everything else is a bare word. -/
namespace Scriptlet.Wire
open Transport

def symbolFault? (name : String) : Option EncodeError :=
  let word := name.toList
  if word.isEmpty then some .emptySymbol
  else if (literals.lookup word).isSome || (Numeral.read? word).isSome then some (.literalSymbol name)
  else if word.any isReserved then some (.reservedSymbol name)
  else none

def chars : Nat → SExpr → Except EncodeError (List Char)
  | 0, _ => .error .tooDeep
  | _ + 1, .null => .ok ['n', 'u', 'l', 'l']
  | _ + 1, .bool b => .ok (if b then ['t', 'r', 'u', 'e'] else ['f', 'a', 'l', 's', 'e'])
  | _ + 1, .int n => match Numeral.ofInt n with
    | .ok text => .ok text
    | .error e => .error (.numeral e)
  | _ + 1, .float x => if x.isFinite then .ok x.chars else .error (.nonFinite x)
  | _ + 1, .str s =>
    if s.toList.contains sentinel then .error .sentinelInString
    else .ok (stringMark ++ Nat.toDigits 10 s.length ++ ':' :: s.toList)
  | _ + 1, .sym name => match symbolFault? name with
    | some e => .error e
    | none => .ok name.toList
  | depth + 1, .list items => do
    let parts ← items.mapM (chars depth)
    .ok ('(' :: [' '].intercalate parts ++ [')'])
  | _ + 1, .foreign value => .error (.unsupported value.type)

def write (depth : Nat) (v : SExpr) : Except EncodeError String := String.ofList <$> chars depth v

structure Blame where
  fault : DecodeFault
  rest : List Char
  deriving DecidableEq, Repr

abbrev WireReader (α : Type) : Type := Reader Char Blame α

def wordValue (word : List Char) : Except Numeral.Error SExpr :=
  match literals.lookup word with
  | some v => .ok v
  | none => match Numeral.read? word with
    | some n => if n.isWhole then .int <$> n.toInt else .ok (.float n.toBinary)
    | none => .ok (.sym (String.ofList word))

def readWord : WireReader SExpr := fun text =>
  match wordValue (text.takeWhile (!isReserved ·)) with
  | .ok v => .ok (v, text.dropWhile (!isReserved ·))
  | .error e => .error ⟨.numeral e, text⟩

def readString : WireReader SExpr := fun text =>
  if !stringMark.isPrefixOf text then .error ⟨.unknownTag, text⟩
  else
    let body := text.drop stringMark.length
    let digits := body.takeWhile (· ≠ ':')
    match body.dropWhile (· ≠ ':') with
    | [] => .error ⟨.malformedLength, text⟩
    | _ :: content =>
      if digits.isEmpty || !digits.all Text.isDigitLike then .error ⟨.malformedLength, text⟩
      else match Numeral.natural digits with
        | .error e => .error ⟨.numeral e, text⟩
        | .ok length =>
          if content.length < length then .error ⟨.shortContent, text⟩
          else .ok (.str (String.ofList (content.take length)), content.drop length)

def itemTurn (opening : List Char) (value : WireReader SExpr) : WireReader (Reader.Turn SExpr) :=
  fun text => match text.dropWhile Text.isBlank with
    | [] => .error ⟨.unclosed, opening⟩
    | c :: rest =>
      if c = ')' then .ok (.stop, rest)
      else match value (c :: rest) with
        | .ok (v, after) => .ok (.more v, after)
        | .error blame => .error blame

def readValue : Nat → WireReader SExpr
  | 0 => fun text => .error ⟨.tooDeep, text⟩
  | depth + 1 => fun text => match text with
    | [] => .error ⟨.emptyInput, []⟩
    | c :: rest =>
      if c = '(' then
        match Reader.collect (itemTurn text (readValue depth)) rest with
        | .ok (items, after) => .ok (.list items, after)
        | .error blame => .error blame
      else if c = ')' then .error ⟨.unexpectedClose, text⟩
      else if c = sentinel then readString text
      else readWord text

def readDocument (depth : Nat) (text : List Char) : Except Blame SExpr :=
  match text.dropWhile Text.isBlank with
  | [] => .error ⟨.emptyInput, []⟩
  | start => match readValue depth start with
    | .error blame => .error blame
    | .ok (v, after) => match after.dropWhile Text.isBlank with
      | [] => .ok v
      | rest => .error ⟨.trailing, rest⟩

def read (depth : Nat) (text : String) : Except DecodeError SExpr :=
  match readDocument depth text.toList with
  | .ok v => .ok v
  | .error blame => .error ⟨blame.fault, some (text.length - blame.rest.length)⟩

end Scriptlet.Wire
