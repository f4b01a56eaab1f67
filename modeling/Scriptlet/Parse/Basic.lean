import Scriptlet.Node.Basic
import Scriptlet.Reader
import Scriptlet.Token.Scanner

/-! Parsers read tokens. An empty list of tokens is the end of input. A parser that fails says why and
leaves the tokens from where it stopped. In a chain of operands, operators of equal strength group to
the left, and a stronger operator takes its operands first. -/
namespace Scriptlet.Parse
open Token (Kind)

inductive Cause where
  | missing (what : String)
  | unexpected (what : String)
  | invalidKey (raw : String)
  /-- A number, already read, that is too large. -/
  | outOfRange (token : Token)
  | numeral (e : Numeral.Error)
  /-- The nesting budget is used up; of a whole script that is `tooDeep`. -/
  | exhausted
  | tooDeep
  deriving DecidableEq, Repr

def Cause.message (found : Token) : Cause → String
  | .missing what =>
    if found.kind = .assign then "Assignment is only allowed as a statement"
    else "Expected " ++ what ++ ", found " ++ found.describe
  | .unexpected what =>
    if found.kind = .assign then "Assignment is only allowed as a statement"
    else if found.kind = .eof then "Unexpected end of input, expected " ++ what
    else "Unexpected " ++ found.describe ++ ", expected " ++ what
  | .invalidKey raw => "Invalid property name " ++ raw
  | .outOfRange _ => "Number literal out of range"
  | .numeral e => e.message
  | .exhausted | .tooDeep => "Expression nested too deeply"

def Cause.expected? : Cause → Option String
  | .missing what | .unexpected what => some what
  | .invalidKey _ => some "property name"
  | _ => none

structure Failure where
  cause : Cause
  rest : List Token
  deriving DecidableEq, Repr

/-- The token at fault: the one where the parser stopped, or the number that it read last. -/
def Failure.found (stop : Token) (f : Failure) : Token :=
  match f.cause with
  | .outOfRange token => token
  | _ => f.rest.head?.getD stop

structure Error where
  cause : Cause
  found : Token
  source : String
  deriving DecidableEq, Repr

def Failure.toError (source : String) (stop : Token) (f : Failure) : Error :=
  ⟨f.cause, f.found stop, source⟩

def Error.diagnostic (e : Error) : Diagnostic := ⟨e.cause.message e.found, e.found.offset, e.source⟩

end Scriptlet.Parse

abbrev Scriptlet.Parser (α : Type) : Type := Reader Token Parse.Failure α

namespace Scriptlet.Parse
open Token (Kind)

variable {α : Type}

def fail (cause : Cause) : Parser α := Reader.fail (⟨cause, ·⟩)

def unexpected (what : String) : Parser α := fail (.unexpected what)

def nextKind : Parser Kind := do
  let next ← Reader.peek
  pure (next.elim .eof Token.kind)

def take (kind : Kind) : Parser Bool := do
  if (← nextKind) = kind then
    Reader.drop
    pure true
  else pure false

def expectAs (kind : Kind) (what : String) : Parser Token := do
  match ← Reader.peek with
  | some token =>
    if token.kind = kind then
      Reader.drop
      pure token
    else fail (.missing what)
  | none => fail (.missing what)

def expect (kind : Kind) : Parser Token := expectAs kind kind.label

def skipNewlines : Parser Unit := Reader.dropWhile (·.kind = .newline)

structure Link where
  op : Token
  strength : Nat
  operand : Node
  deriving Repr

def Link.join (link : Link) (left right : Node) : Node :=
  match link.op.kind with
  | .andOp | .orOp => .logical left.place link.op.value left right
  | _ => .binary left.place link.op.value left right

/-- Folds links onto an operand as long as they bind at least as strongly as `least`, and gives the
links that are left. What follows an operator is folded first if it binds more strongly. -/
def climb (least : Nat) (left : Node) (links : List Link) :
    { result : Node × List Link // result.2.length ≤ links.length } :=
  match links with
  | [] => ⟨(left, []), Nat.le_refl _⟩
  | link :: rest =>
    if link.strength < least then ⟨(left, link :: rest), Nat.le_refl _⟩
    else
      let right := climb (link.strength + 1) link.operand rest
      have shorter : right.val.2.length < (link :: rest).length := Nat.lt_succ_of_le right.property
      let whole := climb least (link.join left right.val.1) right.val.2
      ⟨whole.val, Nat.le_trans whole.property (Nat.le_of_lt shorter)⟩
termination_by links.length
decreasing_by
  · exact Nat.lt_succ_self _
  · exact shorter

def chainTree (first : Node) (links : List Link) : Node := (climb 0 first links).val.1

def linkTurn (operand : Parser Node) (least : Int) : Parser (Reader.Turn Link) := do
  match ← Reader.peek with
  | none => pure .stop
  | some op => match op.kind.precedence? with
    | none => pure .stop
    | some strength =>
      if (strength : Int) < least then pure .stop
      else
        Reader.drop
        let right ← operand
        pure (.more ⟨op, strength, right⟩)

def chain (operand : Parser Node) (least : Int) : Parser Node := do
  let first ← operand
  let links ← Reader.collect (linkTurn operand least)
  pure (chainTree first links)

end Scriptlet.Parse
