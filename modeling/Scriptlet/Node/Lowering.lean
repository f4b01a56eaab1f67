import Scriptlet.Node.Basic

/-! The S-expression of a tree. A string literal is quoted, so that it is not taken for a name; only
the key of an access by name is a bare string. -/
namespace Scriptlet

inductive Construct where
  | unaryOperator (op : String)
  | binaryOperator (op : String)
  | logicalOperator (op : String)
  | namelessKey
  | bare
  deriving DecidableEq, Repr

def Construct.text : Construct → String
  | .unaryOperator op => "unary operator " ++ Text.quoted op
  | .binaryOperator op => "binary operator " ++ Text.quoted op
  | .logicalOperator op => "logical operator " ++ Text.quoted op
  | .namelessKey => "non-name property after '.'"
  | .bare => "Node"

inductive LowerError where
  | unsupported (what : Construct) (place : Place)
  | tooDeep
  deriving DecidableEq, Repr

def LowerError.message : LowerError → String
  | .unsupported what place =>
    "cannot transform " ++ what.text ++ " at " ++ toString place.line ++ ":" ++ toString place.col
  | .tooDeep => "Expression nested too deeply"

/-- The complaint names the place itself, so the diagnostic points at no source. -/
def LowerError.diagnostic (e : LowerError) : Diagnostic := ⟨e.message, 0, ""⟩

namespace Node

def binaryForms : List (String × String) :=
  [("+", "+"), ("-", "-"), ("*", "*"), ("/", "/"), ("%", "%"), ("==", "="), ("!=", "!="), ("<", "<"),
   (">", ">"), ("<=", "<="), (">=", ">=")]

def logicalForms : List (String × String) := [("&&", "and"), ("||", "or")]

def sequence : List SExpr → SExpr
  | [v] => v
  | vs => .list (.sym "progn" :: vs)

def key? : Node → Option SExpr
  | .literal _ .string value => some value
  | .ident _ name => some (.str name)
  | _ => none

def lower : Nat → Node → Except LowerError SExpr
  | 0, _ => .error .tooDeep
  | _ + 1, .literal _ kind value =>
    .ok (if kind = .string then .list [.sym "quote", value] else value)
  | _ + 1, .ident _ name => .ok (.sym name)
  | depth + 1, .unary place op x => do
    let x ← lower depth x
    if op = "-" then .ok (.list [.sym "-", .int 0, x])
    else if op = "!" then .ok (.list [.sym "not", x])
    else .error (.unsupported (.unaryOperator op) place)
  | depth + 1, .binary place op x y => match binaryForms.lookup op with
    | none => .error (.unsupported (.binaryOperator op) place)
    | some form => do
      let x ← lower depth x
      let y ← lower depth y
      .ok (.list [.sym form, x, y])
  | depth + 1, .logical place op x y => match logicalForms.lookup op with
    | none => .error (.unsupported (.logicalOperator op) place)
    | some form => do
      let x ← lower depth x
      let y ← lower depth y
      .ok (.list [.sym form, x, y])
  | depth + 1, .ternary _ x y z => do
    let x ← lower depth x
    let y ← lower depth y
    let z ← lower depth z
    .ok (.list [.sym "if", x, y, z])
  | depth + 1, .array _ xs => do
    let xs ← xs.mapM (lower depth)
    .ok (.list (.sym "list" :: xs))
  | depth + 1, .object _ xs => do
    let xs ← xs.mapM (lower depth)
    .ok (sequence xs)
  | depth + 1, .property _ key isMethod params value => do
    let value ← lower depth value
    let name := if isMethod then .list (.sym key :: params.map .sym) else .sym key
    .ok (.list [.sym "define", name, value])
  | depth + 1, .assignment _ name value => do
    let value ← lower depth value
    .ok (.list [.sym "define", .sym name, value])
  | depth + 1, .block _ xs => do
    let xs ← xs.mapM (lower depth)
    .ok (sequence xs)
  | depth + 1, .arrow _ params body => do
    let body ← lower depth body
    .ok (.list [.sym "lambda", .list (params.map .sym), body])
  | depth + 1, .call _ callee args => do
    let callee ← lower depth callee
    let args ← args.mapM (lower depth)
    .ok (.list (callee :: args))
  | depth + 1, .member place target key computed => do
    let target ← lower depth target
    if computed then
      let key ← lower depth key
      .ok (.list [.sym "get", target, key])
    else match key.key? with
      | some name => .ok (.list [.sym "get", target, name])
      | none => .error (.unsupported .namelessKey place)
  | _ + 1, .bare place => .error (.unsupported .bare place)

end Node

end Scriptlet
