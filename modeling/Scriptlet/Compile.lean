import Scriptlet.Json
import Scriptlet.Node.Lowering
import Scriptlet.Parse.Session
import Scriptlet.Wire

/-! From the source of a script to its S-expression, and to the text in which a result is written. How
deep a stage follows what is nested is a number that it is given. -/
namespace Scriptlet

inductive CompileError where
  | token (e : Token.Error)
  | parse (e : Parse.Error)
  | lowering (e : LowerError)
  deriving DecidableEq, Repr

def CompileError.diagnostic : CompileError → Diagnostic
  | .token e => e.diagnostic
  | .parse e => e.diagnostic
  | .lowering e => e.diagnostic

def Token.Stream.parse (depth : Nat) (source : String) (stream : Token.Stream) :
    Except CompileError Node :=
  match Parse.program depth stream.body with
  | .ok (tree, _) => .ok tree
  | .error failure => .error (.parse (failure.toError source stream.stop))

def tokenize (source : String) : Except CompileError Token.Stream :=
  match Token.scan source with
  | .ok stream => .ok stream
  | .error e => .error (.token e)

def parse (depth : Nat) (source : String) : Except CompileError Node := do
  let stream ← tokenize source
  stream.parse depth source

def lower (depth : Nat) (tree : Node) : Except CompileError SExpr :=
  match tree.lower depth with
  | .ok v => .ok v
  | .error e => .error (.lowering e)

def compile (nesting lowering : Nat) (source : String) : Except CompileError SExpr := do
  let tree ← parse nesting source
  lower lowering tree

inductive Event where
  | tokenized (chars tokens : Nat)
  | parsed (form : String)
  | lowered (v : SExpr)
  deriving Repr

def progress (nesting lowering : Nat) (source : String) : List Event :=
  match tokenize source with
  | .error _ => []
  | .ok stream =>
    .tokenized source.length stream.toList.length ::
      match stream.parse nesting source with
      | .error _ => []
      | .ok tree =>
        .parsed tree.form ::
          match lower lowering tree with
          | .error _ => []
          | .ok v => [.lowered v]

inductive Emit where
  | sexpr | wire | json | tokens | ast
  deriving DecidableEq, Repr

def Emit.ofName? : String → Option Emit
  | "sexpr" => some .sexpr
  | "wire" => some .wire
  | "json" => some .json
  | "tokens" => some .tokens
  | "ast" => some .ast
  | _ => none

def Emit.compiles : Emit → Bool
  | .sexpr | .wire | .json => true
  | .tokens | .ast => false

inductive RenderError where
  | compile (e : CompileError)
  | encode (e : EncodeError)
  | text (e : SExpr.TextError)
  deriving DecidableEq, Repr

/-- How deep each stage of a run follows what is nested. -/
structure Limits where
  nesting : Nat
  lowering : Nat
  script : Nat
  wire : Nat
  json : Nat
  listing : Nat
  deriving DecidableEq, Repr

def renderValue (limits : Limits) (emit : Emit) (v : SExpr) : Except RenderError String :=
  match emit with
  | .wire => (Wire.write limits.wire v).mapError .encode
  | .json => do
    let j ← (Json.encode limits.json v).mapError .encode
    j.toText.mapError .text
  | _ => (v.toScript limits.script).mapError .text

def render (limits : Limits) (emit : Emit) (source : String) : Except RenderError String :=
  match emit with
  | .tokens => do
    let stream ← (tokenize source).mapError .compile
    .ok ("\n".intercalate (stream.toList.map Token.render))
  | .ast => do
    let tree ← (parse limits.nesting source).mapError .compile
    (tree.toListing limits.listing).mapError .text
  | emit => do
    let v ← (compile limits.nesting limits.lowering source).mapError .compile
    renderValue limits emit v

end Scriptlet
