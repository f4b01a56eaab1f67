import Scriptlet.Parse.Grammar

/-! A session holds the tokens of a source and reads them piece by piece. A piece that fails leaves the
session where the parser stopped. -/
namespace Scriptlet.Parse
open Token (Kind)

inductive Rule where
  | program | statement | assign | block | expression | unary | suffixed | primary | array | object
  | property
  deriving DecidableEq, Repr

def Rule.parser (depth : Nat) : Rule → Parser Node
  | .program => Parse.program depth
  | .statement => Parse.statement (Parse.expression depth)
  | .assign => Parse.assign (Parse.expression depth)
  | .block => Parse.block (Parse.expression depth)
  | .expression => Parse.expression depth
  | .unary => Parse.unary depth
  | .suffixed => Parse.suffixed (Parse.expression depth)
  | .primary => Parse.primary (Parse.expression depth)
  | .array => Parse.array (Parse.expression depth)
  | .object => Parse.object (Parse.expression depth)
  | .property => Parse.property (Parse.expression depth)

inductive Request where
  | peek (distance : Int)
  /-- A token of a kind, called `what` in a complaint, or by its kind if that is empty. -/
  | consume (kind : Kind) (what : String)
  | params
  | callArgs
  | chain (least : Int)
  | arrow (params : List String)
  | node (rule : Rule)
  deriving DecidableEq, Repr

inductive Reply where
  | peeked (token : Token)
  | consumed (token : Token)
  | params (names : List String)
  | args (args : List Node)
  | node (node : Node)
  deriving Repr

structure Session where
  source : String
  stream : Token.Stream
  rest : List Token
  deriving Repr

namespace Session

inductive Error where
  | parse (e : Parse.Error)
  | noToken
  deriving DecidableEq, Repr

def start (source : String) : Except Token.Error Session := do
  let stream ← Token.scan source
  .ok ⟨source, stream, stream.body⟩

def index (s : Session) : Nat := s.stream.body.length - s.rest.length

def current (s : Session) : Token := s.rest.head?.getD s.stream.stop

/-- The token at some distance. Beyond the end lies the end of input; before the start, tokens count
back from the end. -/
def tokenAt? (s : Session) (distance : Int) : Option Token :=
  let tokens := s.stream.toList
  let index := min (s.index + distance) (tokens.length - 1)
  if 0 ≤ index then tokens[index.toNat]?
  else if 0 ≤ index + tokens.length then tokens[(index + tokens.length).toNat]?
  else none

def run {α : Type} (s : Session) (p : Parser α) (reply : α → Reply) : Except Error Reply × Session :=
  match p s.rest with
  | .ok (a, rest) => (.ok (reply a), { s with rest := rest })
  | .error failure =>
    (.error (.parse (failure.toError s.source s.stream.stop)), { s with rest := failure.rest })

def answer (depth : Nat) (s : Session) : Request → Except Error Reply × Session
  | .peek distance => match s.tokenAt? distance with
    | some token => (.ok (.peeked token), s)
    | none => (.error .noToken, s)
  | .consume kind what =>
    if s.current.kind = .eof ∧ kind = .eof then (.ok (.consumed s.current), s)
    else s.run (expectAs kind (if what.isEmpty then kind.label else what)) .consumed
  | .params => s.run Parse.params .params
  | .callArgs => s.run (Parse.callArgs (expression depth)) .args
  | .chain least => s.run (Parse.chain (unary depth) least) .node
  | .arrow params => s.run (Parse.arrow (expression depth) params s.current.place) .node
  | .node rule => s.run (rule.parser depth) .node

def answerAll (s : Session) : List (Nat × Request) → List (Except Error Reply × Session)
  | [] => []
  | (depth, request) :: more =>
    let result := s.answer depth request
    result :: answerAll result.2 more

end Session

end Scriptlet.Parse
