import Scriptlet.Parse.Basic

/-! The grammar of scripts. Every rule takes the parser of the expressions inside it, and the rules are
tied together by a nesting budget: an expression that stands inside another has a smaller one. -/
namespace Scriptlet.Parse
open Token (Kind)

variable {α : Type}

def commaTurn (closing : Kind) (item : Parser α) : Parser (Reader.Turn α) := do
  if (← nextKind) = closing then pure .stop
  else
    let a ← item
    if ← take .comma then pure (.more a) else pure (.last a)

def bracketed (opening closing : Kind) (item : Parser α) : Parser (Token × List α) := do
  let first ← expect opening
  let items ← Reader.collect (commaTurn closing item)
  let _ ← expectAs closing ("',' or " ++ closing.label)
  pure (first, items)

def params : Parser (List String) := do
  let (_, names) ← bracketed .lparen .rparen (expectAs .ident "parameter name")
  pure (names.map Token.value)

def callArgs (expr : Parser Node) : Parser (List Node) := do
  let (_, args) ← bracketed .lparen .rparen expr
  pure args

def array (expr : Parser Node) : Parser Node := do
  let (opening, elements) ← bracketed .lbracket .rbracket expr
  pure (.array opening.place elements)

def assign (expr : Parser Node) : Parser Node := do
  let name ← expect .ident
  let _ ← expect .assign
  let value ← expr
  pure (.assignment name.place name.value value)

def statement (expr : Parser Node) : Parser Node := do
  match ← Reader.ahead with
  | first :: second :: _ =>
    if first.kind = .ident ∧ second.kind = .assign then assign expr else expr
  | _ => expr

def statementTurn (expr : Parser Node) : Parser (Reader.Turn Node) := do
  if (← nextKind) = .rbrace then pure .stop
  else
    let s ← statement expr
    match ← nextKind with
    | .newline =>
      skipNewlines
      pure (.more s)
    | .rbrace => pure (.last s)
    | _ => unexpected "newline or '\x7d'"

def block (expr : Parser Node) : Parser Node := do
  let opening ← expect .lbrace
  skipNewlines
  let statements ← Reader.collect (statementTurn expr)
  let _ ← expect .rbrace
  pure (.block opening.place statements)

def arrow (expr : Parser Node) (params : List String) (place : Place) : Parser Node := do
  let _ ← expect .arrow
  skipNewlines
  let body ← if (← nextKind) = .lbrace then block expr else expr
  pure (.arrow place params body)

def isKey (value : String) : Bool :=
  match value.toList with
  | [] => false
  | c :: rest =>
    Token.isWordStart c && rest.all Token.isWordPart && decide (Kind.ofWord (c :: rest) = .ident)

def property (expr : Parser Node) : Parser Node := do
  match ← Reader.peek with
  | none => unexpected "property name"
  | some key =>
    if key.kind ≠ .ident ∧ key.kind ≠ .string then unexpected "property name"
    else if key.kind = .string ∧ ¬ isKey key.value then fail (.invalidKey key.raw)
    else
      Reader.drop
      match ← nextKind with
      | .lparen =>
        let names ← params
        skipNewlines
        let body ← block expr
        pure (.property key.place key.value true names body)
      | .colon =>
        Reader.drop
        let value ← expr
        pure (.property key.place key.value false [] value)
      | _ => unexpected "'(' or ':' after property name"

def propertyTurn (expr : Parser Node) : Parser (Reader.Turn Node) := do
  if (← nextKind) = .rbrace then pure .stop
  else
    let entry ← property expr
    skipNewlines
    if ← take .comma then
      skipNewlines
      pure (.more entry)
    else pure (.last entry)

def object (expr : Parser Node) : Parser Node := do
  let opening ← expect .lbrace
  skipNewlines
  let entries ← Reader.collect (propertyTurn expr)
  let _ ← expectAs .rbrace "',' or '\x7d'"
  pure (.object opening.place entries)

/-- Whether an arrow follows the bracket that closes `depth` further ones and the one just opened. -/
def arrowAhead : Nat → List Token → Bool
  | _, [] => false
  | depth, token :: rest => match token.kind with
    | .lparen => arrowAhead (depth + 1) rest
    | .rparen => match depth with
      | 0 => rest.head?.any (·.kind = .arrow)
      | outer + 1 => arrowAhead outer rest
    | _ => arrowAhead depth rest

def number (token : Token) : Parser SExpr :=
  match Numeral.read? token.value.toList with
  | none => fail (.numeral (.notDecimal token.value))
  | some n =>
    if n.isWhole then
      match n.toInt with
      | .ok k => pure (.int k)
      | .error e => fail (.numeral e)
    else if n.toBinary.isFinite then pure (.float n.toBinary)
    else fail (.outOfRange token)

def primary (expr : Parser Node) : Parser Node := do
  match ← Reader.ahead with
  | [] => unexpected "expression"
  | token :: rest => match token.kind with
    | .number =>
      Reader.drop
      let value ← number token
      pure (.literal token.place .number value)
    | .string =>
      Reader.drop
      pure (.literal token.place .string (.str token.value))
    | .trueWord =>
      Reader.drop
      pure (.literal token.place .bool (.bool true))
    | .falseWord =>
      Reader.drop
      pure (.literal token.place .bool (.bool false))
    | .nullWord =>
      Reader.drop
      pure (.literal token.place .null .null)
    | .ident =>
      Reader.drop
      if rest.head?.any (·.kind = .arrow) then arrow expr [token.value] token.place
      else pure (.ident token.place token.value)
    | .lparen =>
      if arrowAhead 0 rest then
        let names ← params
        arrow expr names token.place
      else
        Reader.drop
        let inner ← expr
        let _ ← expect .rparen
        pure inner
    | .lbracket => array expr
    | .lbrace => object expr
    | _ => unexpected "expression"

inductive Suffix where
  | name (token : Token)
  | index (key : Node)
  | arguments (args : List Node)
  deriving Repr

def Suffix.apply (target : Node) : Suffix → Node
  | .name token =>
    .member target.place target (.literal token.place .string (.str token.value)) false
  | .index key => .member target.place target key true
  | .arguments args => .call target.place target args

def suffixTurn (expr : Parser Node) : Parser (Reader.Turn Suffix) := do
  match ← nextKind with
  | .dot =>
    Reader.drop
    let name ← expectAs .ident "property name"
    pure (.more (.name name))
  | .lbracket =>
    Reader.drop
    let key ← expr
    let _ ← expect .rbracket
    pure (.more (.index key))
  | .lparen =>
    let args ← callArgs expr
    pure (.more (.arguments args))
  | _ => pure .stop

def suffixed (expr : Parser Node) : Parser Node := do
  let target ← primary expr
  let suffixes ← Reader.collect (suffixTurn expr)
  pure (suffixes.foldl Suffix.apply target)

def signed (operand expr : Parser Node) : Parser Node := do
  match ← Reader.peek with
  | some op =>
    if op.kind = .notOp ∨ op.kind = .minus then
      Reader.drop
      let x ← operand
      pure (.unary op.place op.value x)
    else suffixed expr
  | none => suffixed expr

def choice (operand expr : Parser Node) : Parser Node := do
  let cond ← chain operand 1
  if ← take .question then
    let yes ← expr
    let _ ← expect .colon
    let no ← expr
    pure (.ternary cond.place cond yes no)
  else pure cond

mutual

def expression : Nat → Parser Node
  | 0 => fail .exhausted
  | depth + 1 => choice (unary depth) (expression depth)

def unary : Nat → Parser Node
  | 0 => fail .exhausted
  | depth + 1 => signed (unary depth) (expression depth)

end

def program (depth : Nat) : Parser Node := do
  skipNewlines
  let tree ← fun tokens => match expression depth tokens with
    | .error ⟨.exhausted, rest⟩ => .error ⟨.tooDeep, rest⟩
    | result => result
  skipNewlines
  if (← nextKind) = .eof then pure tree else unexpected "end of input"

end Scriptlet.Parse
