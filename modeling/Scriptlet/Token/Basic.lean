import Scriptlet.Source

/-! Tokens, the words of a script. -/
namespace Scriptlet

namespace Token

inductive Kind where
  | number | string | ident | trueWord | falseWord | nullWord
  | plus | minus | star | slash | percent
  | equal | notEqual | less | greater | lessEq | greaterEq
  | andOp | orOp | notOp | question | colon | arrow | assign | comma | dot
  | lparen | rparen | lbrace | rbrace | lbracket | rbracket
  | newline | eof
  deriving DecidableEq, Repr, Inhabited

namespace Kind

def all : List Kind :=
  [.number, .string, .ident, .trueWord, .falseWord, .nullWord, .plus, .minus, .star, .slash, .percent,
   .equal, .notEqual, .less, .greater, .lessEq, .greaterEq, .andOp, .orOp, .notOp, .question, .colon,
   .arrow, .assign, .comma, .dot, .lparen, .rparen, .lbrace, .rbrace, .lbracket, .rbracket, .newline,
   .eof]

def name : Kind → String
  | .number => "NUMBER" | .string => "STRING" | .ident => "IDENT"
  | .trueWord => "TRUE" | .falseWord => "FALSE" | .nullWord => "NULL"
  | .plus => "PLUS" | .minus => "MINUS" | .star => "STAR" | .slash => "SLASH" | .percent => "PERCENT"
  | .equal => "EQUAL" | .notEqual => "NOT_EQUAL" | .less => "LESS" | .greater => "GREATER"
  | .lessEq => "LESS_EQ" | .greaterEq => "GREATER_EQ" | .andOp => "AND" | .orOp => "OR" | .notOp => "NOT"
  | .question => "QUESTION" | .colon => "COLON" | .arrow => "ARROW" | .assign => "ASSIGN"
  | .comma => "COMMA" | .dot => "DOT" | .lparen => "LPAREN" | .rparen => "RPAREN"
  | .lbrace => "LBRACE" | .rbrace => "RBRACE" | .lbracket => "LBRACKET" | .rbracket => "RBRACKET"
  | .newline => "NEWLINE" | .eof => "EOF"

def ofName? (name : String) : Option Kind := all.find? fun k => k.name == name

def keywords : List (List Char × Kind) :=
  [(['t', 'r', 'u', 'e'], .trueWord), (['f', 'a', 'l', 's', 'e'], .falseWord),
   (['n', 'u', 'l', 'l'], .nullWord)]

def ofWord (word : List Char) : Kind := (keywords.lookup word).getD .ident

/-- The operators and marks. Those of two characters come first, so that the first one that a text
starts with is the longest. -/
def marks : List (List Char × Kind) :=
  [(['=', '='], .equal), (['!', '='], .notEqual), (['<', '='], .lessEq), (['>', '='], .greaterEq),
   (['&', '&'], .andOp), (['|', '|'], .orOp), (['=', '>'], .arrow),
   (['+'], .plus), (['-'], .minus), (['*'], .star), (['/'], .slash), (['%'], .percent),
   (['<'], .less), (['>'], .greater), (['!'], .notOp), (['?'], .question), ([':'], .colon),
   (['='], .assign), ([','], .comma), (['.'], .dot), (['('], .lparen), ([')'], .rparen),
   (['\x7b'], .lbrace), (['\x7d'], .rbrace), (['['], .lbracket), ([']'], .rbracket)]

def spelling? (k : Kind) : Option (List Char) :=
  ((keywords ++ marks).find? fun entry => entry.2 = k).map Prod.fst

def label : Kind → String
  | .number => "number"
  | .string => "string"
  | .ident => "identifier"
  | .newline => "newline"
  | .eof => "end of input"
  | k => "'" ++ String.ofList (k.spelling?.getD []) ++ "'"

def precedence? : Kind → Option Nat
  | .orOp => some 1
  | .andOp => some 2
  | .equal | .notEqual => some 3
  | .less | .greater | .lessEq | .greaterEq => some 4
  | .plus | .minus => some 5
  | .star | .slash | .percent => some 6
  | _ => none

/-- A line cannot end right after one of these, so a newline there says nothing. -/
def awaitsMore : Kind → Bool
  | .lbrace | .plus | .minus | .star | .slash | .percent | .andOp | .orOp | .question | .colon
  | .equal | .notEqual | .less | .greater | .lessEq | .greaterEq | .comma => true
  | _ => false

end Kind

inductive Bracket where
  | paren | square | brace
  deriving DecidableEq, Repr

namespace Bracket

def opening : Bracket → Kind
  | .paren => .lparen
  | .square => .lbracket
  | .brace => .lbrace

def closing : Bracket → Kind
  | .paren => .rparen
  | .square => .rbracket
  | .brace => .rbrace

def all : List Bracket := [.paren, .square, .brace]

/-- The open brackets after a token, innermost first. A closing bracket closes the innermost one if
the two match, and else nothing. -/
def track (open' : List Bracket) (k : Kind) : List Bracket :=
  match all.find? (·.opening = k) with
  | some b => b :: open'
  | none => match open' with
    | b :: outer => if b.closing = k then outer else open'
    | [] => []

end Bracket

end Token

structure Token where
  kind : Token.Kind
  value : String
  raw : String
  offset : Nat
  place : Place
  deriving DecidableEq, Repr, Inhabited

namespace Token

def describe (t : Token) : String :=
  match t.kind with
  | .number | .string | .ident => t.kind.label ++ " " ++ Text.quoted t.raw
  | k => k.label

def render (t : Token) : String :=
  "Token(" ++ t.kind.name ++ ", " ++ Text.quoted t.value ++ ", " ++ toString t.place.line ++ ":" ++
    toString t.place.col ++ ")"

end Token

end Scriptlet
