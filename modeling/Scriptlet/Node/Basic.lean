import Scriptlet.SExpr
import Scriptlet.Source

/-! The tree of a script, its equality and its listing. Any node may stand in any position; which trees
a script can have is the business of the parser. Equality also has a form that looks only so deep: a
difference ends the comparison, so trees of any depth can be told apart if they differ near the root. -/
namespace Scriptlet

inductive LiteralKind where
  | number | string | bool | null
  deriving DecidableEq, Repr, Inhabited

def LiteralKind.name : LiteralKind → String
  | .number => "Number"
  | .string => "String"
  | .bool => "Bool"
  | .null => "Null"

inductive Node where
  | literal (place : Place) (kind : LiteralKind) (value : SExpr)
  | ident (place : Place) (name : String)
  | unary (place : Place) (op : String) (operand : Node)
  | binary (place : Place) (op : String) (left right : Node)
  | logical (place : Place) (op : String) (left right : Node)
  | ternary (place : Place) (cond yes no : Node)
  | array (place : Place) (elements : List Node)
  | object (place : Place) (properties : List Node)
  | property (place : Place) (key : String) (isMethod : Bool) (params : List String) (value : Node)
  | assignment (place : Place) (name : String) (value : Node)
  | block (place : Place) (statements : List Node)
  | arrow (place : Place) (params : List String) (body : Node)
  | call (place : Place) (callee : Node) (args : List Node)
  | member (place : Place) (target key : Node) (computed : Bool)
  | bare (place : Place)
  deriving Repr, Inhabited

namespace Node

def place : Node → Place
  | .literal p .. | .ident p .. | .unary p .. | .binary p .. | .logical p .. | .ternary p ..
  | .array p .. | .object p .. | .property p .. | .assignment p .. | .block p .. | .arrow p ..
  | .call p .. | .member p .. | .bare p => p

def form : Node → String
  | .literal .. => "Literal"
  | .ident .. => "Identifier"
  | .unary .. => "Unary"
  | .binary .. => "Binary"
  | .logical .. => "Logical"
  | .ternary .. => "Ternary"
  | .array .. => "ArrayLiteral"
  | .object .. => "ObjectLiteral"
  | .property .. => "Property"
  | .assignment .. => "Assignment"
  | .block .. => "Block"
  | .arrow .. => "Arrow"
  | .call .. => "Call"
  | .member .. => "Member"
  | .bare .. => "Node"

mutual

/-- Equality of trees. Places do not count, and literals are equal if their values are. -/
def same : Node → Node → Bool
  | .literal _ k v, .literal _ k' v' => k == k' && v.same v'
  | .ident _ a, .ident _ b => a == b
  | .unary _ o x, .unary _ o' x' => o == o' && same x x'
  | .binary _ o x y, .binary _ o' x' y' => o == o' && same x x' && same y y'
  | .logical _ o x y, .logical _ o' x' y' => o == o' && same x x' && same y y'
  | .ternary _ x y z, .ternary _ x' y' z' => same x x' && same y y' && same z z'
  | .array _ xs, .array _ ys => sameAll xs ys
  | .object _ xs, .object _ ys => sameAll xs ys
  | .property _ k m ps v, .property _ k' m' ps' v' => k == k' && m == m' && ps == ps' && same v v'
  | .assignment _ a v, .assignment _ b v' => a == b && same v v'
  | .block _ xs, .block _ ys => sameAll xs ys
  | .arrow _ ps b, .arrow _ ps' b' => ps == ps' && same b b'
  | .call _ f xs, .call _ f' ys => same f f' && sameAll xs ys
  | .member _ t k c, .member _ t' k' c' => same t t' && same k k' && c == c'
  | .bare _, .bare _ => true
  | _, _ => false

def sameAll : List Node → List Node → Bool
  | [], [] => true
  | x :: xs, y :: ys => same x y && sameAll xs ys
  | _, _ => false

end

end Node

/-- Whether two lists of one length have equal items, unless an item before the first difference
cannot be compared. -/
def compareAll {α : Type} (compare : α → α → Option Bool) : List α → List α → Option Bool
  | a :: as, b :: bs => compare a b <&&> compareAll compare as bs
  | _, _ => some true

/-- Whether two lists have equal items. Lists of two lengths differ, whatever is in them. -/
def compareLists {α : Type} (compare : α → α → Option Bool) (as bs : List α) : Option Bool :=
  if as.length = bs.length then compareAll compare as bs else some false

def SExpr.compare : Nat → SExpr → SExpr → Option Bool
  | 0, _, _ => none
  | depth + 1, .list as, .list bs => compareLists (compare depth) as bs
  | _ + 1, a, b => some (a.same b)

namespace Node

def compare : Nat → Node → Node → Option Bool
  | 0, _, _ => none
  | depth + 1, .literal _ k v, .literal _ k' v' => some (k == k') <&&> v.compare depth v'
  | depth + 1, .unary _ o x, .unary _ o' x' => some (o == o') <&&> compare depth x x'
  | depth + 1, .binary _ o x y, .binary _ o' x' y' =>
    some (o == o') <&&> compare depth x x' <&&> compare depth y y'
  | depth + 1, .logical _ o x y, .logical _ o' x' y' =>
    some (o == o') <&&> compare depth x x' <&&> compare depth y y'
  | depth + 1, .ternary _ x y z, .ternary _ x' y' z' =>
    compare depth x x' <&&> compare depth y y' <&&> compare depth z z'
  | depth + 1, .array _ xs, .array _ ys => compareLists (compare depth) xs ys
  | depth + 1, .object _ xs, .object _ ys => compareLists (compare depth) xs ys
  | depth + 1, .property _ k m ps v, .property _ k' m' ps' v' =>
    some (k == k' && m == m' && ps == ps') <&&> compare depth v v'
  | depth + 1, .assignment _ a v, .assignment _ b v' => some (a == b) <&&> compare depth v v'
  | depth + 1, .block _ xs, .block _ ys => compareLists (compare depth) xs ys
  | depth + 1, .arrow _ ps b, .arrow _ ps' b' => some (ps == ps') <&&> compare depth b b'
  | depth + 1, .call _ f xs, .call _ f' ys =>
    compare depth f f' <&&> compareLists (compare depth) xs ys
  | depth + 1, .member _ t k c, .member _ t' k' c' =>
    compare depth t t' <&&> compare depth k k' <&&> some (c == c')
  | _ + 1, a, b => some (a.same b)

/-- Whether two trees are different, or nothing if they agree too deep down. Trees of two forms always
are. -/
def differ? (depth : Nat) (a b : Node) : Option Bool :=
  if a.form = b.form then (compare depth a b).map (!·) else some true

def formChars (form : String) (parts : List (List Char)) : List Char :=
  form.toList ++ '(' :: [',', ' '].intercalate parts ++ [')']

def listChars (parts : List (List Char)) : List Char := '[' :: [',', ' '].intercalate parts ++ [']']

def nameChars (name : String) : List Char := Text.quotedChars name.toList

def flagChars (b : Bool) : List Char := if b then ['T', 'r', 'u', 'e'] else ['F', 'a', 'l', 's', 'e']

def listing : Nat → Node → Except SExpr.TextError (List Char)
  | 0, _ => .error .tooDeep
  | depth + 1, .literal _ kind value => do
    let shown ← value.listing depth
    .ok (formChars "Literal" [kind.name.toList, shown])
  | _ + 1, .ident _ name => .ok (formChars "Identifier" [nameChars name])
  | depth + 1, .unary _ op x => do
    let x ← listing depth x
    .ok (formChars "Unary" [nameChars op, x])
  | depth + 1, .binary _ op x y => do
    let x ← listing depth x
    let y ← listing depth y
    .ok (formChars "Binary" [nameChars op, x, y])
  | depth + 1, .logical _ op x y => do
    let x ← listing depth x
    let y ← listing depth y
    .ok (formChars "Logical" [nameChars op, x, y])
  | depth + 1, .ternary _ x y z => do
    let x ← listing depth x
    let y ← listing depth y
    let z ← listing depth z
    .ok (formChars "Ternary" [x, y, z])
  | depth + 1, .array _ xs => do
    let xs ← xs.mapM (listing depth)
    .ok (formChars "ArrayLiteral" [listChars xs])
  | depth + 1, .object _ xs => do
    let xs ← xs.mapM (listing depth)
    .ok (formChars "ObjectLiteral" [listChars xs])
  | depth + 1, .property _ key isMethod params value => do
    let value ← listing depth value
    .ok (formChars "Property"
      [nameChars key, flagChars isMethod, listChars (params.map nameChars), value])
  | depth + 1, .assignment _ name value => do
    let value ← listing depth value
    .ok (formChars "Assignment" [nameChars name, value])
  | depth + 1, .block _ xs => do
    let xs ← xs.mapM (listing depth)
    .ok (formChars "Block" [listChars xs])
  | depth + 1, .arrow _ params body => do
    let body ← listing depth body
    .ok (formChars "Arrow" [listChars (params.map nameChars), body])
  | depth + 1, .call _ callee args => do
    let callee ← listing depth callee
    let args ← args.mapM (listing depth)
    .ok (formChars "Call" [callee, listChars args])
  | depth + 1, .member _ target key computed => do
    let target ← listing depth target
    let key ← listing depth key
    .ok (formChars "Member" [target, key, flagChars computed])
  | _ + 1, .bare _ => .ok (formChars "Node" [])

def toListing (depth : Nat) (n : Node) : Except SExpr.TextError String :=
  String.ofList <$> n.listing depth

end Node

end Scriptlet
