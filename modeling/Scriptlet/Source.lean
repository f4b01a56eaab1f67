import Scriptlet.Text

/-! Places in a source text, and what is wrong there. Lines and columns count from one and offsets from
zero, all in characters; only a line feed ends a line. -/
namespace Scriptlet

/-- A tree that was not read from a source may name any numbers. -/
structure Place where
  line : Int
  col : Int
  deriving DecidableEq, Repr, Inhabited

structure Position where
  offset : Nat
  place : Place
  deriving DecidableEq, Repr

namespace Position

def start : Position := ⟨0, ⟨1, 1⟩⟩

def step (p : Position) (c : Char) : Position :=
  ⟨p.offset + 1, if c = '\n' then ⟨p.place.line + 1, 1⟩ else ⟨p.place.line, p.place.col + 1⟩⟩

def after (p : Position) (text : List Char) : Position := text.foldl step p

theorem afterAppend (p : Position) (a b : List Char) : p.after (a ++ b) = (p.after a).after b := by
  simp [after]

theorem afterOffset (p : Position) (text : List Char) :
    (p.after text).offset = p.offset + text.length := by
  induction text generalizing p with
  | nil => rfl
  | cons c rest ih =>
    have head : (p.step c).offset = p.offset + 1 := rfl
    have tail := ih (p.step c)
    simp only [after, List.foldl_cons, List.length_cons] at tail ⊢
    omega

end Position

/-- An offset before the text counts as its start, and one past its end as its end. -/
def Place.ofOffset (source : List Char) (offset : Int) : Place :=
  let before := source.take offset.toNat
  ⟨Int.ofNat (before.count '\n') + 1, Int.ofNat (before.reverse.takeWhile (· ≠ '\n')).length + 1⟩

structure Diagnostic where
  text : String
  offset : Int := 0
  source : String := ""
  deriving DecidableEq, Repr

namespace Diagnostic

def place (d : Diagnostic) : Place := Place.ofOffset d.source.toList d.offset

def snippet (d : Diagnostic) : List Char :=
  (Text.lines d.source.toList)[(d.place.line - 1).toNat]?.getD []

def heading (d : Diagnostic) : String :=
  if d.source.isEmpty then "error: " ++ d.text
  else toString d.place.line ++ ":" ++ toString d.place.col ++ ": error: " ++ d.text

def render (d : Diagnostic) : String :=
  if d.snippet.all Text.isBlank then d.heading
  else d.heading ++ "\n" ++ String.ofList d.snippet ++ "\n" ++
    String.ofList (List.replicate (d.place.col - 1).toNat ' ') ++ "^"

end Diagnostic

end Scriptlet
