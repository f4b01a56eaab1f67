import Scriptlet.Proofs.Layout

/-! A tree written as a script, with round brackets around every expression that stands inside another,
and the tokens that a scan finds in it. -/
namespace Scriptlet

open Token (Kind Bracket Fresh)

namespace Piece

def commas : List (List Piece) → List Piece
  | [] => []
  | [item] => item
  | item :: more => item ++ .mark .comma :: .blank :: commas more

def names (params : List String) : List Piece :=
  .mark .lparen :: (commas (params.map fun name => [.word name]) ++ [.mark .rparen])

def lines (items : List (List Piece)) : List Piece := items.flatMap fun item => item ++ [.line]

def operator (op : String) : Piece := .mark ((Kind.marks.lookup op.toList).getD .eof)

end Piece

namespace Node
open Piece (commas names lines operator)

/- Expressions stand in round brackets inside others; entries, assignments and blocks do not. -/
def enclosed (x : Node) (pieces : List Piece) : List Piece :=
  match x with
  | .property .. | .assignment .. | .block .. => pieces
  | _ => .mark .lparen :: (pieces ++ [.mark .rparen])

mutual

def layout : Node → List Piece
  | .literal _ _ (.int n) => [.number n.toNat]
  | .literal _ _ (.str s) => [.string s]
  | .literal _ _ (.bool b) => [.mark (if b then .trueWord else .falseWord)]
  | .literal _ _ .null => [.mark .nullWord]
  | .literal .. | .bare _ => []
  | .ident _ name => [.word name]
  | .unary _ op x => operator op :: enclosed x (layout x)
  | .binary _ op x y | .logical _ op x y =>
    enclosed x (layout x) ++ .blank :: operator op :: .blank :: enclosed y (layout y)
  | .ternary _ x y z =>
    enclosed x (layout x) ++ .blank :: .mark .question :: .blank ::
      (enclosed y (layout y) ++ .blank :: .mark .colon :: .blank :: enclosed z (layout z))
  | .array _ xs => .mark .lbracket :: (commas (layouts xs) ++ [.mark .rbracket])
  | .object _ xs => .mark .lbrace :: (commas (layouts xs) ++ [.mark .rbrace])
  | .property _ key true params x => .word key :: (names params ++ .blank :: enclosed x (layout x))
  | .property _ key false _ x => .word key :: .mark .colon :: .blank :: enclosed x (layout x)
  | .assignment _ name x => .word name :: .blank :: .mark .assign :: .blank :: enclosed x (layout x)
  | .block _ xs => .mark .lbrace :: .fold :: (lines (layouts xs) ++ [.mark .rbrace])
  | .arrow _ params x => names params ++ .blank :: .mark .arrow :: .blank :: enclosed x (layout x)
  | .call _ f xs => enclosed f (layout f) ++ .mark .lparen :: (commas (layouts xs) ++ [.mark .rparen])
  | .member _ x (.literal _ _ (.str name)) false => enclosed x (layout x) ++ [.mark .dot, .word name]
  | .member _ x y _ => enclosed x (layout x) ++ .mark .lbracket :: (enclosed y (layout y) ++ [.mark .rbracket])

def layouts : List Node → List (List Piece)
  | [] => []
  | x :: xs => enclosed x (layout x) :: layouts xs

end

def part (x : Node) : List Piece := enclosed x (layout x)

def written (x : Node) : String := String.ofList (Piece.textAll x.layout)

theorem layoutsMap (xs : List Node) : layouts xs = xs.map part := by
  induction xs with
  | nil => rw [layouts]; rfl
  | cons x xs ih => rw [layouts, ih]; rfl

theorem propertyPart (p : Place) (key : String) (isMethod : Bool) (params : List String) (x : Node) :
    (property p key isMethod params x).part = (property p key isMethod params x).layout := rfl

theorem assignmentPart (p : Place) (name : String) (x : Node) :
    (assignment p name x).part = (assignment p name x).layout := rfl

theorem blockPart (p : Place) (xs : List Node) : (block p xs).part = (block p xs).layout := rfl

theorem indexLayout (p : Place) (x y : Node) :
    (member p x y true).layout = x.part ++ .mark .lbracket :: (y.part ++ [.mark .rbracket]) := by
  rw [layout]
  · rfl
  · exact fun _ _ _ _ computed => nomatch computed

theorem Fits.part {x : Node} (fits : Fits .value x) : x.part = .mark .lparen :: (x.layout ++ [.mark .rparen]) := by
  cases fits <;> rfl

end Node

/- Pieces that leave the open brackets as they are, in front of a text that they do not join. -/
def Settles (pieces : List Piece) : Prop :=
  ∀ m after, Fresh after → ∃ last, Recovers m pieces after ⟨m.brackets, last⟩

def EndsWith (kind : Kind) (pieces : List Piece) : Prop :=
  ∀ m after, Recovers m pieces after ⟨m.brackets, some kind⟩

theorem EndsWith.settles {kind : Kind} {pieces : List Piece} (ends : EndsWith kind pieces) : Settles pieces :=
  fun m after _ => ⟨_, ends m after⟩

theorem enclosedEnds {pieces : List Piece} (settles : Settles pieces) :
    EndsWith .rparen (.mark .lparen :: (pieces ++ [.mark .rparen])) := by
  intro m after
  obtain ⟨last, inner⟩ := settles ⟨.paren :: m.brackets, some .lparen⟩ (')' :: after) (.cons (by decide))
  exact .opens .paren (inner.append (.closes .paren .done))

theorem commasSettle {items : List (List Piece)} (each : ∀ item ∈ items, Settles item) :
    Settles (Piece.commas items) := by
  intro m after fresh
  induction items using Piece.commas.induct generalizing m with
  | case1 => exact ⟨m.last, .done⟩
  | case2 item => exact each item List.mem_cons_self m after fresh
  | case3 item more some ih =>
    obtain ⟨first, others⟩ := List.forall_mem_cons.mp each
    obtain ⟨last, front⟩ := first m (',' :: ' ' :: (Piece.textAll (Piece.commas more) ++ after))
      (.cons (by decide))
    obtain ⟨last', back⟩ := ih others ⟨m.brackets, Option.some .comma⟩
    rw [Piece.commas]
    · exact ⟨last', front.append (.sign (by decide) (nomatch ·) (.blank back))⟩
    · exact some

theorem namesEnd {params : List String} (words : ∀ name ∈ params, Node.IsName name) :
    EndsWith .rparen (Piece.names params) := by
  refine enclosedEnds (commasSettle fun item member => ?_)
  obtain ⟨name, inside, rfl⟩ := List.mem_map.mp member
  exact fun m after fresh => ⟨_, .name (words name inside) fresh .done⟩

theorem linesRecover {items : List (List Piece)} (each : ∀ item ∈ items, EndsWith .rparen item)
    (outer : List Bracket) (after : List Char) (last : Option Kind) :
    ∃ last', Recovers ⟨.brace :: outer, last⟩ (Piece.lines items) after ⟨.brace :: outer, last'⟩ := by
  induction items generalizing last with
  | nil => exact ⟨last, .done⟩
  | cons item items ih =>
    obtain ⟨first, others⟩ := List.forall_mem_cons.mp each
    obtain ⟨last', more⟩ := ih others (some .rparen)
    have front := first ⟨.brace :: outer, last⟩
    refine ⟨last', ?_⟩
    show Recovers _ ((item ++ [.line]) ++ Piece.lines items) after _
    rw [List.append_assoc]
    exact (front _).append (.line rfl more)

namespace Node
open Piece (commas names lines operator)

def Recovered : Position → Node → Prop
  | .value, x => Settles x.layout
  | .statement, x => EndsWith .rparen x.part
  | .entry, x => Settles x.part
  | .body, x => EndsWith .rbrace x.part

theorem Fits.partEnds {x : Node} (fits : Fits .value x) (settles : Settles x.layout) :
    EndsWith .rparen x.part := by
  rw [fits.part]
  exact enclosedEnds settles

theorem operatorListed {op : String} (known : op ∈ unaryOperators ++ (binaryOperators ++ logicalOperators)) :
    ∃ kind, operator op = .mark kind ∧ kind ∈ Kind.marks.map Prod.snd ∧ Bracket.isMark kind = false := by
  have table : ∀ op ∈ unaryOperators ++ (binaryOperators ++ logicalOperators),
      (Kind.marks.lookup op.toList).getD .eof ∈ Kind.marks.map Prod.snd ∧
        Bracket.isMark ((Kind.marks.lookup op.toList).getD .eof) = false := by decide
  exact ⟨_, rfl, table op known⟩

theorem pairSettles {op : String} (known : op ∈ unaryOperators ++ (binaryOperators ++ logicalOperators))
    {left right : List Piece} (first : EndsWith .rparen left) (second : EndsWith .rparen right) :
    Settles (left ++ .blank :: operator op :: .blank :: right) := by
  intro m after _
  obtain ⟨kind, same, listed⟩ := operatorListed known
  rw [same]
  exact ⟨_, (first m _).append (.blank (.sign listed (fun _ => .cons (by decide)) (.blank (second _ _))))⟩

theorem partsOf {xs : List Node} {holds : List Piece → Prop} (each : ∀ x ∈ xs, holds x.part) :
    ∀ item ∈ layouts xs, holds item := by
  rw [layoutsMap]
  exact List.forall_mem_map.mpr each

theorem Fits.recovered {position : Position} {x : Node} (fits : Fits position x) : Recovered position x := by
  induction fits with
  | number unsigned =>
    cases unsigned with
    | int n => exact fun m after fresh => ⟨_, .number fresh .done⟩
    | float code => exact fun m after _ => ⟨m.last, .done⟩
  | string => exact fun m after _ => ⟨_, .string .done⟩
  | @bool _ b =>
    intro m after fresh
    cases b with
    | true => exact ⟨_, .keyword (by decide) fresh .done⟩
    | false => exact ⟨_, .keyword (by decide) fresh .done⟩
  | null => exact fun m after fresh => ⟨_, .keyword (by decide) fresh .done⟩
  | ident word => exact fun m after fresh => ⟨_, .name word fresh .done⟩
  | @unary _ op x operator operand ih =>
    intro m after _
    obtain ⟨kind, same, listed⟩ := operatorListed (List.mem_append_left _ operator)
    have inner := operand.partEnds ih
    rw [operand.part] at inner
    rw [layout, same]
    change ∃ last, Recovers m (.mark kind :: x.part) after _
    rw [operand.part]
    exact ⟨_, .sign listed (fun _ => .cons (by decide)) (inner _ _)⟩
  | binary operator left right ih ih' =>
    rw [Recovered, layout]
    exact pairSettles (by simp [operator]) (left.partEnds ih) (right.partEnds ih')
  | logical operator left right ih ih' =>
    rw [Recovered, layout]
    exact pairSettles (by simp [operator]) (left.partEnds ih) (right.partEnds ih')
  | ternary cond yes no ih ih' ih'' =>
    intro m after _
    have first := cond.partEnds ih
    have second := yes.partEnds ih'
    have third := no.partEnds ih''
    rw [layout]
    exact ⟨_, (first m _).append (.blank (.sign (by decide) (nomatch ·) (.blank
      ((second _ _).append (.blank (.sign (by decide) (nomatch ·) (.blank (third _ _))))))))⟩
  | array elements ih =>
    intro m after _
    have items := commasSettle (partsOf fun x member => ((elements x member).partEnds (ih x member)).settles)
    obtain ⟨last, inner⟩ := items ⟨.square :: m.brackets, some .lbracket⟩ (']' :: after) (.cons (by decide))
    rw [layout]
    exact ⟨_, .opens .square (inner.append (.closes .square .done))⟩
  | object entries ih =>
    intro m after _
    have items := commasSettle (partsOf ih)
    obtain ⟨last, inner⟩ := items ⟨.brace :: m.brackets, some .lbrace⟩ ('\x7d' :: after) (.cons (by decide))
    rw [layout]
    exact ⟨_, .opens .brace (inner.append (.closes .brace .done))⟩
  | arrow words result ih =>
    intro m after _
    rw [layout]
    exact ⟨_, (namesEnd words m _).append (.blank (.sign (by decide) (nomatch ·) (.blank
      (result.partEnds ih _ _))))⟩
  | arrowOfBlock words body ih =>
    intro m after _
    rw [layout]
    exact ⟨_, (namesEnd words m _).append (.blank (.sign (by decide) (nomatch ·) (.blank (ih _ _))))⟩
  | call callee args ih ih' =>
    intro m after _
    have items := commasSettle (partsOf fun x member => ((args x member).partEnds (ih' x member)).settles)
    rw [layout]
    exact ⟨_, (callee.partEnds ih m _).append (enclosedEnds items _ _)⟩
  | index target key ih ih' =>
    intro m after _
    rw [indexLayout]
    exact ⟨_, (target.partEnds ih m _).append (.opens .square
      ((key.partEnds ih' _ _).append (.closes .square .done)))⟩
  | name target word ih =>
    intro m after fresh
    rw [layout]
    exact ⟨_, (target.partEnds ih m _).append (.sign (by decide) (nomatch ·) (.name word fresh .done))⟩
  | method word words body ih =>
    intro m after _
    rw [propertyPart, layout]
    exact ⟨_, .name word (.cons (by decide)) ((namesEnd words _ _).append (.blank (ih _ _)))⟩
  | plain word value ih =>
    intro m after _
    rw [propertyPart, layout]
    exact ⟨_, .name word (.cons (by decide)) (.sign (by decide) (nomatch ·) (.blank (value.partEnds ih _ _)))⟩
  | block statements ih =>
    intro m after
    rw [blockPart, layout]
    obtain ⟨last, inner⟩ := linesRecover (partsOf ih) m.brackets ('\x7d' :: after) (some .lbrace)
    exact .opens .brace (.fold rfl (inner.append (.closes .brace .done)))
  | assignment word value ih =>
    intro m after
    rw [assignmentPart, layout]
    exact .name word (.cons (by decide)) (.blank (.sign (by decide) (fun _ => .cons (by decide))
      (.blank (value.partEnds ih _ _))))
  | expression value ih => exact value.partEnds ih

end Node

end Scriptlet
