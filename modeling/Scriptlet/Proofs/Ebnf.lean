import Scriptlet.Token.Scanner

/-! The grammar of scripts as rules, and what can be derived from them. Nothing here is about a parser. -/
namespace Scriptlet.Ebnf
open Token (Kind)

inductive Symbol where
  | program | expr | chain | unary | postfixed | args | primary | arrow | params | object | prop | block
  | stmt
  deriving DecidableEq, Repr

inductive Pattern where
  | empty
  | token (test : Token → Prop)
  | rule (symbol : Symbol)
  | seq (first second : Pattern)
  | alt (left right : Pattern)
  | star (inner : Pattern)
  /-- The inner pattern, where no token of some kind comes first. -/
  | notFirst (kind : Kind) (inner : Pattern)

instance : Append Pattern := ⟨.seq⟩
instance : OrOp Pattern := ⟨.alt⟩

def kind (k : Kind) : Pattern := .token fun t => t.kind = k

def opt (p : Pattern) : Pattern := p ||| .empty

def oneOf : List Pattern → Pattern
  | [] => .token fun _ => False
  | p :: more => p ||| oneOf more

def newlines : Pattern := .star (kind .newline)

def commaList (item : Pattern) : Pattern := item ++ (.star (kind .comma ++ item) ++ opt (kind .comma))

def binaryOperators : List Kind :=
  [.orOp, .andOp, .equal, .notEqual, .less, .greater, .lessEq, .greaterEq, .plus, .minus, .star, .slash,
   .percent]

def binop : Pattern := .token fun t => t.kind ∈ binaryOperators

def IsName (text : List Char) : Prop :=
  text ∉ [['t', 'r', 'u', 'e'], ['f', 'a', 'l', 's', 'e'], ['n', 'u', 'l', 'l']] ∧
    ∃ c rest, text = c :: rest ∧ (c.isAlpha = true ∨ c = '_') ∧
      ∀ d ∈ rest, d.isAlphanum = true ∨ d = '_'

def key : Pattern := .token fun t => t.kind = .ident ∨ (t.kind = .string ∧ IsName t.value.toList)

def suffixes : List Pattern :=
  [kind .dot ++ kind .ident, kind .lbracket ++ (.rule .expr ++ kind .rbracket), .rule .args]

def primaries : List Pattern :=
  [kind .number, kind .string, kind .trueWord, kind .falseWord, kind .nullWord, kind .ident,
   kind .lparen ++ (.rule .expr ++ kind .rparen),
   kind .lbracket ++ (opt (commaList (.rule .expr)) ++ kind .rbracket),
   .rule .object, .rule .arrow]

def production : Symbol → Pattern
  | .program => newlines ++ (.rule .expr ++ (newlines ++ kind .eof))
  | .expr => .rule .chain ++ opt (kind .question ++ (.rule .expr ++ (kind .colon ++ .rule .expr)))
  | .chain => .rule .unary ++ .star (binop ++ .rule .unary)
  | .unary => ((kind .notOp ||| kind .minus) ++ .rule .unary) ||| .rule .postfixed
  | .postfixed => .rule .primary ++ .star (oneOf suffixes)
  | .args => kind .lparen ++ (opt (commaList (.rule .expr)) ++ kind .rparen)
  | .primary => oneOf primaries
  | .arrow =>
    (kind .ident ||| .rule .params) ++
      (kind .arrow ++ (newlines ++ (.rule .block ||| .notFirst .lbrace (.rule .expr))))
  | .params => kind .lparen ++ (opt (commaList (kind .ident)) ++ kind .rparen)
  | .object =>
    kind .lbrace ++ (newlines ++
      (opt (.rule .prop ++ (newlines ++
        (.star (kind .comma ++ (newlines ++ (.rule .prop ++ newlines))) ++
          opt (kind .comma ++ newlines)))) ++
        kind .rbrace))
  | .prop =>
    (key ++ (.rule .params ++ (newlines ++ .rule .block))) ||| (key ++ (kind .colon ++ .rule .expr))
  | .block =>
    kind .lbrace ++ (newlines ++
      (opt (.rule .stmt ++ (.star ((kind .newline ++ newlines) ++ .rule .stmt) ++ newlines)) ++
        kind .rbrace))
  | .stmt => (kind .ident ++ (kind .assign ++ .rule .expr)) ||| .rule .expr

inductive Matches : Pattern → List Token → Prop where
  | empty : Matches .empty []
  | token {test t} (passes : test t) : Matches (.token test) [t]
  | rule {symbol s} (inner : Matches (production symbol) s) : Matches (.rule symbol) s
  | seq {p q : Pattern} {a b} (first : Matches p a) (second : Matches q b) : Matches (p ++ q) (a ++ b)
  | left {p q : Pattern} {s} (inner : Matches p s) : Matches (p ||| q) s
  | right {p q : Pattern} {s} (inner : Matches q s) : Matches (p ||| q) s
  | done {p} : Matches (.star p) []
  | again {p a b} (first : Matches p a) (more : Matches (.star p) b) : Matches (.star p) (a ++ b)
  | notFirst {k p s} (start : ∀ t ∈ s.head?, t.kind ≠ k) (inner : Matches p s) : Matches (.notFirst k p) s

def Derivable (tokens : List Token) : Prop := Matches (.rule .program) tokens

/- What a pattern says of tokens that all pass a test, if `holds` says it of the symbols in it. -/
def Pattern.Holds (test : Token → Prop) (holds : Symbol → List Token → Prop) : Pattern → List Token → Prop
  | .empty, s => s = []
  | .token passes, s => ∃ t, s = [t] ∧ passes t ∧ test t
  | .rule symbol, s => holds symbol s
  | .seq p q, s => ∃ a b, s = a ++ b ∧ p.Holds test holds a ∧ q.Holds test holds b
  | .alt p q, s => p.Holds test holds s ∨ q.Holds test holds s
  | .star p, s => ∃ parts : List (List Token), s = parts.flatten ∧ ∀ part ∈ parts, p.Holds test holds part
  | .notFirst k p, s => (∀ t ∈ s.head?, t.kind ≠ k) ∧ p.Holds test holds s

theorem Matches.holds {test : Token → Prop} {holds : Symbol → List Token → Prop}
    (step : ∀ symbol s, (production symbol).Holds test holds s → holds symbol s)
    {p : Pattern} {s : List Token} (derived : Matches p s) (tested : ∀ t ∈ s, test t) :
    p.Holds test holds s := by
  induction derived with
  | empty => rfl
  | token passes => exact ⟨_, rfl, passes, tested _ List.mem_cons_self⟩
  | rule _ ih => exact step _ _ (ih tested)
  | seq _ _ ih ih' =>
    refine ⟨_, _, rfl, ih fun t member => ?_, ih' fun t member => ?_⟩
    · exact tested t (List.mem_append_left _ member)
    · exact tested t (List.mem_append_right _ member)
  | left _ ih => exact Or.inl (ih tested)
  | right _ ih => exact Or.inr (ih tested)
  | done => exact ⟨[], rfl, by simp⟩
  | again _ _ ih ih' =>
    obtain ⟨parts, shape, all⟩ := ih' fun t member => tested t (List.mem_append_right _ member)
    refine ⟨_ :: parts, by rw [List.flatten_cons, ← shape], List.forall_mem_cons.mpr ⟨?_, all⟩⟩
    exact ih fun t member => tested t (List.mem_append_left _ member)
  | notFirst start _ ih => exact ⟨start, ih tested⟩

theorem oneOfHolds {test : Token → Prop} {holds : Symbol → List Token → Prop} {ps : List Pattern}
    {s : List Token} (one : (oneOf ps).Holds test holds s) : ∃ p ∈ ps, p.Holds test holds s := by
  induction ps with
  | nil =>
    obtain ⟨_, _, never, _⟩ := one
    exact never.elim
  | cons p more ih =>
    rcases one with first | other
    · exact ⟨p, List.mem_cons_self, first⟩
    · obtain ⟨q, member, found⟩ := ih other
      exact ⟨q, List.mem_cons_of_mem _ member, found⟩

end Scriptlet.Ebnf
