import Scriptlet.Parse.Grammar
import Scriptlet.Proofs.Ebnf

/-! Round brackets match in everything that can be derived, so the search for an arrow after a closing
bracket passes over it. -/
namespace Scriptlet.Parse
open Token (Kind)
open Ebnf (Pattern)

def Balanced (s : List Token) : Prop :=
  ∀ depth after, arrowAhead depth (s ++ after) = arrowAhead depth after

namespace Balanced

theorem nil : Balanced [] := fun _ _ => rfl

theorem append {a b : List Token} (first : Balanced a) (second : Balanced b) : Balanced (a ++ b) := by
  intro depth after
  rw [List.append_assoc, first, second]

theorem flatten {parts : List (List Token)} (all : ∀ part ∈ parts, Balanced part) :
    Balanced parts.flatten := by
  induction parts with
  | nil => exact nil
  | cons part more ih =>
    obtain ⟨first, rest⟩ := List.forall_mem_cons.mp all
    exact append first (ih rest)

theorem single {t : Token} (noOpening : t.kind ≠ .lparen) (noClosing : t.kind ≠ .rparen) :
    Balanced [t] := by
  intro depth after
  rw [List.singleton_append, arrowAhead.eq_def]
  dsimp only
  split
  · exact absurd ‹_› noOpening
  · exact absurd ‹_› noClosing
  · rfl

theorem bracketed {o c : Token} {inner : List Token} (opening : o.kind = .lparen)
    (closing : c.kind = .rparen) (balanced : Balanced inner) : Balanced (o :: (inner ++ [c])) := by
  intro depth after
  simp only [List.cons_append, List.append_assoc, arrowAhead, opening]
  rw [balanced]
  simp only [arrowAhead, closing, List.nil_append]

end Balanced

def NoBrackets : Pattern → Prop
  | .empty | .rule _ => True
  | .token test => ∀ t, test t → t.kind ≠ .lparen ∧ t.kind ≠ .rparen
  | .seq p q | .alt p q => NoBrackets p ∧ NoBrackets q
  | .star p | .notFirst _ p => NoBrackets p

section Patterns
variable {test : Token → Prop} {holds : Ebnf.Symbol → List Token → Prop}
  (balanced : ∀ {symbol s}, holds symbol s → Balanced s)
include balanced

theorem patternBalanced {p : Pattern} (free : NoBrackets p) {s : List Token}
    (found : p.Holds test holds s) : Balanced s := by
  induction p generalizing s with
  | empty =>
    cases found
    exact .nil
  | token passes =>
    obtain ⟨t, rfl, passed, _⟩ := found
    exact .single (free t passed).1 (free t passed).2
  | rule symbol => exact balanced found
  | seq p q ih ih' =>
    obtain ⟨a, b, rfl, first, second⟩ := found
    exact .append (ih free.1 first) (ih' free.2 second)
  | alt p q ih ih' =>
    rcases found with left | right
    · exact ih free.1 left
    · exact ih' free.2 right
  | star p ih =>
    obtain ⟨parts, rfl, all⟩ := found
    exact .flatten fun part member => ih free (all part member)
  | notFirst k p ih => exact ih free found.2

theorem bracketsBalanced {p : Pattern} (free : NoBrackets p) {s : List Token}
    (found : (Ebnf.kind .lparen ++ (p ++ Ebnf.kind .rparen)).Holds test holds s) : Balanced s := by
  obtain ⟨_, _, rfl, ⟨o, rfl, opening, _⟩, inner, _, rfl, middle, ⟨c, rfl, closing, _⟩⟩ := found
  exact .bracketed opening closing (patternBalanced balanced free middle)

end Patterns

@[simp] theorem seqNoBrackets {p q : Pattern} : NoBrackets (p ++ q) ↔ NoBrackets p ∧ NoBrackets q := Iff.rfl

@[simp] theorem altNoBrackets {p q : Pattern} : NoBrackets (p ||| q) ↔ NoBrackets p ∧ NoBrackets q := Iff.rfl

@[simp] theorem kindNoBrackets {k : Kind} : NoBrackets (Ebnf.kind k) ↔ k ≠ .lparen ∧ k ≠ .rparen := by
  constructor
  · intro free
    exact free ⟨k, "", "", 0, default⟩ rfl
  · rintro free t rfl
    exact free

@[simp] theorem binopNoBrackets : NoBrackets Ebnf.binop := by
  intro t operator
  constructor
  · intro kind
    rw [kind] at operator
    exact absurd operator (by decide)
  · intro kind
    rw [kind] at operator
    exact absurd operator (by decide)

@[simp] theorem keyNoBrackets : NoBrackets Ebnf.key := by
  rintro t (ident | ⟨string, _⟩)
  · simp [ident]
  · simp [string]

theorem productionNoBrackets {symbol : Ebnf.Symbol} (args : symbol ≠ .args) (params : symbol ≠ .params)
    (primary : symbol ≠ .primary) : NoBrackets (Ebnf.production symbol) := by
  cases symbol <;>
    simp_all [NoBrackets, Ebnf.production, Ebnf.newlines, Ebnf.opt, Ebnf.oneOf, Ebnf.suffixes]

theorem listNoBrackets {item : Pattern} (free : NoBrackets item) :
    NoBrackets (Ebnf.opt (Ebnf.commaList item)) := by
  simp [NoBrackets, Ebnf.opt, Ebnf.commaList, free]

theorem primariesNoBrackets {p : Pattern} (member : p ∈ Ebnf.primaries)
    (other : p ≠ Ebnf.kind .lparen ++ (.rule .expr ++ Ebnf.kind .rparen)) : NoBrackets p := by
  have list : NoBrackets (Ebnf.opt (Ebnf.commaList (.rule .expr))) := listNoBrackets trivial
  simp only [Ebnf.primaries, List.mem_cons, List.not_mem_nil, or_false] at member
  rcases member with rfl | rfl | rfl | rfl | rfl | rfl | rfl | rfl | rfl | rfl <;> simp_all [NoBrackets]

theorem ruleBalanced {test : Token → Prop} {holds : Ebnf.Symbol → List Token → Prop}
    (balanced : ∀ {symbol s}, holds symbol s → Balanced s) (symbol : Ebnf.Symbol) {s : List Token}
    (found : (Ebnf.production symbol).Holds test holds s) : Balanced s := by
  by_cases args : symbol = .args
  · subst args
    have free : NoBrackets (.rule .expr) := trivial
    exact bracketsBalanced balanced (listNoBrackets free) found
  by_cases params : symbol = .params
  · subst params
    have free : NoBrackets (Ebnf.kind .ident) := kindNoBrackets.mpr (by decide)
    exact bracketsBalanced balanced (listNoBrackets free) found
  by_cases primary : symbol = .primary
  · subst primary
    obtain ⟨p, member, inner⟩ := Ebnf.oneOfHolds found
    by_cases group : p = Ebnf.kind .lparen ++ (.rule .expr ++ Ebnf.kind .rparen)
    · subst group
      have free : NoBrackets (.rule .expr) := trivial
      exact bracketsBalanced balanced free inner
    · exact patternBalanced balanced (primariesNoBrackets member group) inner
  exact patternBalanced balanced (productionNoBrackets args params primary) found

end Scriptlet.Parse
