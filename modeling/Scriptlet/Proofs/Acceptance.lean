import Scriptlet.Compile
import Scriptlet.Proofs.Balance
import Scriptlet.Proofs.Derivation
import Scriptlet.Proofs.ParserFinds
import Scriptlet.Proofs.Tails
import Scriptlet.Proofs.TiedRules
import Scriptlet.Proofs.TokenShapes

/-! Whatever can be derived is read, so the parser accepts what the grammar derives and nothing else. -/
namespace Scriptlet.Parse
open Token (Kind)
open Ebnf (Pattern Symbol)

def Valued (t : Token) : Prop := t.kind = .number → ∃ v, ∀ s, number t s = .ok (v, s)

/- Tokens that make an expression together with every tail. -/
def Extends (s : List Token) : Prop :=
  s ≠ [] ∧ ∀ ext rest, Tail ext rest → headKind (ext ++ rest) ≠ .arrow →
    ∃ x, Reads (.expression x) (s ++ ext) rest

theorem Extends.reads {s rest : List Token} (extends' : Extends s) (closes : Closes rest) :
    ∃ x, Reads (.expression x) s rest := by
  obtain ⟨x, reads⟩ := extends'.2 [] rest (.empty closes) (closes.not (by decide))
  rw [List.append_nil] at reads
  exact ⟨x, reads⟩

def Readable : Symbol → List Token → Prop
  | .program, s => ∃ before used after stop, s = before ++ (used ++ (after ++ [stop])) ∧
      Newlines before ∧ Newlines after ∧ stop.kind = .eof ∧ Extends used
  | .expr, s | .chain, s | .unary, s | .postfixed, s | .primary, s | .arrow, s => Extends s
  | .args, s => ∃ o inner, s = o :: inner ∧ o.kind = .lparen ∧
      ∀ after, ∃ xs, Reads (.items .rparen xs) inner after
  | .params, s => ∃ o inner, s = o :: inner ∧ o.kind = .lparen ∧
      (∀ after, ∃ names, Reads (.names names) inner after) ∧
      ∀ arrow after, arrow.kind = .arrow → arrowAhead 0 (inner ++ arrow :: after) = true
  | .object, s => s ≠ [] ∧ ∀ after, ∃ x, Reads (.primary x) s after
  | .prop, s => ∀ after, Closes after → ∃ x, Reads (.entry x) s after
  | .block, s => ∀ after, ∃ x, Reads (.block x) s after
  | .stmt, s => ∀ after, Closes after → ∃ x, Reads (.statement x) s after

def Derived (symbol : Symbol) (s : List Token) : Prop := Balanced s ∧ Readable symbol s

theorem primaryExtends {s : List Token} (some : s ≠ [])
    (reads : ∀ after, headKind after ≠ .arrow → ∃ x, Reads (.primary x) s after) : Extends s := by
  refine ⟨some, fun ext rest tail noArrow => ?_⟩
  obtain ⟨x, primary⟩ := reads (ext ++ rest) noArrow
  exact primaryTail primary tail

theorem newlinesHold {s : List Token} (found : Ebnf.newlines.Holds Valued Derived s) : Newlines s := by
  obtain ⟨parts, rfl, all⟩ := found
  intro t member
  obtain ⟨part, inside, here⟩ := List.mem_flatten.mp member
  obtain ⟨t', rfl, kind, _⟩ := all part inside
  rw [List.mem_singleton.mp here]
  exact kind

theorem commaListHolds {α : Type} {p : Pattern} {item : α → List Token → List Token → Prop}
    {closing : Kind} (reads : ∀ s, p.Holds Valued Derived s → ∀ (t : Token) (rest : List Token),
      t.kind = closing ∨ t.kind = .comma → ∃ a, item a s (t :: rest))
    {inner : List Token} {c : Token} (close : c.kind = closing)
    (found : (Ebnf.opt (Ebnf.commaList p)).Holds Valued Derived inner) (after : List Token) :
    ∃ as, CommaList item closing as (inner ++ [c]) after := by
  rcases found with ⟨a, _, rfl, first, _, final, rfl, ⟨parts, rfl, all⟩, last⟩ | rfl
  · -- from the last item to the first
    induction parts generalizing a with
    | nil =>
      rcases last with ⟨comma, rfl, kind, _⟩ | rfl
      · obtain ⟨x, read⟩ := reads a first comma ([c] ++ after) (Or.inr kind)
        exact ⟨[x], by simpa using CommaList.more kind read (.none close)⟩
      · obtain ⟨x, read⟩ := reads a first c after (Or.inl close)
        exact ⟨[x], by simpa using CommaList.last close read⟩
    | cons part parts ih =>
      obtain ⟨⟨_, next, rfl, ⟨comma, rfl, kind, _⟩, item⟩, others⟩ := List.forall_mem_cons.mp all
      obtain ⟨as, list⟩ := ih next item others
      obtain ⟨x, read⟩ := reads a first comma _ (Or.inr kind)
      exact ⟨x :: as, by simpa using CommaList.more kind read list⟩
  · exact ⟨[], .none close⟩

theorem itemsHold {closing : Kind} (bracket : closing = .rparen ∨ closing = .rbracket) {inner : List Token}
    {c : Token} (close : c.kind = closing)
    (found : (Ebnf.opt (Ebnf.commaList (.rule .expr))).Holds Valued Derived inner) (after : List Token) :
    ∃ xs, Reads (.items closing xs) (inner ++ [c]) after := by
  have reads : ∀ s, (Pattern.rule .expr).Holds Valued Derived s → ∀ (t : Token) (rest : List Token),
      t.kind = closing ∨ t.kind = .comma → ∃ x, Reads (.expression x) s (t :: rest) := by
    intro s item t rest stop
    refine item.2.reads (.cons ?_)
    rcases stop with stop | stop
    · rcases bracket with rfl | rfl <;> simp [stop]
    · simp [stop]
  obtain ⟨xs, list⟩ := commaListHolds reads close found after
  exact ⟨xs, itemsOfCommaList list⟩

theorem namesHold {inner : List Token} {c : Token} (close : c.kind = .rparen)
    (found : (Ebnf.opt (Ebnf.commaList (Ebnf.kind .ident))).Holds Valued Derived inner)
    (after : List Token) : ∃ names, Reads (.names names) (inner ++ [c]) after := by
  have reads : ∀ s, (Ebnf.kind .ident).Holds Valued Derived s → ∀ (t : Token) (rest : List Token),
      t.kind = .rparen ∨ t.kind = .comma → ∃ name, OneWord name s (t :: rest) := by
    rintro s ⟨name, rfl, word, _⟩ t rest _
    exact ⟨name, rfl, word⟩
  obtain ⟨names, list⟩ := commaListHolds reads close found after
  exact ⟨names, namesOfCommaList list⟩

theorem argsStep {s : List Token} (found : (Ebnf.production .args).Holds Valued Derived s) :
    Readable .args s := by
  obtain ⟨_, _, rfl, ⟨o, rfl, opening, _⟩, inner, _, rfl, items, ⟨c, rfl, closing, _⟩⟩ := found
  exact ⟨o, inner ++ [c], rfl, opening, itemsHold (Or.inl rfl) closing items⟩

theorem paramsStep {s : List Token} (found : (Ebnf.production .params).Holds Valued Derived s) :
    Readable .params s := by
  obtain ⟨_, _, rfl, ⟨o, rfl, opening, _⟩, inner, _, rfl, names, ⟨c, rfl, closing, _⟩⟩ := found
  refine ⟨o, inner ++ [c], rfl, opening, namesHold closing names, fun mark after arrow => ?_⟩
  have word : NoBrackets (Ebnf.kind .ident) := kindNoBrackets.mpr (by decide)
  have balanced : Balanced inner := patternBalanced And.left (listNoBrackets word) names
  rw [List.append_assoc, balanced]
  simp [arrowAhead, closing, arrow]

theorem groupExtends {o c : Token} {a : List Token} (opening : o.kind = .lparen)
    (closing : c.kind = .rparen) (inner : Derived .expr a) : Extends (o :: (a ++ [c])) := by
  refine primaryExtends (by simp) fun after noArrow => ?_
  have closes : Closes (c :: after) := .cons (by simp [closing])
  obtain ⟨x, reads⟩ := inner.2.reads closes
  refine ⟨x, .group opening closing ?_ reads⟩
  rw [inner.1]
  cases after with
  | nil => simp [arrowAhead, closing]
  | cons t more => simpa [arrowAhead, closing, headKindCons] using noArrow

theorem primaryStep {s : List Token} (found : (Ebnf.production .primary).Holds Valued Derived s) :
    Extends s := by
  obtain ⟨p, member, inner⟩ := Ebnf.oneOfHolds found
  simp only [Ebnf.primaries, List.mem_cons, List.not_mem_nil, or_false] at member
  rcases member with rfl | rfl | rfl | rfl | rfl | rfl | rfl | rfl | rfl | rfl
  · obtain ⟨t, rfl, kind, valued⟩ := inner
    obtain ⟨v, value⟩ := valued kind
    exact primaryExtends (by simp) fun after _ => ⟨_, .number kind (value after)⟩
  · obtain ⟨t, rfl, kind, _⟩ := inner
    exact primaryExtends (by simp) fun after _ => ⟨_, .string kind⟩
  · obtain ⟨t, rfl, kind, _⟩ := inner
    exact primaryExtends (by simp) fun after _ => ⟨_, .truth kind⟩
  · obtain ⟨t, rfl, kind, _⟩ := inner
    exact primaryExtends (by simp) fun after _ => ⟨_, .falsity kind⟩
  · obtain ⟨t, rfl, kind, _⟩ := inner
    exact primaryExtends (by simp) fun after _ => ⟨_, .null kind⟩
  · obtain ⟨t, rfl, kind, _⟩ := inner
    exact primaryExtends (by simp) fun after noArrow => ⟨_, .ident kind noArrow⟩
  · obtain ⟨_, _, rfl, ⟨o, rfl, opening, _⟩, a, _, rfl, middle, ⟨c, rfl, closing, _⟩⟩ := inner
    exact groupExtends opening closing middle
  · obtain ⟨_, _, rfl, ⟨o, rfl, opening, _⟩, a, _, rfl, items, ⟨c, rfl, closing, _⟩⟩ := inner
    refine primaryExtends (by simp) fun after _ => ?_
    obtain ⟨xs, reads⟩ := itemsHold (Or.inr rfl) closing items after
    exact ⟨_, .array opening reads⟩
  · obtain ⟨some, reads⟩ := inner.2
    exact primaryExtends some fun after _ => reads after
  · exact inner.2

theorem bodyExtends {front newlines body : List Token} (some : front ≠ []) (skipped : Newlines newlines)
    (found : (Pattern.rule .block ||| .notFirst .lbrace (.rule .expr)).Holds Valued Derived body)
    (function : ∀ {b rest : List Token} {x : Node}, Reads (.body x) b rest →
      ∃ y, Reads (.primary y) (front ++ b) rest) :
    Extends (front ++ (newlines ++ body)) := by
  rcases found with block | ⟨start, inner⟩
  · refine primaryExtends (by simp [some]) fun after _ => ?_
    obtain ⟨x, reads⟩ := block.2 after
    exact function (.blockBody skipped reads)
  · refine ⟨by simp [some], fun ext rest tail noArrow => ?_⟩
    obtain ⟨x, reads⟩ := inner.2.2 ext rest tail noArrow
    have noBrace : headKind ((body ++ ext) ++ rest) ≠ .lbrace := by
      obtain ⟨t, more, rfl⟩ := List.exists_cons_of_ne_nil inner.2.1
      exact start t rfl
    obtain ⟨y, primary⟩ := function (.expressionBody skipped noBrace reads)
    have ends : Tail [] rest := .empty tail.closes
    obtain ⟨z, whole⟩ := primaryTail (show Reads _ _ ([] ++ rest) from primary) ends
    exact ⟨z, by simpa using whole⟩

theorem arrowStep {s : List Token} (found : (Ebnf.production .arrow).Holds Valued Derived s) :
    Extends s := by
  obtain ⟨front, _, rfl, params, _, _, rfl, ⟨mark, rfl, arrow, _⟩, newlines, body, rfl, skipped, inner⟩ := found
  have skipped := newlinesHold skipped
  rcases params with ⟨t, rfl, word, _⟩ | ⟨_, o, names, rfl, opening, reads, ahead⟩
  · show Extends ([t, mark] ++ (newlines ++ body))
    exact bodyExtends (by simp) skipped inner fun body => ⟨_, .arrowOfName word arrow body⟩
  · have shape : (o :: names) ++ ([mark] ++ (newlines ++ body)) = (o :: (names ++ [mark])) ++ (newlines ++ body) := by
      simp
    rw [shape]
    refine bodyExtends (by simp) skipped inner fun {b rest x} body => ?_
    obtain ⟨params, reads⟩ := reads (mark :: (b ++ rest))
    have whole := Reads.arrowOfNames opening arrow (ahead mark (b ++ rest) arrow) reads body
    exact ⟨_, by simpa using whole⟩

theorem suffixStep {part ext rest : List Token}
    (found : (Ebnf.oneOf Ebnf.suffixes).Holds Valued Derived part) (tail : Tail ext rest) :
    Tail (part ++ ext) rest ∧ headKind (part ++ ext ++ rest) ≠ .arrow := by
  obtain ⟨p, member, inner⟩ := Ebnf.oneOfHolds found
  simp only [Ebnf.suffixes, List.mem_cons, List.not_mem_nil, or_false] at member
  rcases member with rfl | rfl | rfl
  · obtain ⟨_, _, rfl, ⟨dot, rfl, mark, _⟩, ⟨name, rfl, word, _⟩⟩ := inner
    exact ⟨nameTail mark word tail, by simp [headKindCons, mark]⟩
  · obtain ⟨_, _, rfl, ⟨o, rfl, opening, _⟩, a, _, rfl, middle, ⟨c, rfl, closing, _⟩⟩ := inner
    have closes : Closes (c :: (ext ++ rest)) := .cons (by simp [closing])
    obtain ⟨key, reads⟩ := middle.2.reads closes
    refine ⟨?_, by simp [headKindCons, opening]⟩
    simpa using indexTail opening closing reads tail
  · obtain ⟨o, a, rfl, opening, reads⟩ := inner.2
    obtain ⟨args, items⟩ := reads (ext ++ rest)
    exact ⟨callTail opening items tail, by simp [headKindCons, opening]⟩

theorem postfixedStep {s : List Token} (found : (Ebnf.production .postfixed).Holds Valued Derived s) :
    Extends s := by
  obtain ⟨a, _, rfl, first, parts, rfl, all⟩ := found
  refine ⟨by simp [first.2.1], fun ext rest tail noArrow => ?_⟩
  -- the suffixes join the tail, from the last to the first
  have longer : Tail (parts.flatten ++ ext) rest ∧ headKind (parts.flatten ++ ext ++ rest) ≠ .arrow := by
    induction parts with
    | nil => exact ⟨tail, noArrow⟩
    | cons part parts ih =>
      obtain ⟨suffix, others⟩ := List.forall_mem_cons.mp all
      have step := suffixStep suffix (ih others).1
      simpa using step
  obtain ⟨x, reads⟩ := first.2.2 _ rest longer.1 longer.2
  exact ⟨x, by simpa using reads⟩

theorem unaryStep {s : List Token} (found : (Ebnf.production .unary).Holds Valued Derived s) :
    Extends s := by
  rcases found with ⟨front, a, rfl, sign, inner⟩ | inner
  · obtain ⟨op, rfl, mark⟩ : ∃ op : Token, front = [op] ∧ (op.kind = .notOp ∨ op.kind = .minus) := by
      rcases sign with ⟨op, rfl, mark, _⟩ | ⟨op, rfl, mark, _⟩
      · exact ⟨op, rfl, Or.inl mark⟩
      · exact ⟨op, rfl, Or.inr mark⟩
    refine ⟨by simp, fun ext rest tail noArrow => ?_⟩
    obtain ⟨x, reads⟩ := inner.2.2 ext rest tail noArrow
    exact signTail mark reads
  · exact inner.2

theorem chainStep {s : List Token} (found : (Ebnf.production .chain).Holds Valued Derived s) :
    Extends s := by
  obtain ⟨a, _, rfl, first, parts, rfl, all⟩ := found
  refine ⟨by simp [first.2.1], fun ext rest tail noArrow => ?_⟩
  -- an operator with all that follows it is a tail of the operand before it
  have longer : Tail (parts.flatten ++ ext) rest ∧ headKind (parts.flatten ++ ext ++ rest) ≠ .arrow := by
    induction parts with
    | nil => exact ⟨tail, noArrow⟩
    | cons part parts ih =>
      obtain ⟨⟨_, b, rfl, ⟨op, rfl, operator, _⟩, operand⟩, others⟩ := List.forall_mem_cons.mp all
      obtain ⟨strength, binds⟩ := Option.ne_none_iff_exists'.mp ((binaryIff op.kind).mp operator)
      obtain ⟨x, reads⟩ := operand.2.2 _ rest (ih others).1 (ih others).2
      have step := linkTail tail.closes binds reads
      refine ⟨by simpa using step, ?_⟩
      simp only [List.flatten_cons, List.append_assoc, List.cons_append, headKindCons]
      intro arrow
      simp [arrow, Kind.precedence?] at binds
  obtain ⟨x, reads⟩ := first.2.2 _ rest longer.1 longer.2
  exact ⟨x, by simpa using reads⟩

theorem exprStep {s : List Token} (found : (Ebnf.production .expr).Holds Valued Derived s) :
    Extends s := by
  obtain ⟨a, _, rfl, first, ⟨_, _, rfl, ⟨q, rfl, mark, _⟩, b, _, rfl, left, _, d, rfl,
    ⟨c, rfl, colon, _⟩, right⟩ | rfl⟩ := found
  · refine ⟨by simp [first.2.1], fun ext rest tail noArrow => ?_⟩
    obtain ⟨no, rightReads⟩ := right.2.2 ext rest tail noArrow
    have closes : Closes (c :: ((d ++ ext) ++ rest)) := .cons (by simp [colon])
    obtain ⟨yes, leftReads⟩ := left.2.reads closes
    have longer := choiceTail tail.closes mark colon leftReads rightReads
    obtain ⟨x, reads⟩ := first.2.2 _ rest longer (by simp [headKindCons, mark])
    exact ⟨x, by simpa using reads⟩
  · rw [List.append_nil]
    exact first.2

theorem entriesHold {parts : List (List Token)} {a before final : List Token} {c : Token}
    (close : c.kind = .rbrace) (first : Derived .prop a) (skipped : Newlines before)
    (all : ∀ part ∈ parts, (Ebnf.kind .comma ++ (Ebnf.newlines ++
      (.rule .prop ++ Ebnf.newlines))).Holds Valued Derived part)
    (last : (Ebnf.opt (Ebnf.kind .comma ++ Ebnf.newlines)).Holds Valued Derived final)
    (after : List Token) :
    ∃ xs, Reads (.entries xs) (a ++ (before ++ (parts.flatten ++ (final ++ [c])))) after := by
  have closes {t : Token} {rest : List Token} (kind : t.kind = .comma ∨ t.kind = .rbrace)
      {newlines : List Token} (skipped : Newlines newlines) : Closes (newlines ++ t :: rest) := by
    cases newlines with
    | nil => rcases kind with kind | kind <;> exact .cons (by simp [kind])
    | cons n more => exact .cons (by simp [skipped n List.mem_cons_self])
  induction parts generalizing a before with
  | nil =>
    rcases last with ⟨_, newlines, rfl, ⟨comma, rfl, kind, _⟩, more⟩ | rfl
    · obtain ⟨x, reads⟩ := first.2 _ (closes (Or.inl kind) skipped)
      exact ⟨[x], by simpa using Reads.oneEntry kind skipped (newlinesHold more) reads (.noEntry close)⟩
    · obtain ⟨x, reads⟩ := first.2 _ (closes (Or.inr close) skipped)
      exact ⟨[x], by simpa using Reads.lastEntry close skipped reads⟩
  | cons part parts ih =>
    obtain ⟨⟨_, _, rfl, ⟨comma, rfl, kind, _⟩, newlines, _, rfl, skip, b, before', rfl, next, skip'⟩,
      others⟩ := List.forall_mem_cons.mp all
    obtain ⟨xs, list⟩ := ih next (newlinesHold skip') others
    obtain ⟨x, reads⟩ := first.2 _ (closes (Or.inl kind) skipped)
    exact ⟨x :: xs, by simpa using Reads.oneEntry kind skipped (newlinesHold skip) reads list⟩

theorem objectStep {s : List Token} (found : (Ebnf.production .object).Holds Valued Derived s) :
    Readable .object s := by
  obtain ⟨_, _, rfl, ⟨o, rfl, opening, _⟩, newlines, _, rfl, skip, inner, _, rfl, entries,
    ⟨c, rfl, close, _⟩⟩ := found
  refine ⟨by simp, fun after => ?_⟩
  rcases entries with ⟨a, _, rfl, first, before, _, rfl, skip', _, final, rfl, ⟨parts, rfl, all⟩, last⟩ | rfl
  · obtain ⟨xs, list⟩ := entriesHold close first (newlinesHold skip') all last after
    exact ⟨_, by simpa using Reads.object opening (newlinesHold skip) list⟩
  · show ∃ x, Reads (.primary x) (o :: (newlines ++ [c])) after
    exact ⟨_, .object opening (newlinesHold skip) (.noEntry close)⟩

theorem keyHolds {s : List Token} (found : Ebnf.key.Holds Valued Derived s) :
    ∃ key, s = [key] ∧ IsKey key := by
  obtain ⟨key, rfl, word, _⟩ := found
  refine ⟨key, rfl, ?_⟩
  rcases word with ident | ⟨string, name⟩
  · exact Or.inl ident
  · exact Or.inr ⟨string, (isKeyIff _).mpr name⟩

theorem propStep {s : List Token} (found : (Ebnf.production .prop).Holds Valued Derived s) :
    Readable .prop s := by
  intro after closes
  rcases found with ⟨_, _, rfl, name, _, _, rfl, params, newlines, b, rfl, skip, block⟩ |
    ⟨_, _, rfl, name, _, a, rfl, ⟨colon, rfl, mark, _⟩, value⟩
  · obtain ⟨key, rfl, word⟩ := keyHolds name
    obtain ⟨o, a, rfl, opening, names, _⟩ := params.2
    obtain ⟨params, reads⟩ := names (newlines ++ (b ++ after))
    obtain ⟨x, body⟩ := block.2 after
    exact ⟨_, .method word opening (newlinesHold skip) reads body⟩
  · obtain ⟨key, rfl, word⟩ := keyHolds name
    obtain ⟨x, reads⟩ := value.2.reads closes
    exact ⟨_, .plain word mark reads⟩

theorem statementsHold {parts : List (List Token)} {a final : List Token} {c : Token}
    (close : c.kind = .rbrace) (first : Derived .stmt a)
    (all : ∀ part ∈ parts,
      ((Ebnf.kind .newline ++ Ebnf.newlines) ++ .rule .stmt).Holds Valued Derived part)
    (last : Newlines final) (after : List Token) :
    ∃ xs, Reads (.statements xs) (a ++ (parts.flatten ++ (final ++ [c]))) after := by
  have closes {t : Token} {rest : List Token} (kind : t.kind = .newline ∨ t.kind = .rbrace) :
      Closes (t :: rest) := by
    rcases kind with kind | kind <;> exact .cons (by simp [kind])
  induction parts generalizing a with
  | nil =>
    cases final with
    | nil =>
      obtain ⟨x, reads⟩ := first.2 _ (closes (Or.inr close))
      exact ⟨[x], by simpa using Reads.lastStatement close reads⟩
    | cons t newlines =>
      obtain ⟨newline, skipped⟩ := List.forall_mem_cons.mp last
      obtain ⟨x, reads⟩ := first.2 _ (closes (Or.inl newline))
      exact ⟨[x], by simpa using Reads.oneStatement newline skipped reads (.noStatement close)⟩
  | cons part parts ih =>
    obtain ⟨⟨_, b, rfl, ⟨_, newlines, rfl, ⟨t, rfl, newline, _⟩, skip⟩, next⟩, others⟩ :=
      List.forall_mem_cons.mp all
    obtain ⟨xs, list⟩ := ih next others
    obtain ⟨x, reads⟩ := first.2 _ (closes (Or.inl newline))
    exact ⟨x :: xs, by simpa using Reads.oneStatement newline (newlinesHold skip) reads list⟩

theorem blockStep {s : List Token} (found : (Ebnf.production .block).Holds Valued Derived s) :
    Readable .block s := by
  obtain ⟨_, _, rfl, ⟨o, rfl, opening, _⟩, newlines, _, rfl, skip, inner, _, rfl, statements,
    ⟨c, rfl, close, _⟩⟩ := found
  intro after
  rcases statements with ⟨a, _, rfl, first, _, final, rfl, ⟨parts, rfl, all⟩, last⟩ | rfl
  · obtain ⟨xs, list⟩ := statementsHold close first all (newlinesHold last) after
    exact ⟨_, by simpa using Reads.block opening (newlinesHold skip) list⟩
  · show ∃ x, Reads (.block x) (o :: (newlines ++ [c])) after
    exact ⟨_, .block opening (newlinesHold skip) (.noStatement close)⟩

theorem stmtStep {s : List Token} (found : (Ebnf.production .stmt).Holds Valued Derived s) :
    Readable .stmt s := by
  intro after closes
  rcases found with ⟨_, _, rfl, ⟨t, rfl, word, _⟩, _, a, rfl, ⟨equals, rfl, mark, _⟩, value⟩ | value
  · obtain ⟨x, reads⟩ := value.2.reads closes
    exact ⟨_, .assignment word mark reads⟩
  · obtain ⟨x, reads⟩ := value.2.reads closes
    exact ⟨x, .expression reads⟩

theorem programStep {s : List Token} (found : (Ebnf.production .program).Holds Valued Derived s) :
    Readable .program s := by
  obtain ⟨before, _, rfl, skip, used, _, rfl, inner, after, _, rfl, skip', ⟨stop, rfl, ends, _⟩⟩ := found
  exact ⟨before, used, after, stop, rfl, newlinesHold skip, newlinesHold skip', ends, inner.2⟩

theorem ruleDerived (symbol : Symbol) (s : List Token)
    (found : (Ebnf.production symbol).Holds Valued Derived s) : Derived symbol s := by
  refine ⟨ruleBalanced And.left symbol found, ?_⟩
  cases symbol with
  | program => exact programStep found
  | expr => exact exprStep found
  | chain => exact chainStep found
  | unary => exact unaryStep found
  | postfixed => exact postfixedStep found
  | args => exact argsStep found
  | primary => exact primaryStep found
  | arrow => exact arrowStep found
  | params => exact paramsStep found
  | object => exact objectStep found
  | prop => exact propStep found
  | block => exact blockStep found
  | stmt => exact stmtStep found

theorem derivableReads {body : List Token} {stop : Token} (valued : ∀ t ∈ body, Valued t)
    (ends : stop.kind = .eof) (derivable : Ebnf.Derivable (body ++ [stop])) :
    ∃ tree, ReadsProgram tree body := by
  have tested : ∀ t ∈ body ++ [stop], Valued t := by
    intro t member
    rcases List.mem_append.mp member with inside | last
    · exact valued t inside
    · intro number
      rw [List.mem_singleton.mp last, ends] at number
      cases number
  obtain ⟨_, before, used, after, stop', shape, skipped, skipped', _, inner⟩ :=
    derivable.holds ruleDerived tested
  have same : body = before ++ (used ++ after) := by
    have split : body ++ [stop] = (before ++ (used ++ after)) ++ [stop'] := by simpa using shape
    exact (List.append_inj_left' split rfl)
  obtain ⟨tree, reads⟩ := inner.reads (.newlines skipped')
  refine ⟨tree, before, used, after, same, skipped, skipped', ?_, reads⟩
  exact headNot (expressionHead reads) (by rfl)

def TooDeep (depth : Nat) (source : String) : Prop :=
  ∃ e, parse depth source = .error (.parse e) ∧ e.cause = .tooDeep

theorem parseOk {source : String} {stream : Token.Stream} (tokens : tokenize source = .ok stream) (depth : Nat)
    (tree : Node) : parse depth source = .ok tree ↔ ∃ rest, program depth stream.body = .ok (tree, rest) := by
  unfold parse
  rw [tokens]
  show stream.parse depth source = _ ↔ _
  unfold Token.Stream.parse
  cases program depth stream.body with
  | error f => simp
  | ok found =>
    obtain ⟨tree', rest⟩ := found
    simp

theorem tooDeepIff {source : String} {stream : Token.Stream} (tokens : tokenize source = .ok stream)
    (depth : Nat) : TooDeep depth source ↔ ∃ rest, program depth stream.body = .error ⟨.tooDeep, rest⟩ := by
  unfold TooDeep parse
  rw [tokens]
  show (∃ e, stream.parse depth source = _ ∧ _) ↔ _
  unfold Token.Stream.parse
  cases program depth stream.body with
  | error f =>
    obtain ⟨cause, rest⟩ := f
    simp [Failure.toError]
  | ok found => simp

theorem bodyValued {stream : Token.Stream} (sound : stream.Sound)
    (range : ∀ t ∈ stream.body, t.kind = .number → InRange t) : ∀ t ∈ stream.body, Valued t := by
  intro t member kind
  have shaped := sound.shaped t member
  rw [kind] at shaped
  obtain ⟨v, value⟩ := numberInRange shaped (range t member kind) []
  exact ⟨v, (numberOk value).2⟩

theorem derivableIffReads {stream : Token.Stream} (sound : stream.Sound)
    (range : ∀ t ∈ stream.body, t.kind = .number → InRange t) :
    Ebnf.Derivable stream.toList ↔ ∃ tree, ReadsProgram tree stream.body := by
  constructor
  · exact derivableReads (bodyValued sound range) sound.stop
  · rintro ⟨tree, reads⟩
    exact programDerivable sound.stop reads

theorem readsIffProgram {body : List Token} (noEnd : ∀ t ∈ body, t.kind ≠ .eof) {tree : Node} :
    ReadsProgram tree body ↔ ∃ depth, program depth body = .ok (tree, []) := by
  constructor
  · intro reads
    obtain ⟨least, found⟩ := programFinds reads
    exact ⟨least, found least (Nat.le_refl _)⟩
  · rintro ⟨depth, ok⟩
    exact (programRead noEnd ok).2

theorem foundUnlessDeep {source : String} {stream : Token.Stream} (tokens : tokenize source = .ok stream)
    {tree : Node} (reads : ReadsProgram tree stream.body) (depth : Nat) (shallow : ¬ TooDeep depth source) :
    parse depth source = .ok tree := by
  obtain ⟨least, found⟩ := programFinds reads
  have large := found (max least depth) (Nat.le_max_left _ _)
  rcases programAgrees (Nat.le_max_right least depth) stream.body with same | ⟨rest, deep⟩
  · exact (parseOk tokens depth tree).mpr ⟨[], same ▸ large⟩
  · exact absurd ((tooDeepIff tokens depth).mpr ⟨rest, deep⟩) shallow

theorem acceptsExactlyGrammar {source : String} {stream : Token.Stream}
    (tokens : tokenize source = .ok stream)
    (range : ∀ t ∈ stream.body, t.kind = .number → InRange t) :
    (∀ depth, (∃ tree, parse depth source = .ok tree) ↔ Ebnf.Derivable stream.toList ∧ ¬ TooDeep depth source) ∧
      ((∃ depth tree, program depth stream.body = .ok (tree, [])) ↔ Ebnf.Derivable stream.toList) := by
  have sound := tokenizeSound tokens
  have derivable := derivableIffReads sound range
  refine ⟨fun depth => ⟨?_, ?_⟩, ?_⟩
  · rintro ⟨tree, ok⟩
    obtain ⟨rest, accepted⟩ := (parseOk tokens depth tree).mp ok
    refine ⟨derivable.mpr ⟨tree, (programRead sound.noEnd accepted).2⟩, ?_⟩
    rintro ⟨e, failed, _⟩
    rw [ok] at failed
    cases failed
  · rintro ⟨derived, shallow⟩
    obtain ⟨tree, reads⟩ := derivable.mp derived
    exact ⟨tree, foundUnlessDeep tokens reads depth shallow⟩
  · constructor
    · rintro ⟨depth, tree, ok⟩
      exact derivable.mpr ⟨tree, (readsIffProgram sound.noEnd).mpr ⟨depth, ok⟩⟩
    · intro derived
      obtain ⟨tree, reads⟩ := derivable.mp derived
      obtain ⟨depth, ok⟩ := (readsIffProgram sound.noEnd).mp reads
      exact ⟨depth, tree, ok⟩

def greedySource : String := "\nn => -n.size + [7, 2.5,]\n"

def greedyStream : Token.Stream :=
  ⟨[⟨.newline, "\n", "\n", 0, ⟨1, 1⟩⟩, ⟨.ident, "n", "n", 1, ⟨2, 1⟩⟩, ⟨.arrow, "=>", "=>", 3, ⟨2, 3⟩⟩,
    ⟨.minus, "-", "-", 6, ⟨2, 6⟩⟩, ⟨.ident, "n", "n", 7, ⟨2, 7⟩⟩, ⟨.dot, ".", ".", 8, ⟨2, 8⟩⟩,
    ⟨.ident, "size", "size", 9, ⟨2, 9⟩⟩, ⟨.plus, "+", "+", 14, ⟨2, 14⟩⟩,
    ⟨.lbracket, "[", "[", 16, ⟨2, 16⟩⟩, ⟨.number, "7", "7", 17, ⟨2, 17⟩⟩, ⟨.comma, ",", ",", 18, ⟨2, 18⟩⟩,
    ⟨.number, "2.5", "2.5", 20, ⟨2, 20⟩⟩, ⟨.comma, ",", ",", 23, ⟨2, 23⟩⟩,
    ⟨.rbracket, "]", "]", 24, ⟨2, 24⟩⟩, ⟨.newline, "\n", "\n", 25, ⟨2, 25⟩⟩],
   ⟨.eof, "", "", 26, ⟨3, 1⟩⟩⟩

theorem acceptsGreedy :
    tokenize greedySource = .ok greedyStream ∧
      (∀ t ∈ greedyStream.body, t.kind = .number → InRange t) ∧
      (∃ tree, parse 9 greedySource = .ok tree) ∧
      Ebnf.Derivable greedyStream.toList ∧ ¬ TooDeep 9 greedySource := by
  have tokens : tokenize greedySource = .ok greedyStream := by decide +kernel
  have range : ∀ t ∈ greedyStream.body, t.kind = .number → InRange t := by
    unfold InRange
    decide +kernel
  have accepted : ∃ tree, parse 9 greedySource = .ok tree := by
    have found : (program 9 greedyStream.body).toOption.isSome = true := by decide +kernel
    obtain ⟨⟨tree, rest⟩, ok⟩ := okOfSome found
    exact ⟨tree, (parseOk tokens 9 tree).mpr ⟨rest, ok⟩⟩
  exact ⟨tokens, range, accepted, ((acceptsExactlyGrammar tokens range).1 9).mp accepted⟩

end Scriptlet.Parse
