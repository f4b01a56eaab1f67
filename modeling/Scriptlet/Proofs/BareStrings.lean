import Scriptlet.Proofs.Yield

/-! Where the value of a script holds bare strings: after the word that quotes them, and as the key of an
access by name. Everywhere else a string would be taken for something to look up. -/
namespace Scriptlet

namespace SExpr

inductive Inside (w : SExpr) : SExpr → Prop where
  | here : Inside w w
  | item {v items} (member : v ∈ items) (deeper : Inside w v) : Inside w (.list items)

inductive Evaluable : SExpr → Prop where
  | null : Evaluable .null
  | bool (b : Bool) : Evaluable (.bool b)
  | int (n : Int) : Evaluable (.int n)
  | float (x : Binary64) : Evaluable (.float x)
  | sym (name : String) : Evaluable (.sym name)
  | quoted (s : String) : Evaluable (.list [.sym "quote", .str s])
  | access {v name} (target : Evaluable v) (word : Node.IsName name) :
      Evaluable (.list [.sym "get", v, .str name])
  | form {items} (parts : ∀ v ∈ items, Evaluable v) : Evaluable (.list items)

inductive HoldsBare (s : String) : List SExpr → Prop where
  | quoted : HoldsBare s [.sym "quote", .str s]
  | access {target} (other : ∀ text, target ≠ .str text) (word : Node.IsName s) :
      HoldsBare s [.sym "get", target, .str s]

namespace Evaluable

theorem names (params : List String) : ∀ v ∈ params.map SExpr.sym, Evaluable v := by
  intro v member
  obtain ⟨name, _, rfl⟩ := List.mem_map.mp member
  exact .sym name

theorem words (word : String) {parts : List SExpr} (each : ∀ v ∈ parts, Evaluable v) :
    Evaluable (.list (.sym word :: parts)) := .form (List.forall_mem_cons.mpr ⟨.sym word, each⟩)

theorem one (word : String) {v : SExpr} (part : Evaluable v) : Evaluable (.list [.sym word, v]) :=
  .words word (List.forall_mem_singleton.mpr part)

theorem two (word : String) {v w : SExpr} (first : Evaluable v) (second : Evaluable w) :
    Evaluable (.list [.sym word, v, w]) :=
  .words word (List.forall_mem_cons.mpr ⟨first, List.forall_mem_singleton.mpr second⟩)

theorem sequence {vs : List SExpr} (each : ∀ v ∈ vs, Evaluable v) : Evaluable (Node.sequence vs) := by
  unfold Node.sequence
  split
  · exact List.forall_mem_singleton.mp each
  · exact .words "progn" each

theorem notString {v : SExpr} (evaluable : Evaluable v) (s : String) : v ≠ .str s := by
  rintro rfl
  cases evaluable

/- The lists inside such a value are such values. Strings are inside it too, so this is no fact about
all that is inside. -/
theorem inside {v : SExpr} (evaluable : Evaluable v) {items : List SExpr} (inner : Inside (.list items) v) :
    Evaluable (.list items) := by
  induction inner with
  | here => exact evaluable
  | item member deeper ih =>
    cases evaluable with
    | quoted s =>
      rcases List.mem_cons.mp member with rfl | last
      · cases deeper
      · rw [List.mem_singleton.mp last] at deeper
        cases deeper
    | access target word =>
      rcases List.mem_cons.mp member with rfl | later
      · cases deeper
      · rcases List.mem_cons.mp later with rfl | last
        · exact ih target
        · rw [List.mem_singleton.mp last] at deeper
          cases deeper
    | form parts => exact ih (parts _ member)

theorem holdsBare {items : List SExpr} (evaluable : Evaluable (.list items)) {s : String}
    (member : .str s ∈ items) : HoldsBare s items := by
  cases evaluable with
  | quoted text =>
    simp only [List.mem_cons, List.not_mem_nil, or_false, reduceCtorEq, false_or, str.injEq] at member
    subst member
    exact .quoted
  | access target word =>
    simp only [List.mem_cons, List.not_mem_nil, or_false, reduceCtorEq, false_or, str.injEq] at member
    rcases member with same | rfl
    · exact absurd same.symm (target.notString s)
    · exact .access target.notString word
  | form parts => exact absurd rfl ((parts _ member).notString s)

end Evaluable

end SExpr

namespace Node
open SExpr (Evaluable)

theorem literalEvaluable {p : Place} {kind : LiteralKind} {value : SExpr} (plain : kind ≠ .string)
    (evaluable : Evaluable value) {depth : Nat} {v : SExpr} (ok : lower depth (.literal p kind value) = .ok v) :
    Evaluable v := by
  obtain ⟨depth, rfl⟩ := lowerPositive ok
  rw [lower, if_neg plain] at ok
  cases ok
  exact evaluable

theorem unsignedEvaluable {v : SExpr} (unsigned : IsUnsigned v) : Evaluable v := by
  cases unsigned with
  | int n => exact .int n
  | float code => exact .float _

theorem mapMEvaluable {depth : Nat} {xs : List Node} {vs : List SExpr}
    (each : ∀ x ∈ xs, ∀ {v}, lower depth x = .ok v → Evaluable v) (ok : xs.mapM (lower depth) = .ok vs) :
    ∀ v ∈ vs, Evaluable v := by
  intro v member
  obtain ⟨x, inside, lowered⟩ := mapMSource ok member
  exact each x inside lowered

theorem pairEvaluable {x y : Node} {word : String} {depth : Nat} {v : SExpr}
    (left : ∀ {depth v}, lower depth x = .ok v → Evaluable v)
    (right : ∀ {depth v}, lower depth y = .ok v → Evaluable v)
    (ok : (do
      let a ← lower depth x
      let b ← lower depth y
      Except.ok (SExpr.list [.sym word, a, b])) = .ok v) : Evaluable v := by
  obtain ⟨a, first, next⟩ := exceptBindOk.mp ok
  obtain ⟨b, second, same⟩ := exceptBindOk.mp next
  cases same
  exact .two word (left first) (right second)

theorem arrowEvaluable {p : Place} {params : List String} {x : Node} {depth : Nat} {v : SExpr}
    (body : ∀ {depth v}, lower depth x = .ok v → Evaluable v)
    (ok : lower depth (.arrow p params x) = .ok v) : Evaluable v := by
  obtain ⟨depth, rfl⟩ := lowerPositive ok
  rw [lower] at ok
  obtain ⟨w, inner, same⟩ := exceptBindOk.mp ok
  cases same
  exact .two "lambda" (.form (.names params)) (body inner)

/- By induction on the tree. Only a literal and the name after a point bring a string along, and each
puts it where it belongs. -/
theorem Fits.evaluable {position : Position} {x : Node} (fits : Fits position x) {depth : Nat} {v : SExpr}
    (ok : lower depth x = .ok v) : Evaluable v := by
  induction fits generalizing depth v with
  | expression _ ih => exact ih ok
  | number unsigned => exact literalEvaluable (by decide) (unsignedEvaluable unsigned) ok
  | bool => exact literalEvaluable (by decide) (.bool _) ok
  | null => exact literalEvaluable (by decide) .null ok
  | string =>
    obtain ⟨depth, rfl⟩ := lowerPositive ok
    rw [lower, if_pos rfl] at ok
    cases ok
    exact .quoted _
  | ident =>
    obtain ⟨depth, rfl⟩ := lowerPositive ok
    rw [lower] at ok
    cases ok
    exact .sym _
  | unary operator _ ih =>
    obtain ⟨depth, rfl⟩ := lowerPositive ok
    rw [lower] at ok
    obtain ⟨w, inner, form⟩ := exceptBindOk.mp ok
    simp only [unaryOperators, List.mem_cons, List.not_mem_nil, or_false] at operator
    rcases operator with rfl | rfl
    · cases form
      exact .two "-" (.int 0) (ih inner)
    · cases form
      exact .one "not" (ih inner)
  | binary operator _ _ left right =>
    obtain ⟨depth, rfl⟩ := lowerPositive ok
    obtain ⟨form, known⟩ := binaryForm operator
    rw [lower, known] at ok
    exact pairEvaluable left right ok
  | logical operator _ _ left right =>
    obtain ⟨depth, rfl⟩ := lowerPositive ok
    obtain ⟨form, known⟩ := logicalForm operator
    rw [lower, known] at ok
    exact pairEvaluable left right ok
  | ternary _ _ _ cond yes no =>
    obtain ⟨depth, rfl⟩ := lowerPositive ok
    rw [lower] at ok
    obtain ⟨a, first, next⟩ := exceptBindOk.mp ok
    obtain ⟨b, second, last⟩ := exceptBindOk.mp next
    obtain ⟨c, third, same⟩ := exceptBindOk.mp last
    cases same
    refine .words "if" (List.forall_mem_cons.mpr ⟨cond first, ?_⟩)
    exact List.forall_mem_cons.mpr ⟨yes second, List.forall_mem_singleton.mpr (no third)⟩
  | array _ elements =>
    obtain ⟨depth, rfl⟩ := lowerPositive ok
    rw [lower] at ok
    obtain ⟨vs, all, same⟩ := exceptBindOk.mp ok
    cases same
    exact .words "list" (mapMEvaluable (fun x member _ => elements x member) all)
  | object _ entries =>
    obtain ⟨depth, rfl⟩ := lowerPositive ok
    rw [lower] at ok
    obtain ⟨vs, all, same⟩ := exceptBindOk.mp ok
    cases same
    exact .sequence (mapMEvaluable (fun x member _ => entries x member) all)
  | block _ statements =>
    obtain ⟨depth, rfl⟩ := lowerPositive ok
    rw [lower] at ok
    obtain ⟨vs, all, same⟩ := exceptBindOk.mp ok
    cases same
    exact .sequence (mapMEvaluable (fun x member _ => statements x member) all)
  | arrow _ _ ih => exact arrowEvaluable ih ok
  | arrowOfBlock _ _ ih => exact arrowEvaluable ih ok
  | call _ _ callee args =>
    obtain ⟨depth, rfl⟩ := lowerPositive ok
    rw [lower] at ok
    obtain ⟨w, first, next⟩ := exceptBindOk.mp ok
    obtain ⟨vs, all, same⟩ := exceptBindOk.mp next
    cases same
    have rest := mapMEvaluable (fun x member _ => args x member) all
    exact .form (List.forall_mem_cons.mpr ⟨callee first, rest⟩)
  | index _ _ target key =>
    obtain ⟨depth, rfl⟩ := lowerPositive ok
    rw [lower] at ok
    exact pairEvaluable target key ok
  | name _ word target =>
    obtain ⟨depth, rfl⟩ := lowerPositive ok
    rw [lower] at ok
    obtain ⟨a, first, same⟩ := exceptBindOk.mp ok
    cases same
    exact .access (target first) word
  | method _ _ _ ih =>
    obtain ⟨depth, rfl⟩ := lowerPositive ok
    rw [lower] at ok
    obtain ⟨w, inner, same⟩ := exceptBindOk.mp ok
    cases same
    exact .two "define" (.words _ (.names _)) (ih inner)
  | plain _ _ ih =>
    obtain ⟨depth, rfl⟩ := lowerPositive ok
    rw [lower] at ok
    obtain ⟨w, inner, same⟩ := exceptBindOk.mp ok
    cases same
    exact .two "define" (.sym _) (ih inner)
  | assignment _ _ ih =>
    obtain ⟨depth, rfl⟩ := lowerPositive ok
    rw [lower] at ok
    obtain ⟨w, inner, same⟩ := exceptBindOk.mp ok
    cases same
    exact .two "define" (.sym _) (ih inner)

end Node

namespace Parse

theorem compiledEvaluable {nesting lowering : Nat} {source : String} {v : SExpr}
    (ok : compile nesting lowering source = .ok v) : v.Evaluable := by
  obtain ⟨tree, parsed, lowered⟩ := compileOk ok
  obtain ⟨stream, _, sound, reads⟩ := parseReads parsed
  exact (programFits sound.shaped reads).evaluable lowered

theorem bareStringsPlaced {nesting lowering : Nat} {source : String} {v : SExpr}
    (ok : compile nesting lowering source = .ok v) :
    (∀ s, v ≠ .str s) ∧
      ∀ items s, SExpr.Inside (.list items) v → .str s ∈ items → SExpr.HoldsBare s items := by
  have evaluable := compiledEvaluable ok
  exact ⟨evaluable.notString, fun items s inner member => (evaluable.inside inner).holdsBare member⟩

def menuSource : String := "menu['drinks'].find(\x7b 'size': 'small' \x7d, ['tea', x => \x7b 'mint' \x7d]).price"

def holdsString : SExpr → Bool
  | .list items => items.any fun
    | .str _ => true
    | _ => false
  | _ => false

theorem bareStringsPlacedMenu : ∃ items s, compile 9 9 menuSource = .ok (.list items) ∧ .str s ∈ items ∧
    SExpr.HoldsBare s items := by
  have holds : (compile 9 9 menuSource).toOption.any holdsString = true := by decide +kernel
  obtain ⟨v, ok, found⟩ := okOfAny holds
  match v, found with
  | .list items, found =>
    obtain ⟨w, member, string⟩ := List.any_eq_true.mp found
    match w, string with
    | .str s, _ => exact ⟨items, s, ok, member, (bareStringsPlaced ok).2 items s .here member⟩

end Parse

end Scriptlet
