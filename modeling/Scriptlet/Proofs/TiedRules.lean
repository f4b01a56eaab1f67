import Scriptlet.Proofs.Bonds

/-! Every rule of the grammar ties two parsers together if the parsers of the expressions inside it are
tied, for every bond and every relation between trees that the rules keep. So a larger nesting budget changes
nothing but the complaint that the budget is used up. -/
namespace Scriptlet.Parse
open Token (Kind)

variable {α β : Type} {B : Bond} [laws : B.Lawful]

theorem bracketedTies {R : α → β → Prop} {item : Parser α} {item' : Parser β} (parts : Parts B R item item')
    {opening closing : Kind} (opens : opening ≠ .newline) (closes : closing ≠ .newline) (other : closing ≠ .arrow) :
    Ties B (fun a b => B.words a.1 b.1 ∧ List.Forall₂ R a.2 b.2) (bracketed opening closing item)
      (bracketed opening closing item') := by
  have turn : Ties B (TurnTied R) (commaTurn closing item) (commaTurn closing item') :=
    .step .nextKind fun _ => .ite .rfl (.pure .stop) <| .bind parts.ties
      (fun _ _ value => .step (.take (by decide)) fun _ =>
        .ite .rfl (.pure (.more value)) (.pure (.last value)))
      fun _ => .take (by decide) (.pure _)
  have paced := parts.paces (commaTurnAdvances · closing) (commaTurnAdvances · closing)
  exact .after (.expect opens) fun _ _ first => .bind (turn.collect (commaTurnStays parts.stays other) paced)
    (fun _ _ items => .after (.expectAs closes _) fun _ _ _ => .pure ⟨first, items⟩)
    fun _ => .bind (.expectAs other _) fun _ => .pure _

theorem valuesTied {names names' : List Token} (words : List.Forall₂ B.words names names') :
    names.map Token.value = names'.map Token.value := by
  induction words with
  | nil => rfl
  | cons head _ ih => rw [List.map_cons, List.map_cons, ih, laws.value head]

theorem paramsTies : Ties B Eq params params := by
  have name : Parts B B.words (expectAs .ident "parameter name") (expectAs .ident "parameter name") :=
    ⟨.expectAs (by decide) _, .expectAs (by decide) _, .inr ⟨expectAsForward _ _, expectAsForward _ _⟩⟩
  exact .bind (bracketedTies name (by decide) (by decide) (by decide))
    (fun _ _ both => .pure (valuesTied both.2)) fun _ => .pure _

theorem boolSame (b : Bool) : (SExpr.bool b).same (.bool b) = true := by simp [SExpr.same, SExpr.quantity?]

theorem intSame (n : Int) : (SExpr.int n).same (.int n) = true := by simp [SExpr.same, SExpr.quantity?]

theorem finiteSame {x : Binary64} (finite : x.isFinite = true) : (SExpr.float x).same (.float x) = true := by
  cases x with
  | finite negative code => simp [SExpr.same, SExpr.quantity?, Binary64.quantity?]
  | infinite negative => cases finite
  | nan => cases finite

theorem numberTies {t u : Token} (word : B.words t u) :
    Ties B (fun v w => v = w ∧ v.same v = true) (number t) (number u) := by
  unfold number
  rw [laws.value word]
  cases Numeral.read? u.value.toList with
  | none => exact .fail
  | some n =>
    refine .ite .rfl ?_ ?_
    · cases n.toInt with
      | ok k => exact .pure ⟨rfl, intSame k⟩
      | error e => exact .fail
    · by_cases finite : n.toBinary.isFinite = true
      · simp only [if_pos finite]
        exact .pure ⟨rfl, finiteSame finite⟩
      · simp only [if_neg finite]
        exact fun _ _ tied => .failed (laws.outOfRange word tied)

/- A relation between trees that the rules of the grammar keep. A literal has to be equal to itself, which
a nan is not. -/
structure Congruent (B : Bond) (R : Node → Node → Prop) : Prop where
  literal {t u v} (kind : LiteralKind) (word : B.words t u) (self : v.same v = true) :
    R (.literal t.place kind v) (.literal u.place kind v)
  ident {t u} (word : B.words t u) : R (.ident t.place t.value) (.ident u.place u.value)
  unary {t u x y} (word : B.words t u) (operand : R x y) :
    R (.unary t.place t.value x) (.unary u.place u.value y)
  binary {x y x' y'} (op : String) (left : R x y) (right : R x' y') :
    R (.binary x.place op x x') (.binary y.place op y y')
  logical {x y x' y'} (op : String) (left : R x y) (right : R x' y') :
    R (.logical x.place op x x') (.logical y.place op y y')
  ternary {x y x' y' x'' y''} (cond : R x y) (yes : R x' y') (no : R x'' y'') :
    R (.ternary x.place x x' x'') (.ternary y.place y y' y'')
  array {t u xs ys} (word : B.words t u) (elements : List.Forall₂ R xs ys) :
    R (.array t.place xs) (.array u.place ys)
  object {t u xs ys} (word : B.words t u) (entries : List.Forall₂ R xs ys) :
    R (.object t.place xs) (.object u.place ys)
  property {t u x y} (isMethod : Bool) (params : List String) (word : B.words t u) (value : R x y) :
    R (.property t.place t.value isMethod params x) (.property u.place u.value isMethod params y)
  assignment {t u x y} (word : B.words t u) (value : R x y) :
    R (.assignment t.place t.value x) (.assignment u.place u.value y)
  block {t u xs ys} (word : B.words t u) (statements : List.Forall₂ R xs ys) :
    R (.block t.place xs) (.block u.place ys)
  arrow {t u x y} (params : List String) (word : B.words t u) (body : R x y) :
    R (.arrow t.place params x) (.arrow u.place params y)
  call {x y xs ys} (callee : R x y) (args : List.Forall₂ R xs ys) :
    R (.call x.place x xs) (.call y.place y ys)
  member {x y x' y'} (computed : Bool) (target : R x y) (key : R x' y') :
    R (.member x.place x x' computed) (.member y.place y y' computed)

structure LinkTied (B : Bond) (R : Node → Node → Prop) (link link' : Link) : Prop where
  op : B.words link.op link'.op
  strength : link.strength = link'.strength
  operand : R link.operand link'.operand

inductive SuffixTied (B : Bond) (R : Node → Node → Prop) : Suffix → Suffix → Prop where
  | name {t u} (word : B.words t u) : SuffixTied B R (.name t) (.name u)
  | index {x y} (key : R x y) : SuffixTied B R (.index x) (.index y)
  | arguments {xs ys} (args : List.Forall₂ R xs ys) : SuffixTied B R (.arguments xs) (.arguments ys)

theorem statementApply (expr : Parser Node) (s : List Token) : statement expr s =
    if headKind s = .ident ∧ headKind s.tail = .assign then assign expr s else expr s := by
  unfold statement
  rw [bindStep (aheadApply s)]
  match s with
  | [] => rfl
  | [t] => simp [headKind]
  | t :: next :: more =>
    rw [List.tail_cons, headKindCons, headKindCons]
    simp only
    split <;> rfl

theorem arrowNext (s : List Token) : s.head?.any (·.kind = .arrow) = decide (headKind s = .arrow) := by
  cases s with
  | nil => rfl
  | cons t rest => rfl

section Rules
variable {R : Node → Node → Prop} (keeps : Congruent B R)
include keeps

theorem joinTied {link link' : Link} (tied : LinkTied B R link link') {x y x' y' : Node} (left : R x y)
    (right : R x' y') : R (link.join x x') (link'.join y y') := by
  unfold Link.join
  rw [laws.kind tied.op, laws.value tied.op]
  split
  · exact keeps.logical _ left right
  · exact keeps.logical _ left right
  · exact keeps.binary _ left right

theorem climbTied (least : Nat) {x y : Node} (left : R x y) {links links' : List Link}
    (tied : List.Forall₂ (LinkTied B R) links links') :
    R (climb least x links).val.1 (climb least y links').val.1 ∧
      List.Forall₂ (LinkTied B R) (climb least x links).val.2 (climb least y links').val.2 := by
  fun_induction climb least x links generalizing y links' with
  | case1 least x =>
    cases tied
    rw [climb]
    exact ⟨left, .nil⟩
  | case2 least x link rest weak =>
    cases tied with
    | cons head tail =>
      rw [climb, if_pos (head.strength ▸ weak)]
      exact ⟨left, .cons head tail⟩
  | case3 least x link rest binds right shorter whole ih ih' =>
    cases tied with
    | @cons _ link' _ _ head tail =>
      have same := head.strength
      have inner := ih head.operand tail
      obtain ⟨op, strength', operand'⟩ := link'
      obtain rfl : link.strength = strength' := same
      rw [climb, if_neg binds]
      exact ih' (joinTied keeps head left inner.1) inner.2

theorem applyTied {suffix suffix' : Suffix} (tied : SuffixTied B R suffix suffix') {x y : Node} (target : R x y) :
    R (suffix.apply x) (suffix'.apply y) := by
  cases tied with
  | name word =>
    simp only [Suffix.apply, laws.value word]
    exact keeps.member _ target (keeps.literal _ word (by simp [SExpr.same]))
  | index key => exact keeps.member _ target key
  | arguments args => exact keeps.call target args

theorem suffixesTied {suffixes suffixes' : List Suffix} (tied : List.Forall₂ (SuffixTied B R) suffixes suffixes')
    {x y : Node} (target : R x y) : R (suffixes.foldl Suffix.apply x) (suffixes'.foldl Suffix.apply y) := by
  induction tied generalizing x y with
  | nil => exact target
  | cons head _ ih => exact ih (applyTied keeps head target)

variable {expr expr' : Parser Node} (parts : Parts B R expr expr')
include parts

theorem statementTies : Ties B R (statement expr) (statement expr') := by
  have assign : Ties B R (assign expr) (assign expr') :=
    .after (.expect (by decide)) fun _ _ name => .after (.expect (by decide)) fun _ _ _ =>
      .bind parts.ties (fun _ _ value => .pure (keeps.assignment name value)) fun _ => .pure _
  intro s s' tied
  have next : (headKind s = .ident ∧ headKind s.tail = .assign) ↔
      headKind s' = .ident ∧ headKind s'.tail = .assign := by
    rw [← laws.head tied]
    refine and_congr_right fun word => ?_
    obtain ⟨t, rest, rfl, kind⟩ := headKindSome word (by decide)
    obtain ⟨u, rest', rfl, _, tied⟩ := laws.uncons tied (by rw [kind]; decide)
    rw [List.tail_cons, List.tail_cons, laws.head tied]
  rw [statementApply, statementApply]
  by_cases equals : headKind s = .ident ∧ headKind s.tail = .assign
  · rw [if_pos equals, if_pos (next.mp equals)]
    exact assign s s' tied
  · rw [if_neg equals, if_neg (mt next.mpr equals)]
    exact parts.ties s s' tied

theorem blockTies : Ties B R (block expr) (block expr') := by
  have turn : Ties B (TurnTied R) (statementTurn expr) (statementTurn expr') := by
    refine .step .nextKind fun _ => .ite .rfl (.pure .stop) <| .bind (statementTies keeps parts)
      (fun _ _ tree => .step .nextKind fun kind => ?_) fun _ => .nextKind (.fail _)
    split
    · exact .step .skipNewlines fun _ => .pure (.more tree)
    · exact .pure (.last tree)
    · exact .unexpected
  have paced := parts.paces statementTurnAdvances statementTurnAdvances
  exact .after (.expect (by decide)) fun _ _ opening => .step .skipNewlines fun _ =>
    .bind (turn.collect (statementTurnStays parts.stays) paced)
      (fun _ _ trees => .after (.expect (by decide)) fun _ _ _ => .pure (keeps.block opening trees))
      fun _ => .bind (.expectAs (by decide) _) fun _ => .pure _

theorem arrowTies (params : List String) {t u : Token} (word : B.words t u) :
    Ties B R (arrow expr params t.place) (arrow expr' params u.place) :=
  .after (.expect (by decide)) fun _ _ _ => .step .skipNewlines fun _ => .step .nextKind fun _ =>
    .ite .rfl (.bind (blockTies keeps parts) (fun _ _ body => .pure (keeps.arrow params word body)) fun _ => .pure _)
      (.bind parts.ties (fun _ _ body => .pure (keeps.arrow params word body)) fun _ => .pure _)

theorem propertyTies : Ties B R (property expr) (property expr') := by
  refine .peek .unexpected (fun t u newline newline' => ?_) fun t u word notNewline => ?_
  · simp only [newline, newline']
    exact .unexpected
  · simp only [laws.kind word, laws.value word]
    refine .ite .rfl .unexpected (.ite .rfl ?_ ?_)
    · exact fun _ _ tied _ => .failed (laws.invalidKey word tied)
    · refine .drop (laws.kind word ▸ notNewline) (.branch fun kind => ?_)
      have entry (isMethod : Bool) (names : List String) {x y : Node} (value : R x y) :=
        laws.value word ▸ keeps.property isMethod names word value
      split
      · exact Ties.anywhere (.step paramsTies fun names => .step .skipNewlines fun _ =>
          .bind (blockTies keeps parts) (fun _ _ body => .pure (entry _ names body)) fun _ => .pure _) _
      · exact .drop (by decide) (.bind parts.ties (fun _ _ value => .pure (entry _ _ value)) fun _ => .pure _)
      · exact .unexpected

theorem objectTies : Ties B R (object expr) (object expr') := by
  have turn : Ties B (TurnTied R) (propertyTurn expr) (propertyTurn expr') :=
    .step .nextKind fun _ => .ite .rfl (.pure .stop) <| .bind (propertyTies keeps parts)
      (fun _ _ entry => .step .skipNewlines fun _ => .step (.take (by decide)) fun _ =>
        .ite .rfl (.step .skipNewlines fun _ => .pure (.more entry)) (.pure (.last entry)))
      fun _ => .bind .skipNewlines fun _ => .take (by decide) (.pure _)
  have paced := parts.paces propertyTurnAdvances propertyTurnAdvances
  exact .after (.expect (by decide)) fun _ _ opening => .step .skipNewlines fun _ =>
    .bind (turn.collect propertyTurnStays paced)
      (fun _ _ entries => .after (.expectAs (by decide) _) fun _ _ _ => .pure (keeps.object opening entries))
      fun _ => .bind (.expectAs (by decide) _) fun _ => .pure _

theorem functionTies {t u : Token} (word : B.words t u) :
    Ties B R (do let names ← params; arrow expr names t.place) (do let names ← params; arrow expr' names u.place) :=
  .step paramsTies fun names => arrowTies keeps parts names word

omit keeps in
theorem groupTies : TiesAt .lparen B R (do Reader.drop; let inner ← expr; let _ ← expect .rparen; pure inner)
    (do Reader.drop; let inner ← expr'; let _ ← expect .rparen; pure inner) :=
  .drop (by decide) (.bind parts.ties
    (fun _ _ inner => .after (.expect (by decide)) fun _ _ _ => .pure inner)
    fun _ => .bind (.expectAs (by decide) _) fun _ => .pure _)

theorem plainTies {s s' : List Token} (tied : B.tokens s s') (other : headKind s ≠ .lparen) :
    Outcome B R (primary expr s) (primary expr' s') := by
  unfold primary
  rw [bindStep (aheadApply _), bindStep (aheadApply _)]
  cases s with
  | nil =>
    obtain rfl := laws.nil tied
    exact Ties.unexpected _ _ tied
  | cons t rest =>
    by_cases newline : t.kind = .newline
    · obtain ⟨u, rest', rfl, newline'⟩ := headKindSome ((laws.head tied).symm.trans newline) (by decide)
      simp only [newline, newline']
      exact Ties.unexpected _ _ tied
    · obtain ⟨u, rest', rfl, same, after⟩ := laws.uncons tied newline
      have word : u.kind ≠ .newline := laws.kind same ▸ newline
      have literal (kind : LiteralKind) {v : SExpr} (self : v.same v = true) := keeps.literal kind same self
      refine (?_ : TiesAt t.kind B R _ _) _ _ tied rfl
      simp only [laws.kind same, laws.value same, arrowNext, laws.head after]
      split
      · exact .drop word <| .bind (numberTies same)
          (fun _ _ value => .pure (value.1 ▸ literal _ value.2)) fun _ => .pure _
      · exact .drop word (.pure (literal _ (by simp [SExpr.same])))
      · exact .drop word (.pure (literal _ (boolSame true)))
      · exact .drop word (.pure (literal _ (boolSame false)))
      · exact .drop word (.pure (literal _ (by simp [SExpr.same])))
      · exact .drop word (.ite .rfl (arrowTies keeps parts _ same) (.pure (laws.value same ▸ keeps.ident same)))
      · exact absurd ((laws.kind same).trans ‹_›) other
      · exact Ties.anywhere (.bind (bracketedTies parts (by decide) (by decide) (by decide))
          (fun _ _ both => .pure (keeps.array both.1 both.2)) fun _ => .pure _) _
      · exact (objectTies keeps parts).anywhere _
      · exact .unexpected

theorem primaryTies : Ties B R (primary expr) (primary expr') := by
  intro s s' tied
  by_cases opening : headKind s = .lparen
  · obtain ⟨t, rest, rfl, kind⟩ := headKindSome opening (by decide)
    obtain ⟨u, rest', rfl, same, after⟩ := laws.uncons tied (by rw [kind]; decide)
    have kind' : u.kind = .lparen := laws.kind same ▸ kind
    unfold primary
    rw [bindStep (aheadApply _), bindStep (aheadApply _)]
    simp only [kind, kind', laws.ahead after]
    exact TiesAt.ite .rfl ((functionTies keeps parts same).anywhere _) (groupTies parts) _ _ tied opening
  · exact plainTies keeps parts tied opening

theorem suffixesTies {target target' : Parser Node} (ties : Ties B R target target') :
    Ties B R (do let x ← target; let suffixes ← Reader.collect (suffixTurn expr); pure (suffixes.foldl Suffix.apply x))
      (do let x ← target'; let suffixes ← Reader.collect (suffixTurn expr'); pure (suffixes.foldl Suffix.apply x)) := by
  have turn : Ties B (TurnTied (SuffixTied B R)) (suffixTurn expr) (suffixTurn expr') := by
    refine .branch fun kind => ?_
    split
    · exact .drop (by decide) (.after (.expectAs (by decide) _) fun _ _ name => .pure (.more (.name name)))
    · exact .drop (by decide) (.bind parts.ties
        (fun _ _ key => .after (.expect (by decide)) fun _ _ _ => .pure (.more (.index key)))
        fun _ => .bind (.expectAs (by decide) _) fun _ => .pure _)
    · have args : Ties B (List.Forall₂ R) (callArgs expr) (callArgs expr') :=
        .bind (bracketedTies parts (by decide) (by decide) (by decide)) (fun _ _ both => .pure both.2) fun _ => .pure _
      exact Ties.anywhere (.bind args (fun _ _ trees => .pure (.more (.arguments trees))) fun _ => .pure _) _
    · exact (Ties.pure .stop).anywhere _
  have paced := parts.paces suffixTurnAdvances suffixTurnAdvances
  exact .bind ties (fun _ _ target => .bind (turn.collect suffixTurnStays paced)
      (fun _ _ suffixes => .pure (suffixesTied keeps suffixes target)) fun _ => .pure _)
    fun _ => .bind suffixTurnStays.collect fun _ => .pure _

variable {operand operand' : Parser Node} (inner : Parts B R operand operand')
include inner

omit parts in
theorem signsTies {plain plain' : Parser Node} (ties : Ties B R plain plain') :
    Ties B R
      (do match ← Reader.peek with
        | some op =>
          if op.kind = .notOp ∨ op.kind = .minus then
            Reader.drop
            let x ← operand
            pure (.unary op.place op.value x)
          else plain
        | none => plain)
      (do match ← Reader.peek with
        | some op =>
          if op.kind = .notOp ∨ op.kind = .minus then
            Reader.drop
            let x ← operand'
            pure (.unary op.place op.value x)
          else plain'
        | none => plain') := by
  refine .peek ties (fun t u newline newline' => ?_) fun t u word notNewline => ?_
  · simp only [newline, newline']
    exact ties
  · refine .ite (by rw [laws.kind word]) (.drop notNewline ?_) (ties.anywhere _)
    exact .bind inner.ties (fun _ _ x => .pure (keeps.unary word x)) fun _ => .pure _

omit parts in
theorem chainTies (least : Int) : Ties B R (chain operand least) (chain operand' least) := by
  have turn : Ties B (TurnTied (LinkTied B R)) (linkTurn operand least) (linkTurn operand' least) := by
    refine .peek (.pure .stop) (fun t u newline newline' => ?_) fun t u word notNewline => ?_
    · simp only [newline, newline']
      exact .pure .stop
    · simp only [laws.kind word]
      split
      · exact (Ties.pure .stop).anywhere _
      · refine .ite .rfl ((Ties.pure .stop).anywhere _) (.drop (laws.kind word ▸ notNewline) ?_)
        exact .bind inner.ties (fun _ _ right => .pure (.more ⟨word, rfl, right⟩)) fun _ => .pure _
  have paced := inner.paces (linkTurnAdvances · least) (linkTurnAdvances · least)
  exact .bind inner.ties (fun _ _ first => .bind (turn.collect linkTurnStays paced)
      (fun _ _ links => .pure (climbTied keeps 0 first links).1) fun _ => .pure _)
    fun _ => .bind linkTurnStays.collect fun _ => .pure _

theorem choiceTies : Ties B R (choice operand expr) (choice operand' expr') := by
  refine .bind (chainTies keeps inner 1) (fun _ _ cond => .step (.take (by decide)) fun _ =>
    .ite .rfl (.bind parts.ties (fun _ _ yes => ?_) fun _ => ?_) (.pure cond)) fun _ => .take (by decide) (.pure _)
  · exact .after (.expect (by decide)) fun _ _ _ => .bind parts.ties
      (fun _ _ no => .pure (keeps.ternary cond yes no)) fun _ => .pure _
  · exact .bind (.expectAs (by decide) _) fun _ => .bind parts.stays fun _ => .pure _

theorem signedTies : Ties B R (signed operand expr) (signed operand' expr') :=
  signsTies keeps inner (suffixesTies keeps parts (primaryTies keeps parts))

omit parts inner in
theorem budgetTies (depth : Nat) : Parts B R (expression depth) (expression depth) ∧
    Parts B R (unary depth) (unary depth) := by
  have forward (depth : Nat) := budgetForward depth
  have stays (depth : Nat) := budgetStays depth
  induction depth with
  | zero => exact ⟨⟨.fail, (stays 0).1, .inr ⟨(forward 0).1, (forward 0).1⟩⟩,
      ⟨.fail, (stays 0).2, .inr ⟨(forward 0).2, (forward 0).2⟩⟩⟩
  | succ depth ih =>
    obtain ⟨parts, inner⟩ := ih
    exact ⟨⟨choiceTies keeps parts inner, (stays _).1, .inr ⟨(forward _).1, (forward _).1⟩⟩,
      ⟨signedTies keeps parts inner, (stays _).2, .inr ⟨(forward _).2, (forward _).2⟩⟩⟩

end Rules

def Failure.told : Failure → Failure
  | ⟨.exhausted, rest⟩ => ⟨.tooDeep, rest⟩
  | f => f

def script (expr : Parser Node) : Parser Node := do
  skipNewlines
  let tree ← fun tokens => (expr tokens).mapError Failure.told
  skipNewlines
  if (← nextKind) = .eof then pure tree else unexpected "end of input"

omit laws in
theorem scriptTold (expr : Parser Node) :
    (do skipNewlines
        let tree ← fun tokens => match expr tokens with
          | .error ⟨.exhausted, rest⟩ => .error ⟨.tooDeep, rest⟩
          | result => result
        skipNewlines
        if (← nextKind) = .eof then pure tree else unexpected "end of input") = script expr := by
  unfold script
  refine congrArg (skipNewlines >>= ·) (funext fun _ => congrArg (· >>= _) (funext fun tokens => ?_))
  cases expr tokens with
  | ok found => rfl
  | error f =>
    obtain ⟨cause, rest⟩ := f
    cases cause <;> rfl

omit laws in
theorem programScript (depth : Nat) : program depth = script (expression depth) := scriptTold _

/- Two bonds on the same tokens, of which the second goes by what a script tells. -/
structure Bond.Tells (B C : Bond) : Prop where
  tokens : C.tokens = B.tokens
  told : ∀ f r, B.fails f r → C.fails f.told (r.mapError Failure.told)

omit laws in
theorem scriptTies {C : Bond} [C.Lawful] (tells : B.Tells C) {R : Node → Node → Prop} {expr expr' : Parser Node}
    (ties : Ties B R expr expr') : Ties C R (script expr) (script expr') := by
  refine .step .skipNewlines fun _ => .bind (R := R) (fun s s' tied => ?_) (fun _ _ tree =>
    .step .skipNewlines fun _ => .step .nextKind fun _ => .ite .rfl (.pure tree) .unexpected)
    fun _ => .bind .skipNewlines fun _ => .nextKind (.fail _)
  have outcome := ties s s' (tells.tokens ▸ tied)
  generalize expr s = result, expr' s' = result' at outcome ⊢
  cases outcome with
  | ok value tied => exact .ok value (tells.tokens ▸ tied)
  | failed fails =>
    refine .failed ?_
    have told := tells.told _ _ fails
    cases result' with
    | error g => exact told
    | ok found => exact told

theorem programTies {C : Bond} [C.Lawful] (tells : B.Tells C) {R : Node → Node → Prop} (keeps : Congruent B R)
    (depth : Nat) : Ties C R (program depth) (program depth) := by
  rw [programScript]
  exact scriptTies tells (budgetTies keeps depth).1.ties

theorem allEqual {xs ys : List Node} (each : List.Forall₂ Eq xs ys) : xs = ys := by
  rwa [List.forall₂_eq_eq_eq] at each

theorem exactCongruent {fails : Failure → Except Failure (List Token) → Prop} : Congruent (Bond.exact fails) Eq where
  literal _ word _ := by cases word; rfl
  ident word := by cases word; rfl
  unary word operand := by cases word; rw [operand]
  binary _ left right := by rw [left, right]
  logical _ left right := by rw [left, right]
  ternary cond yes no := by rw [cond, yes, no]
  array word elements := by cases word; rw [allEqual elements]
  object word entries := by cases word; rw [allEqual entries]
  property _ _ word value := by cases word; rw [value]
  assignment word value := by cases word; rw [value]
  block word statements := by cases word; rw [allEqual statements]
  arrow _ word body := by cases word; rw [body]
  call callee args := by rw [callee, allEqual args]
  member _ target key := by rw [target, key]

/- The second parser does the same, unless the first one fails for a certain cause. -/
def Bond.budget (cause : Cause) : Bond := .exact fun f r => r = .error f ∨ f.cause = cause

instance (cause : Cause) : (Bond.budget cause).Lawful := by
  refine exactLawful (fun _ => Or.inl rfl) fun f s r fails _ => Or.inr ?_
  rcases fails with same | same
  · cases same
  · exact same

theorem budgetAgrees {depth more : Nat} (enough : depth ≤ more) :
    Ties (.budget .exhausted) Eq (expression depth) (expression more) ∧
      Ties (.budget .exhausted) Eq (unary depth) (unary more) := by
  induction depth generalizing more with
  | zero => exact ⟨fun _ _ _ => .failed (Or.inr rfl), fun _ _ _ => .failed (Or.inr rfl)⟩
  | succ depth ih =>
    obtain ⟨more, rfl⟩ := Nat.exists_eq_add_of_le' (Nat.le_trans (Nat.le_add_left 1 depth) enough)
    obtain ⟨ties, inner⟩ := ih (Nat.le_of_add_le_add_right enough)
    have keeps : Congruent (.budget .exhausted) Eq := exactCongruent
    have parts : Parts _ _ _ _ := ⟨ties, (budgetStays more).1, .inl exactLevel⟩
    have operands : Parts _ _ _ _ := ⟨inner, (budgetStays more).2, .inl exactLevel⟩
    exact ⟨choiceTies keeps parts operands, signedTies keeps parts operands⟩

theorem budgetTells : (Bond.budget .exhausted).Tells (.budget .tooDeep) := by
  refine ⟨rfl, fun f r fails => ?_⟩
  rcases fails with rfl | exhausted
  · exact Or.inl rfl
  · obtain ⟨cause, rest⟩ := f
    cases exhausted
    exact Or.inr rfl

theorem programAgrees {depth more : Nat} (enough : depth ≤ more) (s : List Token) :
    program more s = program depth s ∨ ∃ rest, program depth s = .error ⟨.tooDeep, rest⟩ := by
  have ties : Ties (.budget .tooDeep) Eq (script (expression depth)) (script (expression more)) :=
    scriptTies budgetTells (budgetAgrees enough).1
  have outcome := ties s s rfl
  rw [← programScript, ← programScript] at outcome
  generalize program depth s = result, program more s = result' at outcome
  cases outcome with
  | ok value tied =>
    cases value
    cases tied
    exact Or.inl rfl
  | @failed f _ fails =>
    rcases fails with same | tooDeep
    · exact Or.inl (leftError same)
    · exact Or.inr ⟨f.rest, by rw [← tooDeep]⟩

end Scriptlet.Parse
