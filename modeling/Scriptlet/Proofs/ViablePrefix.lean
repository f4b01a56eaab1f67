import Scriptlet.Proofs.Grouping
import Scriptlet.Proofs.Mending
import Scriptlet.Proofs.Places
import Scriptlet.Proofs.Tiling

/-! A syntax error is not reported too late. What stands before the token at fault can be completed to a script: an
operand that is missing is a name, a property is a method, a function has an empty body, and what is open is closed.
None of this needs a larger nesting budget. -/
namespace Scriptlet.Parse
open Token (Kind)

def closers : List Kind := [.newline, .eof, .colon, .comma, .rparen, .rbracket, .rbrace]

def Mends (p : Parser Node) : Prop := ∀ s, MendsAt [.ident] (fun _ => closers) closers p s

/- What a nesting budget allows: nothing at all, or a name and more. -/
def Exhausts (p : Parser Node) : Prop := ∀ s, ∃ rest, p s = .error ⟨.exhausted, rest⟩

def AcceptsName (p : Parser Node) : Prop :=
  ∀ rest, headKind rest ∈ closers → ∃ x, p (supplied .ident :: rest) = .ok (x, rest)

def statementEnd (x : Node) : Parser (Reader.Turn Node) := do
  match ← nextKind with
  | .newline =>
    skipNewlines
    pure (.more x)
  | .rbrace => pure (.last x)
  | _ => unexpected "newline or '\x7d'"

def entryEnd (expr : Parser Node) (key : Token) : Parser Node := do
  match ← nextKind with
  | .lparen =>
    let names ← params
    skipNewlines
    let body ← block expr
    pure (.property key.place key.value true names body)
  | .colon =>
    Reader.drop
    let value ← expr
    pure (.property key.place key.value false [] value)
  | _ => unexpected "'(' or ':' after property name"

def entryTail (x : Node) : Parser (Reader.Turn Node) := do
  skipNewlines
  if ← take .comma then
    skipNewlines
    pure (.more x)
  else pure (.last x)

theorem skipSupplied {kind : Kind} (other : kind ≠ .newline) (rest : List Token) :
    skipNewlines (supplied kind :: rest) = .ok ((), supplied kind :: rest) :=
  skipNewlinesAppend noNewlines other

section Lists
variable {α : Type} {item : Parser α} {opening closing : Kind}

theorem commaTurnApply (item : Parser α) {s : List Token} (inside : headKind s ≠ closing) :
    commaTurn closing item s = (do
      let a ← item
      if ← take .comma then pure (.more a) else pure (.last a) : Parser (Reader.Turn α)) s := by
  unfold commaTurn
  rw [bindStep (nextKindApply s), if_neg inside]

theorem emptyBracketed (item : Parser α) (rest : List Token) :
    bracketed opening closing item (supplied opening :: supplied closing :: rest) =
      .ok ((supplied opening, []), rest) :=
  bracketedFinds rfl rfl (.stop (commaTurnStop rfl))

variable (mends : ∀ s, MendsAt [.ident] (fun _ => closers) closers item s) (listed : closing ∈ closers)
  (comma : closing ≠ .comma)
include mends listed comma

theorem commaTurnMends (s : List Token) :
    MendsAt [.ident, closing] (turnExit [.ident, closing] [closing]) [closing] (commaTurn closing item) s := by
  have name : closing ≠ .ident := fun same => absurd (same ▸ listed) (by decide)
  by_cases close : headKind s = closing
  · exact .stop close (by simp) fun s => commaTurnStop
  · have turn : MendsAt [.ident] (turnExit [.ident, closing] [closing]) [closing] (do
        let a ← item
        if ← take .comma then pure (.more a) else pure (.last a)) s := by
      refine (mends s).bind (fun a rest _ => ?_) fun _ => .nothing (by simpa using listed) fun a rest' follows => ?_
      · exact .take [.ident, closing] [closing] (by decide) (by simpa using listed) (by simpa using comma.symm)
          (fun _ => .pure _ fun _ member => member) fun _ => .pure _ fun _ member => member
      · have no : take .comma rest' = .ok (false, rest') := by
          rw [takeApply, if_neg (List.mem_singleton.mp follows ▸ comma)]
        exact ⟨.last a, bindStep no⟩
    have agrees := turn.via (commaTurnApply item close) fun m follows =>
      commaTurnApply item (otherHead follows close (by simpa using name))
    exact agrees.widen (by simp)

theorem bracketedMends {entry : List Kind} {s : List Token} (follow : List Kind) (some : opening ≠ .eof)
    (some' : closing ≠ .eof) (enters : headKind s = opening ∨ opening ∈ entry) :
    MendsAt entry (fun _ => follow) follow (bracketed opening closing item) s := by
  have items (s : List Token) := MendsAt.collect (s := s) (commaTurnMends mends listed comma) (by simp)
    fun rest' follows => commaTurnStop (List.mem_singleton.mp follows)
  refine MendsAt.bind (.expectAs [.ident, closing] some _ enters) (fun first rest _ => ?_) fun _ => ?_
  · exact (items rest).bind (fun _ _ _ => .map (.expectAs follow some' _ (Or.inr (List.mem_singleton.mpr rfl))) _)
      fun _ => .closing some' _ _
  · have start (rest' : List Token) : headKind (supplied closing :: rest') ∈ [.ident, closing] := by
      simp [headKindCons, supplied]
    refine .kinds [closing] (by simpa using some'.symm) start fun first rest' _ => ⟨(first, []), ?_⟩
    have none : Reader.collect (commaTurn closing item) (supplied closing :: rest') =
        .ok ([], supplied closing :: rest') := Reader.collectIff.mpr (.stop (commaTurnStop rfl))
    exact (bindStep none).trans (bindStep (expectAsSupplied closing _ rest'))

end Lists

section Braces
variable {α β : Type} {turn : Parser (Reader.Turn α)} (stops : ∀ s, headKind s = .rbrace → turn s = .ok (.stop, s))
include stops

theorem closeBraces (what : String) (make : List α → β) (rest : List Token) :
    (do
      skipNewlines
      let items ← Reader.collect turn
      let _ ← expectAs .rbrace what
      pure (make items) : Parser β) (supplied .rbrace :: rest) = .ok (make [], rest) := by
  have none : Reader.collect turn (supplied .rbrace :: rest) = .ok ([], supplied .rbrace :: rest) :=
    Reader.collectIff.mpr (.stop (stops _ rfl))
  refine (bindStep (skipSupplied (by decide) rest)).trans ((bindStep none).trans ?_)
  exact bindStep (expectAsSupplied .rbrace what rest)

theorem bracesMend {entry : List Kind} {s : List Token} (follow : List Kind)
    (turns : ∀ s, MendsAt [.ident, .rbrace] (turnExit [.ident, .rbrace] [.rbrace]) [.rbrace] turn s)
    (enters : headKind s = .lbrace ∨ .lbrace ∈ entry) (what : String) (make : Token → List α → β) :
    MendsAt entry (fun _ => follow) follow (do
      let opening ← expect .lbrace
      skipNewlines
      let items ← Reader.collect turn
      let _ ← expectAs .rbrace what
      pure (make opening items)) s := by
  have items (s : List Token) := MendsAt.collect (s := s) turns (by decide)
    fun rest' follows => stops rest' (List.mem_singleton.mp follows)
  refine MendsAt.bind (.expectAs [.newline, .ident, .rbrace] (by decide) _ enters)
    (fun opening rest _ => ?_) fun _ => ?_
  · refine .skipNewlines [.ident, .rbrace] (Or.inr (by decide)) (by decide) fun s => ?_
    exact (items s).bind (fun _ _ _ => .map (.expectAs follow (by decide) _ (Or.inr (List.mem_singleton.mpr rfl))) _)
      fun _ => .closing (by decide) _ _
  · refine .kinds [.rbrace] (by decide) (fun _ => show Kind.rbrace ∈ _ by decide) fun opening rest' _ => ?_
    exact ⟨_, closeBraces stops what (make opening) rest'⟩

end Braces

theorem namesMend (s : List Token) :
    MendsAt [.ident] (fun _ => closers) closers (expectAs .ident "parameter name") s :=
  .expectAs closers (by decide) _ (Or.inr (List.mem_singleton.mpr rfl))

theorem paramsMend {entry : List Kind} {s : List Token} (follow : List Kind)
    (enters : headKind s = .lparen ∨ .lparen ∈ entry) : MendsAt entry (fun _ => follow) follow params s :=
  (bracketedMends namesMend (by decide) (by decide) follow (by decide) (by decide) enters).map _

section Rules
variable {expr : Parser Node} (mends : Mends expr)
include mends

theorem callArgsMend {entry : List Kind} {s : List Token} (follow : List Kind)
    (enters : headKind s = .lparen ∨ .lparen ∈ entry) :
    MendsAt entry (fun _ => follow) follow (callArgs expr) s :=
  (bracketedMends mends (by decide) (by decide) follow (by decide) (by decide) enters).map _

theorem arrayMends {entry : List Kind} {s : List Token} (follow : List Kind)
    (enters : headKind s = .lbracket ∨ .lbracket ∈ entry) :
    MendsAt entry (fun _ => follow) follow (array expr) s :=
  (bracketedMends mends (by decide) (by decide) follow (by decide) (by decide) enters).map _

variable (sound : Sound expr .expression)

omit mends in
include sound in
theorem plainAgain {m left : List Token} {x : Node} (ok : expr m = .ok (x, left))
    (stop : ∀ t, m = t :: left → t.kind = .ident → headKind left ≠ .assign) : statement expr m = .ok (x, left) := by
  obtain ⟨used, rfl, reads⟩ := sound ok
  refine statementOfExpression (readsStarts reads) (fun t single => stop t ?_) ok
  rw [single, List.singleton_append]

include sound

theorem statementMends : Mends (statement expr) := by
  intro s
  by_cases named : ∃ t next rest, s = t :: next :: rest ∧ t.kind = .ident ∧ next.kind = .assign
  · obtain ⟨t, next, rest, rfl, word, equals⟩ := named
    have value : MendsAt [.assign] (fun _ => closers) closers (do
        let _ ← expect .assign
        let value ← expr
        pure (Node.assignment t.place t.value value)) (next :: rest) := by
      refine MendsAt.bind (.expectAs [.ident] (by decide) _ (Or.inl equals)) (fun _ rest _ => ?_) ?_
      · exact (mends rest).map _
      · rintro ⟨g, failed, _⟩
        cases (expectAsOk.mpr ⟨rfl, equals⟩).symm.trans failed
    refine value.consBefore (fun _ => True) (assignmentApply word equals rest) (fun _ _ _ _ _ => trivial)
      (fun _ _ => trivial) fun m x left ok _ => ?_
    obtain ⟨n, middle, taken, _⟩ := Reader.bindOk.mp ok
    obtain ⟨rfl, equals'⟩ := expectAsOk.mp taken
    exact (assignmentApply word equals' middle).trans ok
  · have plain {t next : Token} {rest : List Token} (same : s = t :: next :: rest) :
        ¬ (t.kind = .ident ∧ next.kind = .assign) := fun both => named ⟨t, next, rest, same, both⟩
    have here : statement expr s = expr s := plainApply fun _ _ _ => plain
    constructor
    · intro x rest ok
      obtain ⟨used, split, nothing, again⟩ := (mends s).ok x rest (here ▸ ok)
      refine ⟨used, split, nothing, fun rest' follows => plainAgain sound (again rest' follows) fun t same word => ?_⟩
      obtain rfl : used = [t] := List.append_cancel_right same
      refine otherHead follows (fun equals => ?_) (by decide)
      obtain ⟨next, more, rfl, equals⟩ := headKindSome equals (by decide)
      exact plain split ⟨word, equals⟩
    · intro f failed syn
      obtain ⟨used, fill, split, noEnd, again⟩ := (mends s).error f (here ▸ failed) syn
      refine ⟨used, fill, split, noEnd, fun rest' follows => ?_⟩
      obtain ⟨enters, x, ok⟩ := again rest' follows
      refine ⟨enters, x, plainAgain sound ok fun _ _ _ equals => ?_⟩
      exact absurd (equals ▸ follows) (by decide)

omit mends sound in
theorem statementEndMends (x : Node) (s : List Token) :
    MendsAt closers (turnExit [.ident, .rbrace] [.rbrace]) [.rbrace] (statementEnd x) s := by
  have line {m : List Token} (head : headKind m = .newline) :
      statementEnd x m = (do skipNewlines; pure (.more x) : Parser (Reader.Turn Node)) m := by
    unfold statementEnd
    rw [bindStep (nextKindApply m), head]
  have last {m : List Token} (head : headKind m = .rbrace) : statementEnd x m = .ok (.last x, m) := by
    unfold statementEnd
    rw [bindStep (nextKindApply m), head]
    rfl
  by_cases newline : headKind s = .newline
  · have more : MendsAt [.newline] (turnExit [.ident, .rbrace] [.rbrace]) [.rbrace] (do
        skipNewlines
        pure (.more x)) s :=
      .skipNewlines [.ident, .rbrace] (Or.inl newline) (by decide) fun _ => .pure _ fun _ member => member
    refine (more.via (line newline) fun m follows => line ?_).widen (by decide)
    exact follows.elim (·.trans newline) List.mem_singleton.mp
  · by_cases close : headKind s = .rbrace
    · have inside : [Kind.rbrace] ⊆ closers := by decide
      refine .ofOk _ [] rfl (last close) (fun _ => inside) fun rest' follows => last ?_
      exact follows.elim (·.trans close) List.mem_singleton.mp
    · have failed : statementEnd x s = .error ⟨.unexpected "newline or '\x7d'", s⟩ := by
        unfold statementEnd
        rw [bindStep (nextKindApply s)]
        cases kind : headKind s <;> first | exact absurd kind newline | exact absurd kind close | rfl
      refine .ofError failed rfl [] (by decide) (fun rest' follows => ?_) fun rest' follows => ?_
      · exact List.mem_singleton.mp follows ▸ by decide
      · exact ⟨_, last (List.mem_singleton.mp follows)⟩

theorem statementTurnMends (s : List Token) :
    MendsAt [.ident, .rbrace] (turnExit [.ident, .rbrace] [.rbrace]) [.rbrace] (statementTurn expr) s := by
  have goes {m : List Token} (head : headKind m ≠ .rbrace) :
      statementTurn expr m = (statement expr >>= statementEnd) m := by
    unfold statementTurn
    rw [bindStep (nextKindApply m), if_neg head]
    rfl
  by_cases close : headKind s = .rbrace
  · exact .stop close (by decide) fun _ => statementTurnStop
  · have turn : MendsAt [.ident] (turnExit [.ident, .rbrace] [.rbrace]) [.rbrace]
        (statement expr >>= statementEnd) s := by
      refine (statementMends mends sound s).bind (fun x rest _ => statementEndMends x rest) fun _ =>
        .nothing (by decide) fun x rest' follows => ⟨.last x, ?_⟩
      unfold statementEnd
      rw [bindStep (nextKindApply rest'), List.mem_singleton.mp follows]
      rfl
    exact (turn.via (goes close) fun m follows => goes (otherHead follows close (by decide))).widen (by decide)

omit mends sound in
theorem emptyBlock (rest : List Token) :
    block expr (supplied .lbrace :: supplied .rbrace :: rest) = .ok (.block (supplied .lbrace).place [], rest) :=
  (bindStep (expectAsSupplied .lbrace _ _)).trans (closeBraces (fun _ => statementTurnStop) _ _ rest)

theorem blockMends {entry : List Kind} {s : List Token} (follow : List Kind)
    (enters : headKind s = .lbrace ∨ .lbrace ∈ entry) : MendsAt entry (fun _ => follow) follow (block expr) s :=
  bracesMend (fun _ => statementTurnStop) follow (statementTurnMends mends sound) enters _ _

omit mends sound in
theorem emptyArrow (params : List String) (place : Place) (rest : List Token) :
    arrow expr params place ([Kind.arrow, .lbrace, .rbrace].map supplied ++ rest) =
      .ok (.arrow place params (.block (supplied .lbrace).place []), rest) := by
  refine (bindStep (expectAsSupplied .arrow _ _)).trans ((bindStep (skipSupplied (by decide) _)).trans ?_)
  exact (bindStep (nextKindApply _)).trans ((congrFun (if_pos rfl) _).trans (bindStep (emptyBlock rest)))

theorem arrowMends (params : List String) (place : Place) (s : List Token) :
    MendsAt [.arrow] (fun _ => closers) closers (arrow expr params place) s := by
  unfold arrow
  refine MendsAt.bind (.expectAs [.newline, .lbrace, .ident] (by decide) _ (Or.inr (List.mem_singleton.mpr rfl)))
    (fun _ rest _ => ?_) fun _ => ?_
  · refine .skipNewlines [.lbrace, .ident] (Or.inr (by decide)) (by decide) fun s => ?_
    by_cases brace : headKind s = .lbrace
    · have body : MendsAt [.lbrace] _ _ _ s :=
        (blockMends mends sound closers (Or.inl brace)).map (Node.arrow place params)
      refine (body.via ?_ fun m follows => ?_).widen (by decide)
      · rw [bindStep (nextKindApply s), if_pos brace]
      · rw [bindStep (nextKindApply m), if_pos (follows.elim (·.trans brace) List.mem_singleton.mp)]
    · have body := (mends s).map (Node.arrow place params)
      refine (body.via ?_ fun m follows => ?_).widen (by decide)
      · rw [bindStep (nextKindApply s), if_neg brace]
      · rw [bindStep (nextKindApply m), if_neg (otherHead follows brace (by decide))]
  · refine .kinds [.lbrace, .rbrace] (by decide) (fun _ => show Kind.lbrace ∈ _ by decide) fun _ rest' _ => ?_
    exact ⟨_, (bindStep (expectAsSupplied .arrow _ _)).symm.trans (emptyArrow params place rest')⟩

omit mends sound in
theorem methodApply (key : Token) {s : List Token} (head : headKind s = .lparen) :
    entryEnd expr key s = (do
      let names ← params
      skipNewlines
      let body ← block expr
      pure (.property key.place key.value true names body) : Parser Node) s := by
  unfold entryEnd
  rw [bindStep (nextKindApply s), head]

omit mends sound in
theorem fieldApply (key : Token) {t : Token} (colon : t.kind = .colon) (m : List Token) :
    entryEnd expr key (t :: m) = (do
      let value ← expr
      pure (.property key.place key.value false [] value) : Parser Node) m := by
  unfold entryEnd
  rw [bindStep (nextKindApply _), headKindCons, colon]
  exact bindStep (dropApply _)

omit mends sound in
theorem emptyMethod (key : Token) (rest : List Token) :
    ∃ x, entryEnd expr key ([Kind.lparen, .rparen, .lbrace, .rbrace].map supplied ++ rest) = .ok (x, rest) := by
  have none (m : List Token) : params (supplied .lparen :: supplied .rparen :: m) = .ok ([], m) :=
    bindStep (emptyBracketed _ m)
  refine ⟨.property key.place key.value true [] (.block (supplied .lbrace).place []), ?_⟩
  refine (methodApply key rfl).trans ((bindStep (none _)).trans ?_)
  exact (bindStep (skipSupplied (by decide) _)).trans (bindStep (emptyBlock rest))

theorem entryEndMends (key : Token) (s : List Token) :
    MendsAt [.lparen] (fun _ => closers) closers (entryEnd expr key) s := by
  by_cases method : headKind s = .lparen
  · have body : MendsAt [.lparen] (fun _ => closers) closers (do
        let names ← params
        skipNewlines
        let body ← block expr
        pure (Node.property key.place key.value true names body)) s := by
      refine (paramsMend [.newline, .lbrace] (Or.inl method)).bind (fun names rest _ => ?_) fun _ => ?_
      · exact .skipNewlines [.lbrace] (Or.inr (by decide)) (by decide) fun s =>
          (blockMends mends sound closers (Or.inr (by decide))).map _
      · refine .kinds [.lbrace, .rbrace] (by decide) (fun _ => show Kind.lbrace ∈ _ by decide) fun names rest' _ => ?_
        exact ⟨_, (bindStep (skipSupplied (by decide) _)).trans (bindStep (emptyBlock rest'))⟩
    exact body.via (methodApply key method) fun m follows =>
      methodApply key (follows.elim (·.trans method) List.mem_singleton.mp)
  · by_cases field : headKind s = .colon
    · obtain ⟨t, rest, rfl, colon⟩ := headKindSome field (by decide)
      exact ((mends rest).map _).cons (fieldApply key colon)
    · have failed : entryEnd expr key s = .error ⟨.unexpected "'(' or ':' after property name", s⟩ := by
        unfold entryEnd
        rw [bindStep (nextKindApply s)]
        cases kind : headKind s <;> first | exact absurd kind method | exact absurd kind field | rfl
      exact .ofError failed rfl [.lparen, .rparen, .lbrace, .rbrace] (by decide)
        (fun _ _ => List.mem_singleton.mpr rfl) fun rest' _ => emptyMethod key rest'

omit mends sound in
theorem noKeyFails {key : Token} {rest : List Token} (noKey : ¬ IsKey key) :
    ∃ f, property expr (key :: rest) = .error f ∧ f.rest = key :: rest := by
  unfold property
  rw [bindStep (peekApply _)]
  simp only [List.head?_cons]
  by_cases other : key.kind ≠ .ident ∧ key.kind ≠ .string
  · rw [if_pos other]
    exact ⟨_, rfl, rfl⟩
  · have string : key.kind = .string := by
      by_contra notString
      exact other ⟨fun word => noKey (Or.inl word), notString⟩
    rw [if_neg other, if_pos ⟨string, fun fits => noKey (Or.inr ⟨string, fits⟩)⟩]
    exact ⟨_, rfl, rfl⟩

theorem propertyMends : Mends (property expr) := by
  intro s
  have keyed {key : Token} (word : IsKey key) (m : List Token) : property expr (key :: m) = entryEnd expr key m :=
    propertyApply word m
  have wrong {f : Failure} (failed : property expr s = .error f) (here : f.rest = s) :
      MendsAt [.ident] (fun _ => closers) closers (property expr) s := by
    refine .ofError failed here [.ident, .lparen, .rparen, .lbrace, .rbrace] (by decide)
      (fun _ _ => List.mem_singleton.mpr rfl) fun rest' _ => ?_
    obtain ⟨x, method⟩ := @emptyMethod expr (supplied .ident) rest'
    exact ⟨x, (keyed (Or.inl rfl) _).trans method⟩
  match s with
  | [] => exact wrong rfl rfl
  | key :: rest =>
    by_cases word : IsKey key
    · exact (entryEndMends mends sound key rest).cons (keyed word)
    · obtain ⟨f, failed, here⟩ := @noKeyFails expr key rest word
      exact wrong failed here

theorem propertyTurnMends (s : List Token) :
    MendsAt [.ident, .rbrace] (turnExit [.ident, .rbrace] [.rbrace]) [.rbrace] (propertyTurn expr) s := by
  have goes {m : List Token} (head : headKind m ≠ .rbrace) :
      propertyTurn expr m = (property expr >>= entryTail) m := by
    unfold propertyTurn
    rw [bindStep (nextKindApply m), if_neg head]
    rfl
  by_cases close : headKind s = .rbrace
  · exact .stop close (by decide) fun _ => propertyTurnStop
  · have turn : MendsAt [.ident] (turnExit [.ident, .rbrace] [.rbrace]) [.rbrace]
        (property expr >>= entryTail) s := by
      refine (propertyMends mends sound s).bind (fun x rest _ => ?_) fun _ =>
        .nothing (by decide) fun x rest' follows => ⟨.last x, ?_⟩
      · refine .skipNewlines [.comma, .rbrace] (Or.inr (by decide)) (by decide) fun s => ?_
        refine .take [.newline, .ident, .rbrace] [.rbrace] (by decide) (by decide) (by decide)
          (fun s => ?_) fun s => ?_
        · exact .skipNewlines [.ident, .rbrace] (Or.inr (by decide)) (by decide) fun s =>
            .pure _ fun _ member => member
        · exact .pure _ fun _ member => member
      · have brace := List.mem_singleton.mp follows
        have skip : skipNewlines rest' = .ok ((), rest') := skipNewlinesAppend noNewlines (brace ▸ by decide)
        have no : take .comma rest' = .ok (false, rest') := by rw [takeApply, if_neg (brace ▸ by decide)]
        exact (bindStep skip).trans (bindStep no)
    exact (turn.via (goes close) fun m follows => goes (otherHead follows close (by decide))).widen (by decide)

theorem objectMends {entry : List Kind} {s : List Token} (follow : List Kind)
    (enters : headKind s = .lbrace ∨ .lbrace ∈ entry) : MendsAt entry (fun _ => follow) follow (object expr) s :=
  bracesMend (fun _ => propertyTurnStop) follow (propertyTurnMends mends sound) enters _ _

omit sound in
theorem closingMends {β : Type} (follow : List Kind) {closing : Kind} (listed : closing ∈ closers)
    (some : closing ≠ .eof) (what : String) (g : Node → Token → β) (s : List Token) :
    MendsAt [.ident] (fun _ => follow) follow (do
      let x ← expr
      let t ← expectAs closing what
      pure (g x t)) s := by
  refine (mends s).bind (fun x rest _ => .map (.expectAs follow some what (Or.inr listed)) (g x)) fun _ => ?_
  refine .kinds [closing] (by simpa using some.symm) (fun _ => listed) fun x rest' _ => ?_
  exact ⟨_, bindStep (expectAsSupplied closing what rest')⟩

omit mends sound in
theorem numberMends (t : Token) (s : List Token) : MendsAt closers (fun _ => closers) closers (number t) s := by
  have silent {cause : Cause} (other : ¬ cause.IsSyntax) :
      MendsAt closers (fun _ => closers) closers (fail cause : Parser SExpr) s := .ofSilent rfl other
  unfold number
  split
  · exact silent id
  · split
    · split
      · exact .pure _ fun _ member => member
      · exact silent id
    · split
      · exact .pure _ fun _ member => member
      · exact silent id

omit mends sound in
theorem wordApply {t : Token} (word : t.kind = .ident) (m : List Token) :
    primary expr (t :: m) =
      if headKind m = .arrow then arrow expr [t.value] t.place m else .ok (.ident t.place t.value, m) := by
  unfold primary
  rw [bindStep (aheadApply _)]
  simp only [word, arrowNext, decide_eq_true_eq]
  refine (bindStep (dropApply _)).trans ?_
  split <;> rfl

omit mends sound in
theorem functionApply {t : Token} {m : List Token} (opening : t.kind = .lparen) (ahead : arrowAhead 0 m = true) :
    primary expr (t :: m) = (params >>= fun names => arrow expr names t.place) (t :: m) := by
  unfold primary
  rw [bindStep (aheadApply _)]
  simp only [opening, ahead, if_true]

omit mends sound in
theorem groupApply {t : Token} {m : List Token} (opening : t.kind = .lparen) (ahead : arrowAhead 0 m = false) :
    primary expr (t :: m) = (do
      let inner ← expr
      let _ ← expect .rparen
      pure inner : Parser Node) m := by
  unfold primary
  rw [bindStep (aheadApply _)]
  simp only [opening, ahead]
  exact bindStep (dropApply _)

theorem wordMends {t : Token} (word : t.kind = .ident) (rest : List Token) :
    MendsAt [.ident] (fun _ => closers) closers (primary expr) (t :: rest) := by
  by_cases mark : headKind rest = .arrow
  · have here : primary expr (t :: rest) = arrow expr [t.value] t.place rest := by rw [wordApply word, if_pos mark]
    refine (arrowMends mends sound [t.value] t.place rest).consBefore (fun _ => True) here (fun _ _ _ _ _ => trivial)
      (fun _ _ => trivial) fun m x left ok _ => ?_
    obtain ⟨next, middle, taken, _⟩ := Reader.bindOk.mp ok
    obtain ⟨rfl, mark'⟩ := expectAsOk.mp taken
    rw [wordApply word, if_pos (show headKind (next :: middle) = .arrow from mark')]
    exact ok
  · have name : MendsAt closers (fun _ => closers) closers (pure (.ident t.place t.value) : Parser Node) rest :=
      .pure _ fun _ member => member
    refine name.consBefore (headKind · ≠ .arrow) (by rw [wordApply word, if_neg mark]; rfl) ?_ ?_ ?_
    · intro x left ok left' follows
      cases ok
      exact otherHead follows mark (by decide)
    · exact fun left' follows same => absurd (same ▸ follows) (by decide)
    · intro m x left ok other
      cases ok
      rw [wordApply word, if_neg other]

theorem functionMends {t : Token} (opening : t.kind = .lparen) {rest : List Token}
    (ahead : arrowAhead 0 rest = true) :
    MendsAt [.ident] (fun _ => closers) closers (primary expr) (t :: rest) := by
  have whole : MendsAt [] (fun _ => closers) closers
      (params >>= fun names => arrow expr names t.place) (t :: rest) := by
    have list : MendsAt [] (fun _ => [.arrow]) [.arrow] params (t :: rest) := paramsMend [.arrow] (Or.inl opening)
    refine list.bind (fun names rest _ => arrowMends mends sound names t.place rest) fun _ => ?_
    exact .kinds [.arrow, .lbrace, .rbrace] (by decide) (fun _ => List.mem_singleton.mpr rfl) fun names rest' _ =>
      ⟨_, emptyArrow names t.place rest'⟩
  refine whole.viaFirst (fun _ => List.mem_cons_self) List.mem_cons_self (functionApply opening ahead)
    fun m x left ok => (functionApply opening ?_).trans ok
  -- Whatever is accepted as names and a function has an arrow behind the names, so the lookahead finds it again.
  obtain ⟨names, middle, list, body⟩ := Reader.bindOk.mp ok
  obtain ⟨mark, after, taken, _⟩ := Reader.bindOk.mp body
  obtain ⟨rfl, mark⟩ := expectAsOk.mp taken
  obtain ⟨o, tokens, used, same, _, _, reads⟩ := paramsRead list
  obtain ⟨_, rfl⟩ := List.cons.inj same
  exact namesThenArrowAhead (readNamesThenArrow reads mark)

theorem groupMends {t : Token} (opening : t.kind = .lparen) {rest : List Token} (ahead : arrowAhead 0 rest = false) :
    MendsAt [.ident] (fun _ => closers) closers (primary expr) (t :: rest) := by
  have inner : MendsAt [.ident] (fun _ => closers) closers (do
      let inner ← expr
      let _ ← expect .rparen
      pure inner) rest :=
    closingMends mends closers (by decide) (by decide) _ (fun x _ => x) rest
  have group {m left : List Token} {x : Node} (ok : (do
      let inner ← expr
      let _ ← expect .rparen
      pure inner : Parser Node) m = .ok (x, left)) : arrowAhead 0 m = false ↔ headKind left ≠ .arrow := by
    obtain ⟨y, middle, value, close⟩ := Reader.bindOk.mp ok
    obtain ⟨c, after, taken, same⟩ := Reader.bindOk.mp close
    cases same
    obtain ⟨rfl, closing⟩ := expectAsOk.mp taken
    obtain ⟨used, rfl, reads⟩ := sound value
    exact groupAhead (readsNests reads rfl) closing
  -- The lookahead goes past what the group holds, so it depends only on the token behind the closing bracket.
  refine inner.consBefore (headKind · ≠ .arrow) (groupApply opening ahead) ?_ ?_ ?_
  · exact fun x left ok left' follows => otherHead follows ((group ok).mp ahead) (by decide)
  · exact fun left' follows same => absurd (same ▸ follows) (by decide)
  · exact fun m x left ok other => (groupApply opening ((group ok).mpr other)).trans ok

theorem primaryMends : Mends (primary expr) := by
  intro s
  have wrong (failed : primary expr s = .error ⟨.unexpected "expression", s⟩) :
      MendsAt [.ident] (fun _ => closers) closers (primary expr) s := by
    refine .ofError failed rfl [.ident] (by decide) (fun _ _ => List.mem_singleton.mpr rfl) fun rest' follows => ?_
    refine ⟨_, (wordApply rfl rest').trans (if_neg fun mark => ?_)⟩
    exact absurd (mark ▸ follows) (by decide)
  have literal {t : Token} {rest : List Token} (same : ∃ x, ∀ m, primary expr (t :: m) = .ok (x, m)) :
      MendsAt [.ident] (fun _ => closers) closers (primary expr) (t :: rest) := by
    obtain ⟨x, same⟩ := same
    have value : MendsAt closers (fun _ => closers) closers (pure x : Parser Node) rest :=
      .pure _ fun _ member => member
    exact value.cons same
  match s with
  | [] => exact wrong rfl
  | t :: rest =>
    cases kind : t.kind with
    | ident => exact wordMends mends sound kind rest
    | lparen =>
      cases ahead : arrowAhead 0 rest with
      | true => exact functionMends mends sound kind ahead
      | false => exact groupMends mends sound kind ahead
    | number =>
      refine ((numberMends t rest).map (Node.literal t.place .number)).cons fun m => ?_
      unfold primary
      rw [bindStep (aheadApply _)]
      simp only [kind]
      exact bindStep (dropApply _)
    | string | trueWord | falseWord | nullWord =>
      refine literal (Exists.intro ?_ fun m => ?_)
      on_goal 2 =>
        unfold primary
        rw [bindStep (aheadApply _)]
        simp only [kind]
        rfl
    | lbracket =>
      have same (m : List Token) : primary expr (t :: m) = array expr (t :: m) := by
        unfold primary
        rw [bindStep (aheadApply _)]
        simp only [kind]
      have whole : MendsAt [] (fun _ => closers) closers (array expr) (t :: rest) :=
        arrayMends mends closers (Or.inl kind)
      exact whole.viaFirst (fun _ => List.mem_cons_self) List.mem_cons_self (same rest) fun m x left => (same m).trans
    | lbrace =>
      have same (m : List Token) : primary expr (t :: m) = object expr (t :: m) := by
        unfold primary
        rw [bindStep (aheadApply _)]
        simp only [kind]
      have whole : MendsAt [] (fun _ => closers) closers (object expr) (t :: rest) :=
        objectMends mends sound closers (Or.inl kind)
      exact whole.viaFirst (fun _ => List.mem_cons_self) List.mem_cons_self (same rest) fun m x left => (same m).trans
    | _ =>
      refine wrong ?_
      unfold primary
      rw [bindStep (aheadApply _)]
      simp only [kind]
      rfl

omit mends sound in
theorem closersStop (rest : List Token) (closes : headKind rest ∈ closers) :
    suffixTurn expr rest = .ok (.stop, rest) :=
  suffixTurnStop (Closes.not closes (by decide)) (Closes.not closes (by decide)) (Closes.not closes (by decide))

omit sound in
theorem suffixTurnMends (s : List Token) :
    MendsAt closers (turnExit closers closers) closers (suffixTurn expr) s := by
  suffices same : MendsAt closers (fun _ => closers) closers (suffixTurn expr) s from
    same.narrow fun turn => by rw [turnExitSame]; exact fun _ member => member
  by_cases dot : headKind s = .dot
  · obtain ⟨t, rest, rfl, mark⟩ := headKindSome dot (by decide)
    have name : MendsAt [.ident] (fun _ => closers) closers (expectAs .ident "property name") rest :=
      .expectAs closers (by decide) _ (Or.inr (List.mem_singleton.mpr rfl))
    refine (name.map fun name => Reader.Turn.more (Suffix.name name)).cons fun m => ?_
    unfold suffixTurn
    rw [bindStep (nextKindApply _), headKindCons, mark]
    exact bindStep (dropApply _)
  · by_cases bracket : headKind s = .lbracket
    · obtain ⟨t, rest, rfl, opening⟩ := headKindSome bracket (by decide)
      have key := closingMends mends closers (show Kind.rbracket ∈ closers by decide) (by decide) Kind.rbracket.label
        (fun key _ => Reader.Turn.more (Suffix.index key)) rest
      refine key.cons fun m => ?_
      unfold suffixTurn
      rw [bindStep (nextKindApply _), headKindCons, opening]
      exact bindStep (dropApply _)
    · by_cases paren : headKind s = .lparen
      · obtain ⟨t, rest, rfl, opening⟩ := headKindSome paren (by decide)
        have args : MendsAt [] (fun _ => closers) closers (callArgs expr) (t :: rest) :=
          callArgsMend mends closers (Or.inl paren)
        have same (m : List Token) : suffixTurn expr (t :: m) =
            (do let args ← callArgs expr; pure (.more (.arguments args)) : Parser (Reader.Turn Suffix)) (t :: m) := by
          unfold suffixTurn
          rw [bindStep (nextKindApply _), headKindCons, opening]
        have comma : Kind.comma ∈ closers := by decide
        exact (args.map _).viaFirst (fun _ => comma) comma (same rest) fun m x left => (same m).trans
      · refine .ofOk .stop [] rfl (suffixTurnStop dot bracket paren) (fun _ _ member => member)
          fun rest' follows => ?_
        exact suffixTurnStop (otherHead follows dot (by decide)) (otherHead follows bracket (by decide))
          (otherHead follows paren (by decide))

theorem suffixedMends : Mends (suffixed expr) := by
  intro s
  have suffixes (s : List Token) :=
    MendsAt.collect (s := s) (suffixTurnMends mends) (fun _ member => member) closersStop
  refine (primaryMends mends sound s).bind (fun target rest _ => (suffixes rest).map _) fun _ => ?_
  refine .nothing (fun _ member => member) fun target rest' follows => ⟨target, ?_⟩
  exact bindStep (Reader.collectIff.mpr (.stop (closersStop rest' follows)))

variable {operand : Parser Node} (inner : Mends operand)
include inner

theorem signedMends : Mends (signed operand expr) := by
  intro s
  have plain {m : List Token} (notOp : headKind m ≠ .notOp) (minus : headKind m ≠ .minus) :
      signed operand expr m = suffixed expr m := by
    unfold signed
    rw [bindStep (peekApply _)]
    cases m with
    | nil => rfl
    | cons t m => exact congrFun (if_neg (not_or.mpr ⟨notOp, minus⟩)) _
  by_cases sign : headKind s = .notOp ∨ headKind s = .minus
  · match s with
    | [] => exact absurd sign (by decide)
    | t :: rest =>
      refine ((inner rest).map (Node.unary t.place t.value)).cons fun m => ?_
      unfold signed
      rw [bindStep (peekApply _)]
      exact (congrFun (if_pos sign) _).trans (bindStep (dropApply _))
  · obtain ⟨notOp, minus⟩ := not_or.mp sign
    exact (suffixedMends mends sound s).via (plain notOp minus) fun m follows =>
      plain (otherHead follows notOp (by decide)) (otherHead follows minus (by decide))

omit mends sound inner in
theorem closersFree {rest : List Token} (closes : headKind rest ∈ closers) : (headKind rest).precedence? = none := by
  revert closes
  cases headKind rest <;> decide

omit mends sound in
theorem linkTurnMends (least : Int) (s : List Token) :
    MendsAt closers (turnExit closers closers) closers (linkTurn operand least) s := by
  suffices same : MendsAt closers (fun _ => closers) closers (linkTurn operand least) s from
    same.narrow fun turn => by rw [turnExitSame]; exact fun _ member => member
  by_cases weak : ∀ strength, (headKind s).precedence? = some strength → (strength : Int) < least
  · refine .ofOk .stop [] rfl (linkTurnStop weak) (fun _ _ member => member) fun rest' follows => linkTurnStop ?_
    rcases follows with same | closes
    · exact same ▸ weak
    · exact fun _ binds => (nomatch (closersFree closes).symm.trans binds)
  · obtain ⟨strength, binds, strong⟩ : ∃ strength, (headKind s).precedence? = some strength ∧
        ¬ (strength : Int) < least := by simpa using weak
    match s with
    | [] => cases binds
    | t :: rest =>
      refine ((inner rest).map fun right => Reader.Turn.more ⟨t, strength, right⟩).cons fun m => ?_
      unfold linkTurn
      rw [bindStep (peekApply _)]
      simp only [List.head?_cons, show t.kind.precedence? = some strength from binds]
      exact (congrFun (if_neg strong) _).trans (bindStep (dropApply _))

omit mends sound in
theorem chainMends (least : Int) : Mends (chain operand least) := by
  intro s
  have links (s : List Token) := MendsAt.collect (s := s) (linkTurnMends inner least) (fun _ member => member)
    fun _ closes => linkTurnFree (closersFree closes)
  refine (inner s).bind (fun first rest _ => (links rest).map (chainTree first)) fun _ => ?_
  refine .nothing (fun _ member => member) fun first rest' follows => ⟨chainTree first [], ?_⟩
  exact bindStep (Reader.collectIff.mpr (.stop (linkTurnFree (closersFree follows))))

omit sound in
theorem choiceMends (either : Exhausts expr ∨ AcceptsName expr) : Mends (choice operand expr) := by
  intro s
  refine (chainMends inner 1 s).bind (fun cond rest _ => ?_) fun _ => ?_
  · refine .take [.ident] closers (by decide) (fun _ member => member) (by decide) (fun s => ?_) fun s =>
      .pure _ fun _ member => member
    -- The budget is not used up where the first expression is, so a name can stand for the second.
    have accepts (left : ∀ rest, expr s ≠ .error ⟨.exhausted, rest⟩) : AcceptsName expr :=
      either.resolve_left fun exhausts => (exhausts s).elim left
    refine (mends s).bind (fun yes rest ok => ?_) fun ⟨f, failed, syn⟩ => ?_
    · refine .bind (.expectAs [.ident] (by decide) _ (Or.inr (by decide))) (fun _ rest _ => (mends rest).map _)
        fun _ => ?_
      refine .kinds [.ident] (by decide) (fun _ => List.mem_singleton.mpr rfl) fun _ rest' follows => ?_
      obtain ⟨no, accepted⟩ := accepts (fun _ exhausted => (nomatch ok.symm.trans exhausted)) rest' follows
      exact ⟨_, bindStep accepted⟩
    · have other (rest : List Token) : expr s ≠ .error ⟨.exhausted, rest⟩ := fun exhausted => by
        cases failed.symm.trans exhausted
        exact syn
      refine .kinds [.colon, .ident] (by decide) (fun _ => show Kind.colon ∈ closers by decide) ?_
      intro yes rest' follows
      obtain ⟨no, accepted⟩ := accepts other rest' follows
      exact ⟨_, (bindStep (expectAsSupplied .colon _ _)).trans (bindStep accepted)⟩
  · refine .nothing (fun _ member => member) fun cond rest' follows => ⟨cond, ?_⟩
    have no : take .question rest' = .ok (false, rest') := by
      rw [takeApply, if_neg (Closes.not follows (by decide))]
    exact bindStep no

end Rules

theorem expressionEither (depth : Nat) : Exhausts (expression depth) ∨ AcceptsName (expression depth) := by
  match depth with
  | 0 => exact Or.inl fun s => ⟨s, rfl⟩
  | 1 => exact Or.inl fun s => ⟨s, rfl⟩
  | depth + 2 =>
    refine Or.inr fun rest follows => ?_
    have name : Finds depth (.primary _) [supplied .ident] rest :=
      identFinds rfl (Closes.not follows (by decide))
    exact ⟨_, primaryFinds name ⟨(by decide : Kind.ident ≠ .notOp), (by decide : Kind.ident ≠ .minus)⟩ follows⟩

theorem budgetMends (depth : Nat) : Mends (expression depth) ∧ Mends (unary depth) := by
  induction depth with
  | zero => exact ⟨fun s => .ofSilent rfl id, fun s => .ofSilent rfl id⟩
  | succ depth ih =>
    exact ⟨choiceMends ih.1 ih.2 (expressionEither depth), signedMends ih.1 (readsOfBudget depth).1 ih.2⟩

theorem programMends {depth : Nat} {s : List Token} {f : Failure} (failed : program depth s = .error f)
    (syn : f.cause.IsSyntax) :
    ∃ used fill tree, s = used ++ f.rest ∧ NoEnd fill ∧ program depth (used ++ fill) = .ok (tree, []) := by
  obtain ⟨before, start, skip, skipped, rfl, front⟩ := skipNewlinesSplit s
  unfold program at failed
  rw [bindStep skip] at failed
  have mends := (budgetMends depth).1 start
  rcases Reader.bindError.mp failed with inside | ⟨tree, middle, inside, after⟩
  · have wrong : expression depth start = .error f := by
      split at inside
      · cases inside
        exact absurd syn id
      · exact inside
    obtain ⟨used, fill, rfl, noEnd, again⟩ := mends.error f wrong syn
    obtain ⟨enters, tree, ok⟩ := again [] (by decide)
    refine ⟨before ++ used, fill, tree, by rw [List.append_assoc], noEnd, ?_⟩
    have first : headKind ((used ++ fill) ++ []) ≠ .newline := by
      rw [List.append_assoc]
      exact otherHead (headAgain fun empty => Or.inr (enters empty)) front (by decide)
    have whole := programOfExpression skipped noNewlines first (by rwa [List.append_assoc])
    rwa [List.append_nil, ← List.append_assoc] at whole
  · have value : expression depth start = .ok (tree, middle) := by
      split at inside
      · cases inside
      · exact inside
    obtain ⟨after', final, skip', skipped', rfl, _⟩ := skipNewlinesSplit middle
    rw [bindStep skip', bindStep (nextKindApply _)] at after
    split at after
    · cases after
    · cases after
      obtain ⟨used, rfl, _, again⟩ := mends.ok tree _ value
      have follows : headKind after' = headKind (after' ++ final) ∨ headKind after' ∈ [Kind.eof] := by
        cases after' with
        | nil => exact Or.inr (by decide)
        | cons t more => exact Or.inl rfl
      have first : headKind (used ++ after') ≠ .newline :=
        otherHead (headAgain fun _ => follows) front (by decide)
      refine ⟨before ++ (used ++ after'), [], tree, by simp, noEndNil, ?_⟩
      rw [List.append_nil]
      exact programOfExpression skipped skipped' first
        (again after' (follows.imp_right fun ends => (by decide : [Kind.eof] ⊆ closers) ends))

theorem tokensDistinct {source : String} {stream : Token.Stream} (ok : tokenize source = .ok stream) :
    stream.toList.Nodup := by
  refine (Token.tokenizeTiled ok).ordered.imp fun before same => ?_
  rw [same] at before
  exact absurd before.1 (Nat.lt_irrefl _)

theorem syntaxOfOther {c : Cause} (budget : c ≠ .exhausted) (deep : c ≠ .tooDeep) (plain : ¬ c.OfNumber) :
    c.IsSyntax := by
  cases c with
  | missing | unexpected | invalidKey => trivial
  | outOfRange t => exact plain (.outOfRange t)
  | numeral e => exact plain (.numeral e)
  | exhausted => exact budget rfl
  | tooDeep => exact deep rfl

theorem Failure.foundOfSyntax {f : Failure} (syn : f.cause.IsSyntax) (stop : Token) :
    (f.rest ++ [stop]).head? = some (f.found stop) := by
  obtain ⟨cause, rest⟩ := f
  cases cause with
  | missing | unexpected | invalidKey => cases rest <;> rfl
  | outOfRange | numeral | exhausted | tooDeep => exact syn.elim

def Viable (depth : Nat) (tokens : List Token) : Prop :=
  ∃ fill stop tree, NoEnd fill ∧ stop.kind = .eof ∧
    ∀ source, Token.Stream.parse depth source ⟨tokens ++ fill, stop⟩ = .ok tree

theorem blamedInTime {depth : Nat} {source : String} {e : Error} (failed : parse depth source = .error (.parse e))
    (deep : e.cause ≠ .tooDeep) (plain : ¬ e.cause.OfNumber) :
    ∃ stream k, tokenize source = .ok stream ∧ (∀ j, stream.toList[j]? = some e.found ↔ j = k) ∧
      Viable depth (stream.toList.take k) := by
  obtain ⟨stream, f, tokens, found, rfl⟩ := parseFails failed
  have syn : f.cause.IsSyntax := syntaxOfOther (programBlames found).2 deep plain
  obtain ⟨used, fill, tree, split, noEnd, accepted⟩ := programMends found syn
  have whole : stream.toList = used ++ (f.rest ++ [stream.stop]) := by
    rw [Token.Stream.toList, split, List.append_assoc]
  have here : stream.toList[used.length]? = some (f.found stream.stop) := by
    rw [whole, List.getElem?_append_right (Nat.le_refl _), Nat.sub_self, ← List.head?_eq_getElem?]
    exact f.foundOfSyntax syn stream.stop
  refine ⟨stream, used.length, tokens, fun j => ⟨fun there => ?_, fun same => same ▸ here⟩, ?_⟩
  · obtain ⟨inside, _⟩ := List.getElem?_eq_some_iff.mp there
    exact (List.getElem?_inj inside (tokensDistinct tokens)).mp (there.trans here.symm)
  · rw [whole, List.take_left]
    refine ⟨fill, stream.stop, tree, noEnd, (Token.tokenizeTiled tokens).ends.1, fun source => ?_⟩
    rw [Token.Stream.parse, accepted]

def openSource : String := "f(x => [\x7b m(a) \x7b y ? (b, 1) => c \x7d \x7d])"

theorem blamedInTimeOpen : ∃ e, parse 12 openSource = .error (.parse e) ∧ e.found.raw = "1" ∧ e.cause ≠ .tooDeep ∧
    ¬ e.cause.OfNumber ∧ ∃ stream k, tokenize openSource = .ok stream ∧
      (∀ j, stream.toList[j]? = some e.found ↔ j = k) ∧ Viable 12 (stream.toList.take k) := by
  have found : (complaint? 12 openSource).map (fun e => (e.cause, e.found.raw)) =
      some (.missing "parameter name", "1") := by decide +kernel
  unfold complaint? at found
  split at found
  · rename_i e failed
    obtain ⟨cause, raw⟩ := Prod.mk.inj (Option.some.inj found)
    have deep : e.cause ≠ .tooDeep := fun same => (nomatch cause.symm.trans same)
    have plain : ¬ e.cause.OfNumber := by
      rw [cause]
      exact fun ofNumber => (nomatch ofNumber)
    exact ⟨e, failed, raw, deep, plain, blamedInTime failed deep plain⟩
  · cases found

end Scriptlet.Parse
