import Scriptlet.Proofs.ParserReads

/-! Whatever can be read, the parser finds, if its nesting budget is large enough. The parser decides by
the next token, so the proof needs to know how phrases start. -/
namespace Scriptlet.Parse
open Token (Kind)

def startsExpression : Kind → Bool
  | .number | .string | .ident | .trueWord | .falseWord | .nullWord | .notOp | .minus | .lparen
  | .lbracket | .lbrace => true
  | _ => false

def StartsWell (tokens : List Token) : Prop :=
  ∃ t more, tokens = t :: more ∧ startsExpression t.kind = true ∧
    (t.kind = .ident → ∀ next rest, more = next :: rest → next.kind ≠ .assign)

def NoEqualsFirst (tokens : List Token) : Prop := ∀ next rest, tokens = next :: rest → next.kind ≠ .assign

def Phrase.Starts : Phrase → List Token → Prop
  | .expression _ | .chain _ | .operand _ | .primary _ => StartsWell
  | .links _ | .suffixes _ => NoEqualsFirst
  | _ => fun _ => True

theorem StartsWell.append {a b : List Token} (start : StartsWell a) (follow : NoEqualsFirst b) :
    StartsWell (a ++ b) := by
  obtain ⟨t, more, rfl, kind, second⟩ := start
  refine ⟨t, more ++ b, rfl, kind, fun word => ?_⟩
  cases more with
  | nil => exact follow
  | cons next rest =>
    intro next' rest' same
    obtain ⟨rfl, rfl⟩ := List.cons.inj same
    exact second word next rest rfl

theorem NoEqualsFirst.cons {t : Token} {rest : List Token} (other : t.kind ≠ .assign) :
    NoEqualsFirst (t :: rest) := by
  intro next more same
  obtain ⟨rfl, rfl⟩ := List.cons.inj same
  exact other

theorem startsWellCons {t : Token} {more : List Token} (start : startsExpression t.kind = true)
    (other : t.kind ≠ .ident) : StartsWell (t :: more) :=
  ⟨t, more, rfl, start, fun word => absurd word other⟩

theorem readsStarts {phrase : Phrase} {used rest : List Token} (reads : Reads phrase used rest) :
    phrase.Starts used := by
  induction reads with
  | single _ _ ih => exact ih
  | choice mark _ _ _ _ ih => exact StartsWell.append ih (.cons (by simp [mark]))
  | chain _ _ ih ih' => exact StartsWell.append ih ih'
  | noLink => exact fun _ _ same => (nomatch same)
  | link binds =>
    refine NoEqualsFirst.cons fun assign => ?_
    simp [assign, Kind.precedence?] at binds
  | sign mark =>
    rcases mark with mark | mark
    · exact startsWellCons (by simp [mark, startsExpression]) (by simp [mark])
    · exact startsWellCons (by simp [mark, startsExpression]) (by simp [mark])
  | suffixed _ _ ih ih' => exact StartsWell.append ih ih'
  | noSuffix => exact fun _ _ same => (nomatch same)
  | name mark => exact NoEqualsFirst.cons (by simp [mark])
  | index opening => exact NoEqualsFirst.cons (by simp [opening])
  | call opening => exact NoEqualsFirst.cons (by simp [opening])
  | number kind => exact startsWellCons (by simp [kind, startsExpression]) (by simp [kind])
  | string kind => exact startsWellCons (by simp [kind, startsExpression]) (by simp [kind])
  | truth kind => exact startsWellCons (by simp [kind, startsExpression]) (by simp [kind])
  | falsity kind => exact startsWellCons (by simp [kind, startsExpression]) (by simp [kind])
  | null kind => exact startsWellCons (by simp [kind, startsExpression]) (by simp [kind])
  | ident kind => exact ⟨_, _, rfl, by simp [kind, startsExpression], fun _ _ _ same => (nomatch same)⟩
  | arrowOfName kind mark =>
    exact ⟨_, _, rfl, by simp [kind, startsExpression], fun _ => NoEqualsFirst.cons (by simp [mark])⟩
  | arrowOfNames opening => exact startsWellCons (by simp [opening, startsExpression]) (by simp [opening])
  | group opening => exact startsWellCons (by simp [opening, startsExpression]) (by simp [opening])
  | array opening => exact startsWellCons (by simp [opening, startsExpression]) (by simp [opening])
  | object opening => exact startsWellCons (by simp [opening, startsExpression]) (by simp [opening])
  | _ => trivial

theorem expressionHead {x : Node} {used rest : List Token} (reads : Reads (.expression x) used rest) :
    startsExpression (headKind (used ++ rest)) = true := by
  obtain ⟨t, more, rfl, start, _⟩ := readsStarts reads
  exact start

theorem headNot {tokens : List Token} {kind : Kind} (start : startsExpression (headKind tokens) = true)
    (other : startsExpression kind = false) : headKind tokens ≠ kind := by
  rintro rfl
  rw [other] at start
  cases start

theorem commaTurnStop {α : Type} {closing : Kind} {item : Parser α} {s : List Token}
    (close : headKind s = closing) : commaTurn closing item s = .ok (.stop, s) := by
  unfold commaTurn
  rw [bindStep (nextKindApply s), if_pos close]
  rfl

theorem commaTurnLast {α : Type} {closing : Kind} {item : Parser α} {s rest : List Token} {a : α}
    (inside : headKind s ≠ closing) (ok : item s = .ok (a, rest)) (stop : headKind rest ≠ .comma) :
    commaTurn closing item s = .ok (.last a, rest) := by
  have no : take .comma rest = .ok (false, rest) := by rw [takeApply, if_neg stop]
  unfold commaTurn
  rw [bindStep (nextKindApply s), if_neg inside, bindStep ok, bindStep no]
  rfl

theorem commaTurnMore {α : Type} {closing : Kind} {item : Parser α} {s rest : List Token} {a : α}
    {c : Token} (inside : headKind s ≠ closing) (ok : item s = .ok (a, c :: rest))
    (comma : c.kind = .comma) : commaTurn closing item s = .ok (.more a, rest) := by
  have yes : take .comma (c :: rest) = .ok (true, rest) := by
    rw [takeApply, if_pos (headKindCons c rest ▸ comma)]
    rfl
  unfold commaTurn
  rw [bindStep (nextKindApply s), if_neg inside, bindStep ok, bindStep yes]
  rfl

section Turns
variable {expr operand : Parser Node} {s : List Token}

theorem linkTurnStop {least : Int}
    (loose : ∀ strength, (headKind s).precedence? = some strength → (strength : Int) < least) :
    linkTurn operand least s = .ok (.stop, s) := by
  unfold linkTurn
  rw [bindStep (peekApply _)]
  cases s with
  | nil => rfl
  | cons t rest =>
    simp only [List.head?_cons]
    cases binds : t.kind.precedence? with
    | none => rfl
    | some strength => exact congrFun (if_pos (loose strength binds)) _

theorem linkTurnFree {least : Int} (free : (headKind s).precedence? = none) :
    linkTurn operand least s = .ok (.stop, s) :=
  linkTurnStop fun _ binds => (nomatch free.symm.trans binds)

theorem suffixTurnStop (dot : headKind s ≠ .dot) (bracket : headKind s ≠ .lbracket) (paren : headKind s ≠ .lparen) :
    suffixTurn expr s = .ok (.stop, s) := by
  unfold suffixTurn
  rw [bindStep (nextKindApply s)]
  generalize headKind s = k at dot bracket paren ⊢
  split
  · exact absurd rfl dot
  · exact absurd rfl bracket
  · exact absurd rfl paren
  · rfl

theorem statementTurnStop (close : headKind s = .rbrace) : statementTurn expr s = .ok (.stop, s) := by
  unfold statementTurn
  rw [bindStep (nextKindApply s), if_pos close]
  rfl

theorem propertyTurnStop (close : headKind s = .rbrace) : propertyTurn expr s = .ok (.stop, s) := by
  unfold propertyTurn
  rw [bindStep (nextKindApply s), if_pos close]
  rfl

theorem assignmentApply {t next : Token} (word : t.kind = .ident) (mark : next.kind = .assign) (rest : List Token) :
    statement expr (t :: next :: rest) = (do
      let _ ← expect .assign
      let value ← expr
      pure (.assignment t.place t.value value) : Parser Node) (next :: rest) := by
  have name : expect .ident (t :: next :: rest) = .ok (t, next :: rest) := expectAsOk.mpr ⟨rfl, word⟩
  unfold statement
  rw [bindStep (aheadApply _)]
  simp only [if_pos (And.intro word mark)]
  unfold assign
  rw [bindStep name]

theorem plainApply
    (other : ∀ t next rest, s = t :: next :: rest → ¬ (t.kind = .ident ∧ next.kind = .assign)) :
    statement expr s = expr s := by
  unfold statement
  rw [bindStep (aheadApply _)]
  match s with
  | [] => rfl
  | [_] => rfl
  | t :: next :: rest => exact congrFun (if_neg (other t next rest rfl)) _

theorem statementOfExpression {x : Node} {a rest : List Token} (start : StartsWell a)
    (stop : ∀ t, a = [t] → t.kind = .ident → headKind rest ≠ .assign) (value : expr (a ++ rest) = .ok (x, rest)) :
    statement expr (a ++ rest) = .ok (x, rest) := by
  obtain ⟨t, more, rfl, _, second⟩ := start
  refine (plainApply fun t' next after same both => ?_).trans value
  cases more with
  | nil =>
    obtain ⟨rfl, rfl⟩ := List.cons.inj same
    exact stop t rfl both.1 both.2
  | cons n more =>
    obtain ⟨rfl, tail⟩ := List.cons.inj same
    obtain ⟨rfl, _⟩ := List.cons.inj tail
    exact second both.1 n more rfl both.2

end Turns

theorem bracketedFinds {α : Type} {opening closing : Kind} {item : Parser α} {o c : Token}
    {s rest : List Token} {items : List α} (kind : o.kind = opening) (close : c.kind = closing)
    (turns : Reader.Repeats (commaTurn closing item) s items (c :: rest)) :
    bracketed opening closing item (o :: s) = .ok ((o, items), rest) := by
  have first : expect opening (o :: s) = .ok (o, s) := expectAsOk.mpr ⟨rfl, kind⟩
  have last : expectAs closing ("',' or " ++ closing.label) (c :: rest) = .ok (c, rest) :=
    expectAsOk.mpr ⟨rfl, close⟩
  unfold bracketed
  rw [bindStep first, bindStep (Reader.collectIff.mpr turns), bindStep last]
  rfl

/- What the parser does with a phrase, if the expressions inside it have the budget `depth`. Lists stop
in front of the bracket that closes them. -/
def Finds (depth : Nat) : Phrase → List Token → List Token → Prop
  | .expression x, used, rest => expression depth (used ++ rest) = .ok (x, rest)
  | .chain x, used, rest => chain (unary depth) 1 (used ++ rest) = .ok (x, rest)
  | .links links, used, rest => Reader.Repeats (linkTurn (unary depth) 1) (used ++ rest) links rest
  | .operand x, used, rest => unary depth (used ++ rest) = .ok (x, rest)
  | .suffixes suffixes, used, rest =>
    Reader.Repeats (suffixTurn (expression depth)) (used ++ rest) suffixes rest
  | .primary x, used, rest => primary (expression depth) (used ++ rest) = .ok (x, rest)
  | .items closing trees, used, rest => closing ≠ .comma → startsExpression closing = false →
    ∃ c, c.kind = closing ∧
      Reader.Repeats (commaTurn closing (expression depth)) (used ++ rest) trees (c :: rest)
  | .names names, used, rest => ∃ c, c.kind = .rparen ∧
      Reader.Repeats (commaTurn .rparen (expectAs .ident "parameter name")) (used ++ rest) names (c :: rest)
  | .body x, used, rest => ∀ mark params place, mark.kind = .arrow →
      arrow (expression depth) params place (mark :: (used ++ rest)) = .ok (.arrow place params x, rest)
  | .block x, used, rest => headKind (used ++ rest) = .lbrace ∧
      block (expression depth) (used ++ rest) = .ok (x, rest)
  | .statements trees, used, rest => headKind (used ++ rest) ≠ .newline ∧ ∃ c, c.kind = .rbrace ∧
      Reader.Repeats (statementTurn (expression depth)) (used ++ rest) trees (c :: rest)
  | .statement x, used, rest => startsExpression (headKind (used ++ rest)) = true ∧
      (headKind rest ≠ .assign → statement (expression depth) (used ++ rest) = .ok (x, rest))
  | .entries trees, used, rest => headKind (used ++ rest) ≠ .newline ∧ ∃ c, c.kind = .rbrace ∧
      Reader.Repeats (propertyTurn (expression depth)) (used ++ rest) trees (c :: rest)
  | .entry x, used, rest => startsExpression (headKind (used ++ rest)) = true ∧
      property (expression depth) (used ++ rest) = .ok (x, rest)

def Eventually (holds : Nat → Prop) : Prop := ∃ least, ∀ depth, least ≤ depth → holds depth

theorem Eventually.always {P : Nat → Prop} (all : ∀ depth, P depth) : Eventually P :=
  ⟨0, fun depth _ => all depth⟩

theorem Eventually.imp {P Q : Nat → Prop} (first : Eventually P) (step : ∀ {depth}, P depth → Q depth) :
    Eventually Q := by
  obtain ⟨least, all⟩ := first
  exact ⟨least, fun depth enough => step (all depth enough)⟩

theorem Eventually.and {P Q : Nat → Prop} (first : Eventually P) (second : Eventually Q) :
    Eventually fun depth => P depth ∧ Q depth := by
  obtain ⟨least, all⟩ := first
  obtain ⟨least', all'⟩ := second
  refine ⟨max least least', fun depth enough => ⟨all depth ?_, all' depth ?_⟩⟩
  · exact Nat.le_trans (Nat.le_max_left _ _) enough
  · exact Nat.le_trans (Nat.le_max_right _ _) enough

theorem Eventually.inside {P Q : Nat → Prop} (first : Eventually P)
    (step : ∀ {depth}, P depth → Q (depth + 1)) : Eventually Q := by
  obtain ⟨least, all⟩ := first
  refine ⟨least + 1, fun depth enough => ?_⟩
  obtain ⟨inner, rfl⟩ := Nat.exists_eq_add_of_le' (Nat.le_trans (Nat.le_add_left 1 least) enough)
  exact step (all inner (Nat.le_of_add_le_add_right enough))

section Steps
variable {depth : Nat} {rest : List Token}

theorem singleFinds {x : Node} {a : List Token} (chain : Finds depth (.chain x) a rest)
    (stop : headKind rest ≠ .question) : Finds (depth + 1) (.expression x) a rest := by
  have no : take .question rest = .ok (false, rest) := by rw [takeApply, if_neg stop]
  show choice (unary depth) (expression depth) (a ++ rest) = _
  unfold choice
  rw [bindStep chain, bindStep no]
  rfl

theorem choiceFinds {x yes no : Node} {q c : Token} {a b d : List Token} (mark : q.kind = .question)
    (colon : c.kind = .colon) (cond : Finds depth (.chain x) a (q :: (b ++ c :: (d ++ rest))))
    (left : Finds depth (.expression yes) b (c :: (d ++ rest)))
    (right : Finds depth (.expression no) d rest) :
    Finds (depth + 1) (.expression (.ternary x.place x yes no)) (a ++ q :: (b ++ c :: d)) rest := by
  have marked : take .question (q :: (b ++ c :: (d ++ rest))) = .ok (true, b ++ c :: (d ++ rest)) := by
    rw [takeApply, headKindCons, if_pos mark]
    rfl
  have parted : expect .colon (c :: (d ++ rest)) = .ok (c, d ++ rest) := expectAsOk.mpr ⟨rfl, colon⟩
  show choice (unary depth) (expression depth) ((a ++ q :: (b ++ c :: d)) ++ rest) = _
  simp only [List.append_assoc, List.cons_append]
  unfold choice
  rw [bindStep cond, bindStep marked]
  simp only [if_true]
  rw [bindStep left, bindStep parted, bindStep right]
  rfl

theorem chainFinds {x : Node} {links : List Link} {a b : List Token}
    (first : Finds depth (.operand x) a (b ++ rest)) (more : Finds depth (.links links) b rest) :
    Finds depth (.chain (chainTree x links)) (a ++ b) rest := by
  show chain (unary depth) 1 ((a ++ b) ++ rest) = _
  rw [List.append_assoc]
  unfold chain
  rw [bindStep first, bindStep (Reader.collectIff.mpr more)]
  rfl

theorem noLinkFinds (stop : (headKind rest).precedence? = none) : Finds depth (.links []) [] rest :=
  .stop (linkTurnFree stop)

theorem linkFinds {op : Token} {strength : Nat} {x : Node} {links : List Link} {a b : List Token}
    (binds : op.kind.precedence? = some strength) (right : Finds depth (.operand x) a (b ++ rest))
    (more : Finds depth (.links links) b rest) :
    Finds depth (.links (⟨op, strength, x⟩ :: links)) (op :: (a ++ b)) rest := by
  have positive := precedencePositive binds
  have turn : linkTurn (unary depth) 1 (op :: (a ++ (b ++ rest))) =
      .ok (.more ⟨op, strength, x⟩, b ++ rest) := by
    unfold linkTurn
    rw [bindStep (peekApply _)]
    simp only [List.head?_cons, binds]
    rw [if_neg (by omega), bindStep (dropApply _), List.tail_cons, bindStep right]
    rfl
  show Reader.Repeats _ (op :: (a ++ b) ++ rest) _ rest
  rw [List.cons_append, List.append_assoc]
  refine .more turn ?_ more
  simp only [List.length_cons, List.length_append]
  omega

theorem signFinds {op : Token} {x : Node} {a : List Token} (mark : op.kind = .notOp ∨ op.kind = .minus)
    (inner : Finds depth (.operand x) a rest) :
    Finds (depth + 1) (.operand (.unary op.place op.value x)) (op :: a) rest := by
  show signed (unary depth) (expression depth) (op :: (a ++ rest)) = _
  unfold signed
  rw [bindStep (peekApply _)]
  simp only [List.head?_cons, if_pos mark]
  rw [bindStep (dropApply _), List.tail_cons, bindStep inner]
  rfl

theorem suffixedFinds {x : Node} {suffixes : List Suffix} {a b : List Token}
    (plain : headKind (a ++ (b ++ rest)) ≠ .notOp ∧ headKind (a ++ (b ++ rest)) ≠ .minus)
    (target : Finds depth (.primary x) a (b ++ rest)) (more : Finds depth (.suffixes suffixes) b rest) :
    Finds (depth + 1) (.operand (suffixes.foldl Suffix.apply x)) (a ++ b) rest := by
  have whole : suffixed (expression depth) (a ++ (b ++ rest)) =
      .ok (suffixes.foldl Suffix.apply x, rest) := by
    unfold suffixed
    rw [bindStep target, bindStep (Reader.collectIff.mpr more)]
    rfl
  show signed (unary depth) (expression depth) ((a ++ b) ++ rest) = _
  rw [List.append_assoc]
  unfold signed
  rw [bindStep (peekApply _)]
  generalize a ++ (b ++ rest) = s at plain whole ⊢
  cases s with
  | nil => exact whole
  | cons op more =>
    rw [headKindCons] at plain
    simp only [List.head?_cons]
    rw [if_neg (not_or.mpr plain)]
    exact whole

theorem noSuffixFinds (dot : headKind rest ≠ .dot) (bracket : headKind rest ≠ .lbracket)
    (paren : headKind rest ≠ .lparen) : Finds depth (.suffixes []) [] rest :=
  .stop (suffixTurnStop dot bracket paren)

theorem nameFinds {dot name : Token} {suffixes : List Suffix} {a : List Token} (mark : dot.kind = .dot)
    (word : name.kind = .ident) (more : Finds depth (.suffixes suffixes) a rest) :
    Finds depth (.suffixes (.name name :: suffixes)) (dot :: name :: a) rest := by
  have found : expectAs .ident "property name" (name :: (a ++ rest)) = .ok (name, a ++ rest) :=
    expectAsOk.mpr ⟨rfl, word⟩
  have turn : suffixTurn (expression depth) (dot :: name :: (a ++ rest)) =
      .ok (.more (.name name), a ++ rest) := by
    unfold suffixTurn
    rw [bindStep (nextKindApply _), headKindCons, mark]
    simp only
    rw [bindStep (dropApply _), List.tail_cons, bindStep found]
    rfl
  refine .more turn ?_ more
  show (a ++ rest).length < (a ++ rest).length + 1 + 1
  omega

theorem indexFinds {o c : Token} {key : Node} {suffixes : List Suffix} {a b : List Token}
    (opening : o.kind = .lbracket) (closing : c.kind = .rbracket)
    (inner : Finds depth (.expression key) a (c :: (b ++ rest)))
    (more : Finds depth (.suffixes suffixes) b rest) :
    Finds depth (.suffixes (.index key :: suffixes)) (o :: (a ++ c :: b)) rest := by
  have closed : expect .rbracket (c :: (b ++ rest)) = .ok (c, b ++ rest) := expectAsOk.mpr ⟨rfl, closing⟩
  have turn : suffixTurn (expression depth) (o :: (a ++ c :: (b ++ rest))) =
      .ok (.more (.index key), b ++ rest) := by
    unfold suffixTurn
    rw [bindStep (nextKindApply _), headKindCons, opening]
    simp only
    rw [bindStep (dropApply _), List.tail_cons, bindStep inner, bindStep closed]
    rfl
  show Reader.Repeats _ ((o :: (a ++ c :: b)) ++ rest) _ rest
  simp only [List.cons_append, List.append_assoc]
  refine .more turn ?_ more
  simp only [List.length_cons, List.length_append]
  omega

theorem callFinds {o : Token} {args : List Node} {suffixes : List Suffix} {a b : List Token}
    (opening : o.kind = .lparen) (inner : Finds depth (.items .rparen args) a (b ++ rest))
    (more : Finds depth (.suffixes suffixes) b rest) :
    Finds depth (.suffixes (.arguments args :: suffixes)) (o :: (a ++ b)) rest := by
  obtain ⟨c, close, turns⟩ := inner (by decide) rfl
  have call : callArgs (expression depth) (o :: (a ++ (b ++ rest))) = .ok (args, b ++ rest) := by
    unfold callArgs
    rw [bindStep (bracketedFinds opening close turns)]
    rfl
  have turn : suffixTurn (expression depth) (o :: (a ++ (b ++ rest))) =
      .ok (.more (.arguments args), b ++ rest) := by
    unfold suffixTurn
    rw [bindStep (nextKindApply _), headKindCons, opening]
    simp only
    rw [bindStep call]
    rfl
  show Reader.Repeats _ ((o :: (a ++ b)) ++ rest) _ rest
  simp only [List.cons_append, List.append_assoc]
  refine .more turn ?_ more
  simp only [List.length_cons, List.length_append]
  omega

theorem numberFinds {t : Token} {v : SExpr} (kind : t.kind = .number)
    (value : number t rest = .ok (v, rest)) :
    Finds depth (.primary (.literal t.place .number v)) [t] rest := by
  show primary (expression depth) (t :: rest) = _
  unfold primary
  rw [bindStep (aheadApply _)]
  simp only [kind]
  rw [bindStep (dropApply _), List.tail_cons, bindStep value]
  rfl

theorem identFinds {t : Token} (kind : t.kind = .ident) (stop : headKind rest ≠ .arrow) :
    Finds depth (.primary (.ident t.place t.value)) [t] rest := by
  have none : ¬ (rest.head?.any fun t => decide (t.kind = .arrow)) = true := by
    cases rest with
    | nil => simp
    | cons next more => simpa [headKind] using stop
  show primary (expression depth) (t :: rest) = _
  unfold primary
  rw [bindStep (aheadApply _)]
  simp only [kind]
  rw [bindStep (dropApply _), List.tail_cons, if_neg none]
  rfl

theorem arrowOfNameFinds {t mark : Token} {body : Node} {a : List Token} (kind : t.kind = .ident)
    (arrow : mark.kind = .arrow) (inner : Finds depth (.body body) a rest) :
    Finds depth (.primary (.arrow t.place [t.value] body)) (t :: mark :: a) rest := by
  show primary (expression depth) (t :: mark :: (a ++ rest)) = _
  unfold primary
  rw [bindStep (aheadApply _)]
  simp only [kind]
  rw [bindStep (dropApply _), List.tail_cons, if_pos (by simp [arrow])]
  exact inner mark [t.value] t.place arrow

theorem paramsFinds {o : Token} {names a : List Token} (opening : o.kind = .lparen)
    (inner : Finds depth (.names names) a rest) :
    params (o :: (a ++ rest)) = .ok (names.map Token.value, rest) := by
  obtain ⟨c, close, turns⟩ := inner
  unfold params
  rw [bindStep (bracketedFinds opening close turns)]
  rfl

theorem arrowOfNamesFinds {o mark : Token} {names a b : List Token} {body : Node}
    (opening : o.kind = .lparen) (arrow : mark.kind = .arrow)
    (ahead : arrowAhead 0 (a ++ mark :: (b ++ rest)) = true)
    (params : Finds depth (.names names) a (mark :: (b ++ rest))) (inner : Finds depth (.body body) b rest) :
    Finds depth (.primary (.arrow o.place (names.map Token.value) body)) (o :: (a ++ mark :: b)) rest := by
  show primary (expression depth) ((o :: (a ++ mark :: b)) ++ rest) = _
  simp only [List.cons_append, List.append_assoc]
  unfold primary
  rw [bindStep (aheadApply _)]
  simp only [opening]
  rw [if_pos ahead, bindStep (paramsFinds opening params)]
  exact inner mark (names.map Token.value) o.place arrow

theorem groupFinds {o c : Token} {x : Node} {a : List Token} (opening : o.kind = .lparen)
    (closing : c.kind = .rparen) (ahead : arrowAhead 0 (a ++ c :: rest) = false)
    (inner : Finds depth (.expression x) a (c :: rest)) :
    Finds depth (.primary x) (o :: (a ++ [c])) rest := by
  have closed : expect .rparen (c :: rest) = .ok (c, rest) := expectAsOk.mpr ⟨rfl, closing⟩
  show primary (expression depth) ((o :: (a ++ [c])) ++ rest) = _
  simp only [List.cons_append, List.append_assoc, List.nil_append]
  unfold primary
  rw [bindStep (aheadApply _)]
  simp only [opening]
  rw [if_neg (by simp [ahead]), bindStep (dropApply _), List.tail_cons, bindStep inner, bindStep closed]
  rfl

theorem arrayFinds {o : Token} {elements : List Node} {a : List Token} (opening : o.kind = .lbracket)
    (inner : Finds depth (.items .rbracket elements) a rest) :
    Finds depth (.primary (.array o.place elements)) (o :: a) rest := by
  obtain ⟨c, close, turns⟩ := inner (by decide) rfl
  show primary (expression depth) (o :: (a ++ rest)) = _
  unfold primary
  rw [bindStep (aheadApply _)]
  simp only [opening, array]
  rw [bindStep (bracketedFinds opening close turns)]
  rfl

theorem objectFinds {o : Token} {newlines a : List Token} {entries : List Node}
    (opening : o.kind = .lbrace) (skipped : Newlines newlines)
    (inner : Finds depth (.entries entries) a rest) :
    Finds depth (.primary (.object o.place entries)) (o :: (newlines ++ a)) rest := by
  obtain ⟨stop, c, close, turns⟩ := inner
  have first : expect .lbrace (o :: (newlines ++ (a ++ rest))) = .ok (o, newlines ++ (a ++ rest)) :=
    expectAsOk.mpr ⟨rfl, opening⟩
  have last : expectAs .rbrace "',' or '\x7d'" (c :: rest) = .ok (c, rest) := expectAsOk.mpr ⟨rfl, close⟩
  show primary (expression depth) ((o :: (newlines ++ a)) ++ rest) = _
  simp only [List.cons_append, List.append_assoc]
  unfold primary
  rw [bindStep (aheadApply _)]
  simp only [opening, object]
  rw [bindStep first, bindStep (skipNewlinesAppend skipped stop),
    bindStep (Reader.collectIff.mpr turns), bindStep last]
  rfl

theorem lastItemFinds {c : Token} {closing : Kind} {x : Node} {a : List Token} (close : c.kind = closing)
    (start : startsExpression (headKind (a ++ c :: rest)) = true)
    (item : Finds depth (.expression x) a (c :: rest)) :
    Finds depth (.items closing [x]) (a ++ [c]) rest := by
  intro noComma noStart
  refine ⟨c, close, ?_⟩
  rw [List.append_assoc]
  exact .last (commaTurnLast (headNot start noStart) item (by rw [headKindCons, close]; exact noComma))

theorem itemFinds {c : Token} {closing : Kind} {x : Node} {xs : List Node} {a b : List Token}
    (comma : c.kind = .comma) (start : startsExpression (headKind (a ++ c :: (b ++ rest))) = true)
    (item : Finds depth (.expression x) a (c :: (b ++ rest)))
    (more : Finds depth (.items closing xs) b rest) :
    Finds depth (.items closing (x :: xs)) (a ++ c :: b) rest := by
  intro noComma noStart
  obtain ⟨last, close, turns⟩ := more noComma noStart
  refine ⟨last, close, ?_⟩
  rw [List.append_assoc, List.cons_append]
  refine .more (commaTurnMore (headNot start noStart) item comma) ?_ turns
  simp only [List.length_cons, List.length_append]
  omega

theorem lastNameFinds {c t : Token} (close : c.kind = .rparen) (word : t.kind = .ident) :
    Finds depth (.names [t]) [t, c] rest := by
  have found : expectAs .ident "parameter name" (t :: c :: rest) = .ok (t, c :: rest) :=
    expectAsOk.mpr ⟨rfl, word⟩
  refine ⟨c, close, .last (commaTurnLast ?_ found ?_)⟩
  · simp [headKindCons, word]
  · simp [headKindCons, close]

theorem oneNameFinds {c t : Token} {ts a : List Token} (comma : c.kind = .comma) (word : t.kind = .ident)
    (more : Finds depth (.names ts) a rest) : Finds depth (.names (t :: ts)) (t :: c :: a) rest := by
  obtain ⟨last, close, turns⟩ := more
  have found : expectAs .ident "parameter name" (t :: c :: (a ++ rest)) = .ok (t, c :: (a ++ rest)) :=
    expectAsOk.mpr ⟨rfl, word⟩
  refine ⟨last, close, .more (commaTurnMore ?_ found comma) ?_ turns⟩
  · simp [headKindCons, word]
  · show (a ++ rest).length < (a ++ rest).length + 1 + 1
    omega

theorem blockBodyFinds {newlines a : List Token} {x : Node} (skipped : Newlines newlines)
    (inner : Finds depth (.block x) a rest) : Finds depth (.body x) (newlines ++ a) rest := by
  intro mark params place kind
  obtain ⟨brace, read⟩ := inner
  have first : expect .arrow (mark :: (newlines ++ (a ++ rest))) = .ok (mark, newlines ++ (a ++ rest)) :=
    expectAsOk.mpr ⟨rfl, kind⟩
  have skip : skipNewlines (newlines ++ (a ++ rest)) = .ok ((), a ++ rest) :=
    skipNewlinesAppend skipped (by simp [brace])
  unfold arrow
  rw [List.append_assoc, bindStep first, bindStep skip, bindStep (nextKindApply _), if_pos brace,
    bindStep read]
  rfl

theorem expressionBodyFinds {newlines a : List Token} {x : Node} (skipped : Newlines newlines)
    (start : startsExpression (headKind (a ++ rest)) = true) (plain : headKind (a ++ rest) ≠ .lbrace)
    (inner : Finds depth (.expression x) a rest) : Finds depth (.body x) (newlines ++ a) rest := by
  intro mark params place kind
  have first : expect .arrow (mark :: (newlines ++ (a ++ rest))) = .ok (mark, newlines ++ (a ++ rest)) :=
    expectAsOk.mpr ⟨rfl, kind⟩
  have skip := skipNewlinesAppend skipped (headNot start (by rfl))
  unfold arrow
  rw [List.append_assoc, bindStep first, bindStep skip, bindStep (nextKindApply _), if_neg plain,
    bindStep inner]
  rfl

theorem blockFinds {o : Token} {newlines a : List Token} {statements : List Node}
    (opening : o.kind = .lbrace) (skipped : Newlines newlines)
    (inner : Finds depth (.statements statements) a rest) :
    Finds depth (.block (.block o.place statements)) (o :: (newlines ++ a)) rest := by
  obtain ⟨stop, c, close, turns⟩ := inner
  have first : expect .lbrace (o :: (newlines ++ (a ++ rest))) = .ok (o, newlines ++ (a ++ rest)) :=
    expectAsOk.mpr ⟨rfl, opening⟩
  have last : expect .rbrace (c :: rest) = .ok (c, rest) := expectAsOk.mpr ⟨rfl, close⟩
  refine ⟨opening, ?_⟩
  simp only [List.cons_append, List.append_assoc]
  unfold block
  rw [bindStep first, bindStep (skipNewlinesAppend skipped stop),
    bindStep (Reader.collectIff.mpr turns), bindStep last]
  rfl

theorem noStatementFinds {c : Token} (close : c.kind = .rbrace) :
    Finds depth (.statements []) [c] rest :=
  ⟨by simp [headKindCons, close], c, close, .stop (statementTurnStop close)⟩

theorem lastStatementFinds {c : Token} {x : Node} {a : List Token} (close : c.kind = .rbrace)
    (item : Finds depth (.statement x) a (c :: rest)) :
    Finds depth (.statements [x]) (a ++ [c]) rest := by
  obtain ⟨start, read⟩ := item
  have shape : (a ++ [c]) ++ rest = a ++ c :: rest := by simp
  have turn : statementTurn (expression depth) (a ++ c :: rest) = .ok (.last x, c :: rest) := by
    unfold statementTurn
    rw [bindStep (nextKindApply _), if_neg (headNot start (by rfl)),
      bindStep (read (by simp [headKindCons, close])), bindStep (nextKindApply _), headKindCons, close]
    rfl
  refine ⟨?_, c, close, ?_⟩
  · rw [shape]
    exact headNot start (by rfl)
  · rw [shape]
    exact .last turn

theorem oneStatementFinds {t : Token} {newlines : List Token} {x : Node} {xs : List Node}
    {a b : List Token} (newline : t.kind = .newline) (skipped : Newlines newlines)
    (item : Finds depth (.statement x) a (t :: (newlines ++ (b ++ rest))))
    (more : Finds depth (.statements xs) b rest) :
    Finds depth (.statements (x :: xs)) (a ++ t :: (newlines ++ b)) rest := by
  obtain ⟨start, read⟩ := item
  obtain ⟨stop, c, close, turns⟩ := more
  have shape : (a ++ t :: (newlines ++ b)) ++ rest = a ++ t :: (newlines ++ (b ++ rest)) := by simp
  have all : Newlines (t :: newlines) := List.forall_mem_cons.mpr ⟨newline, skipped⟩
  have skip : skipNewlines (t :: (newlines ++ (b ++ rest))) = .ok ((), b ++ rest) :=
    skipNewlinesAppend all stop
  have turn : statementTurn (expression depth) (a ++ t :: (newlines ++ (b ++ rest))) =
      .ok (.more x, b ++ rest) := by
    unfold statementTurn
    rw [bindStep (nextKindApply _), if_neg (headNot start (by rfl)),
      bindStep (read (by simp [headKindCons, newline])), bindStep (nextKindApply _), headKindCons, newline]
    simp only
    rw [bindStep skip]
    rfl
  refine ⟨?_, c, close, ?_⟩
  · rw [shape]
    exact headNot start (by rfl)
  · rw [shape]
    refine .more turn ?_ turns
    simp only [List.length_append, List.length_cons]
    omega

theorem assignmentFinds {t equals : Token} {x : Node} {a : List Token} (word : t.kind = .ident)
    (mark : equals.kind = .assign) (value : Finds depth (.expression x) a rest) :
    Finds depth (.statement (.assignment t.place t.value x)) (t :: equals :: a) rest := by
  have second : expect .assign (equals :: (a ++ rest)) = .ok (equals, a ++ rest) :=
    expectAsOk.mpr ⟨rfl, mark⟩
  refine ⟨by simp [headKindCons, word, startsExpression], fun _ => ?_⟩
  refine (assignmentApply word mark (a ++ rest)).trans ?_
  rw [bindStep second, bindStep value]
  rfl

theorem plainStatementFinds {x : Node} {a : List Token} (start : StartsWell a)
    (value : Finds depth (.expression x) a rest) : Finds depth (.statement x) a rest := by
  refine ⟨?_, fun stop => statementOfExpression start (fun _ _ _ => stop) value⟩
  obtain ⟨t, more, rfl, kind, _⟩ := start
  exact kind

theorem noEntryFinds {c : Token} (close : c.kind = .rbrace) : Finds depth (.entries []) [c] rest :=
  ⟨by simp [headKindCons, close], c, close, .stop (propertyTurnStop close)⟩

theorem lastEntryFinds {c : Token} {newlines : List Token} {x : Node} {a : List Token}
    (close : c.kind = .rbrace) (skipped : Newlines newlines)
    (item : Finds depth (.entry x) a (newlines ++ c :: rest)) :
    Finds depth (.entries [x]) (a ++ (newlines ++ [c])) rest := by
  obtain ⟨start, read⟩ := item
  have shape : (a ++ (newlines ++ [c])) ++ rest = a ++ (newlines ++ c :: rest) := by simp
  have skip : skipNewlines (newlines ++ c :: rest) = .ok ((), c :: rest) :=
    skipNewlinesAppend skipped (by simp [headKindCons, close])
  have no : take .comma (c :: rest) = .ok (false, c :: rest) := by
    rw [takeApply, if_neg (by simp [headKindCons, close])]
  have turn : propertyTurn (expression depth) (a ++ (newlines ++ c :: rest)) =
      .ok (.last x, c :: rest) := by
    unfold propertyTurn
    rw [bindStep (nextKindApply _), if_neg (headNot start (by rfl)), bindStep read, bindStep skip,
      bindStep no]
    rfl
  refine ⟨?_, c, close, ?_⟩
  · rw [shape]
    exact headNot start (by rfl)
  · rw [shape]
    exact .last turn

theorem oneEntryFinds {c : Token} {before after : List Token} {x : Node} {xs : List Node}
    {a b : List Token} (comma : c.kind = .comma) (skipped : Newlines before) (skipped' : Newlines after)
    (item : Finds depth (.entry x) a (before ++ c :: (after ++ (b ++ rest))))
    (more : Finds depth (.entries xs) b rest) :
    Finds depth (.entries (x :: xs)) (a ++ (before ++ c :: (after ++ b))) rest := by
  obtain ⟨start, read⟩ := item
  obtain ⟨stop, last, close, turns⟩ := more
  have shape : (a ++ (before ++ c :: (after ++ b))) ++ rest =
      a ++ (before ++ c :: (after ++ (b ++ rest))) := by simp
  have skip : skipNewlines (before ++ c :: (after ++ (b ++ rest))) = .ok ((), c :: (after ++ (b ++ rest))) :=
    skipNewlinesAppend skipped (by simp [headKindCons, comma])
  have yes : take .comma (c :: (after ++ (b ++ rest))) = .ok (true, after ++ (b ++ rest)) := by
    rw [takeApply, headKindCons, if_pos comma]
    rfl
  have turn : propertyTurn (expression depth) (a ++ (before ++ c :: (after ++ (b ++ rest)))) =
      .ok (.more x, b ++ rest) := by
    unfold propertyTurn
    rw [bindStep (nextKindApply _), if_neg (headNot start (by rfl)), bindStep read, bindStep skip,
      bindStep yes]
    simp only [if_true]
    rw [bindStep (skipNewlinesAppend skipped' stop)]
    rfl
  refine ⟨?_, last, close, ?_⟩
  · rw [shape]
    exact headNot start (by rfl)
  · rw [shape]
    refine .more turn ?_ turns
    simp only [List.length_append, List.length_cons]
    omega

theorem propertyApply {expr : Parser Node} {key : Token} (word : IsKey key) (more : List Token) :
    property expr (key :: more) = (do
      match ← nextKind with
      | .lparen =>
        let names ← params
        skipNewlines
        let body ← block expr
        pure (.property key.place key.value true names body)
      | .colon =>
        Reader.drop
        let value ← expr
        pure (.property key.place key.value false [] value)
      | _ => unexpected "'(' or ':' after property name" : Parser Node) more := by
  have kind : ¬ (key.kind ≠ .ident ∧ key.kind ≠ .string) := by
    rintro ⟨ident, string⟩
    rcases word with same | ⟨same, _⟩
    · exact ident same
    · exact string same
  have valid : ¬ (key.kind = .string ∧ ¬ isKey key.value = true) := by
    rintro ⟨string, invalid⟩
    rcases word with same | ⟨_, valid⟩
    · rw [same] at string
      cases string
    · exact invalid valid
  unfold property
  rw [bindStep (peekApply _)]
  simp only [List.head?_cons]
  rw [if_neg kind, if_neg valid, bindStep (dropApply _)]
  rfl

theorem keyStarts {key : Token} (word : IsKey key) : startsExpression key.kind = true := by
  rcases word with same | ⟨same, _⟩
  · rw [same]
    rfl
  · rw [same]
    rfl

theorem methodFinds {key o : Token} {newlines names a b : List Token} {x : Node} (word : IsKey key)
    (opening : o.kind = .lparen) (skipped : Newlines newlines)
    (params : Finds depth (.names names) a (newlines ++ (b ++ rest)))
    (inner : Finds depth (.block x) b rest) :
    Finds depth (.entry (.property key.place key.value true (names.map Token.value) x))
      (key :: o :: (a ++ (newlines ++ b))) rest := by
  obtain ⟨brace, read⟩ := inner
  have skip : skipNewlines (newlines ++ (b ++ rest)) = .ok ((), b ++ rest) :=
    skipNewlinesAppend skipped (by simp [brace])
  refine ⟨keyStarts word, ?_⟩
  simp only [List.cons_append, List.append_assoc]
  rw [propertyApply word, bindStep (nextKindApply _), headKindCons, opening]
  simp only
  rw [bindStep (paramsFinds opening params), bindStep skip, bindStep read]
  rfl

theorem plainFinds {key colon : Token} {x : Node} {a : List Token} (word : IsKey key)
    (mark : colon.kind = .colon) (value : Finds depth (.expression x) a rest) :
    Finds depth (.entry (.property key.place key.value false [] x)) (key :: colon :: a) rest := by
  refine ⟨keyStarts word, ?_⟩
  simp only [List.cons_append]
  rw [propertyApply word, bindStep (nextKindApply _), headKindCons, mark]
  simp only
  rw [bindStep (dropApply _), List.tail_cons, bindStep value]
  rfl

end Steps

theorem primaryHead {x : Node} {used rest : List Token} (reads : Reads (.primary x) used rest) :
    headKind (used ++ rest) ≠ .notOp ∧ headKind (used ++ rest) ≠ .minus := by
  cases reads with
  | number kind => exact ⟨by simp [headKindCons, kind], by simp [headKindCons, kind]⟩
  | string kind => exact ⟨by simp [headKindCons, kind], by simp [headKindCons, kind]⟩
  | truth kind => exact ⟨by simp [headKindCons, kind], by simp [headKindCons, kind]⟩
  | falsity kind => exact ⟨by simp [headKindCons, kind], by simp [headKindCons, kind]⟩
  | null kind => exact ⟨by simp [headKindCons, kind], by simp [headKindCons, kind]⟩
  | ident kind => exact ⟨by simp [headKindCons, kind], by simp [headKindCons, kind]⟩
  | arrowOfName kind => exact ⟨by simp [headKindCons, kind], by simp [headKindCons, kind]⟩
  | arrowOfNames opening => exact ⟨by simp [headKindCons, opening], by simp [headKindCons, opening]⟩
  | group opening => exact ⟨by simp [headKindCons, opening], by simp [headKindCons, opening]⟩
  | array opening => exact ⟨by simp [headKindCons, opening], by simp [headKindCons, opening]⟩
  | object opening => exact ⟨by simp [headKindCons, opening], by simp [headKindCons, opening]⟩

/- The budget that a phrase needs grows only where an expression or an operand is entered. -/
theorem readsFinds {phrase : Phrase} {used rest : List Token} (reads : Reads phrase used rest) :
    Eventually fun depth => Finds depth phrase used rest := by
  induction reads with
  | single _ stop ih => exact ih.inside fun chain => singleFinds chain stop
  | choice mark colon _ _ _ ih left right =>
    exact (ih.and (left.and right)).inside fun ⟨cond, yes, no⟩ => choiceFinds mark colon cond yes no
  | chain _ _ ih more => exact (ih.and more).imp fun ⟨first, links⟩ => chainFinds first links
  | noLink stop => exact .always fun _ => noLinkFinds stop
  | link binds _ _ ih more => exact (ih.and more).imp fun ⟨right, links⟩ => linkFinds binds right links
  | sign mark _ ih => exact ih.inside fun inner => signFinds mark inner
  | suffixed target _ ih more =>
    exact (ih.and more).inside fun ⟨x, suffixes⟩ => suffixedFinds (primaryHead target) x suffixes
  | noSuffix dot bracket paren => exact .always fun _ => noSuffixFinds dot bracket paren
  | name mark word _ ih => exact ih.imp fun more => nameFinds mark word more
  | index opening closing _ _ ih more =>
    exact (ih.and more).imp fun ⟨key, suffixes⟩ => indexFinds opening closing key suffixes
  | call opening _ _ ih more =>
    exact (ih.and more).imp fun ⟨args, suffixes⟩ => callFinds opening args suffixes
  | number kind value => exact .always fun _ => numberFinds kind value
  | string kind => exact .always fun _ => by simp [Finds, primary, bindStep (aheadApply _), kind]; rfl
  | truth kind => exact .always fun _ => by simp [Finds, primary, bindStep (aheadApply _), kind]; rfl
  | falsity kind => exact .always fun _ => by simp [Finds, primary, bindStep (aheadApply _), kind]; rfl
  | null kind => exact .always fun _ => by simp [Finds, primary, bindStep (aheadApply _), kind]; rfl
  | ident kind stop => exact .always fun _ => identFinds kind stop
  | arrowOfName kind mark _ ih => exact ih.imp fun body => arrowOfNameFinds kind mark body
  | arrowOfNames opening mark ahead _ _ ih more =>
    exact (ih.and more).imp fun ⟨names, body⟩ => arrowOfNamesFinds opening mark ahead names body
  | group opening closing ahead _ ih => exact ih.imp fun inner => groupFinds opening closing ahead inner
  | array opening _ ih => exact ih.imp fun inner => arrayFinds opening inner
  | object opening skipped _ ih => exact ih.imp fun inner => objectFinds opening skipped inner
  | noItem close => exact .always fun _ _ _ => ⟨_, close, .stop (commaTurnStop close)⟩
  | lastItem close item ih => exact ih.imp fun x => lastItemFinds close (expressionHead item) x
  | item comma item _ ih more =>
    exact (ih.and more).imp fun ⟨x, xs⟩ => itemFinds comma (expressionHead item) x xs
  | noName close => exact .always fun _ => ⟨_, close, .stop (commaTurnStop close)⟩
  | lastName close word => exact .always fun _ => lastNameFinds close word
  | oneName comma word _ ih => exact ih.imp fun more => oneNameFinds comma word more
  | blockBody skipped _ ih => exact ih.imp fun inner => blockBodyFinds skipped inner
  | expressionBody skipped start inner ih =>
    exact ih.imp fun x => expressionBodyFinds skipped (expressionHead inner) start x
  | block opening skipped _ ih => exact ih.imp fun inner => blockFinds opening skipped inner
  | noStatement close => exact .always fun _ => noStatementFinds close
  | lastStatement close _ ih => exact ih.imp fun item => lastStatementFinds close item
  | oneStatement newline skipped _ _ ih more =>
    exact (ih.and more).imp fun ⟨x, xs⟩ => oneStatementFinds newline skipped x xs
  | assignment word mark _ ih => exact ih.imp fun value => assignmentFinds word mark value
  | expression value ih => exact ih.imp fun x => plainStatementFinds (readsStarts value) x
  | noEntry close => exact .always fun _ => noEntryFinds close
  | lastEntry close skipped _ ih => exact ih.imp fun item => lastEntryFinds close skipped item
  | oneEntry comma skipped skipped' _ _ ih more =>
    exact (ih.and more).imp fun ⟨x, xs⟩ => oneEntryFinds comma skipped skipped' x xs
  | method word opening skipped _ _ ih more =>
    exact (ih.and more).imp fun ⟨names, block⟩ => methodFinds word opening skipped names block
  | plain word mark _ ih => exact ih.imp fun value => plainFinds word mark value

theorem programOfExpression {tree : Node} {before used after : List Token} {depth : Nat}
    (skipped : Newlines before) (skipped' : Newlines after) (start : headKind (used ++ after) ≠ .newline)
    (inner : expression depth (used ++ after) = .ok (tree, after)) :
    program depth (before ++ (used ++ after)) = .ok (tree, []) := by
  have skip : skipNewlines after = .ok ((), []) := by
    simpa using skipNewlinesAppend skipped' (show headKind [] ≠ .newline by decide)
  unfold program
  rw [bindStep (skipNewlinesAppend skipped start)]
  refine Reader.bindOk.mpr ⟨tree, after, by rw [inner], ?_⟩
  rw [bindStep skip, bindStep (nextKindApply _)]
  rfl

theorem programFinds {tree : Node} {tokens : List Token} (reads : ReadsProgram tree tokens) :
    Eventually fun depth => program depth tokens = .ok (tree, []) := by
  obtain ⟨before, used, after, rfl, skipped, skipped', start, reads⟩ := reads
  exact (readsFinds reads).imp fun found => programOfExpression skipped skipped' start found

end Scriptlet.Parse
