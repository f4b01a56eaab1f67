import Scriptlet.Parse.Grammar
import Scriptlet.Proofs.Repetition

/-! What the parser reads, said without the functions that read it. A phrase is read from a stretch of
tokens with more tokens after it, and what comes after decides where a phrase ends. -/
namespace Scriptlet.Parse
open Token (Kind)

def headKind (tokens : List Token) : Kind := tokens.head?.elim .eof Token.kind

def Newlines (tokens : List Token) : Prop := ∀ t ∈ tokens, t.kind = .newline

def IsKey (t : Token) : Prop := t.kind = .ident ∨ (t.kind = .string ∧ isKey t.value = true)

/- What a rule of the grammar makes of its tokens. Lists include the bracket that closes them. -/
inductive Phrase where
  | expression (tree : Node)
  | chain (tree : Node)
  | links (links : List Link)
  | operand (tree : Node)
  | suffixes (suffixes : List Suffix)
  | primary (tree : Node)
  | items (closing : Kind) (trees : List Node)
  | names (names : List Token)
  | body (tree : Node)
  | block (tree : Node)
  | statements (trees : List Node)
  | statement (tree : Node)
  | entries (trees : List Node)
  | entry (tree : Node)

/- `Reads p used rest`: the phrase `p` is read from `used` if `rest` comes after it. -/
inductive Reads : Phrase → List Token → List Token → Prop where
  | single {x s rest} (chain : Reads (.chain x) s rest) (stop : headKind rest ≠ .question) :
      Reads (.expression x) s rest
  | choice {x yes no q c a b d rest} (mark : q.kind = .question) (colon : c.kind = .colon)
      (cond : Reads (.chain x) a (q :: (b ++ c :: (d ++ rest))))
      (left : Reads (.expression yes) b (c :: (d ++ rest))) (right : Reads (.expression no) d rest) :
      Reads (.expression (.ternary x.place x yes no)) (a ++ q :: (b ++ c :: d)) rest
  | chain {x links a b rest} (first : Reads (.operand x) a (b ++ rest))
      (more : Reads (.links links) b rest) : Reads (.chain (chainTree x links)) (a ++ b) rest
  | noLink {rest} (stop : (headKind rest).precedence? = none) : Reads (.links []) [] rest
  | link {op strength x links a b rest} (binds : op.kind.precedence? = some strength)
      (right : Reads (.operand x) a (b ++ rest)) (more : Reads (.links links) b rest) :
      Reads (.links (⟨op, strength, x⟩ :: links)) (op :: (a ++ b)) rest
  | sign {op x a rest} (mark : op.kind = .notOp ∨ op.kind = .minus) (inner : Reads (.operand x) a rest) :
      Reads (.operand (.unary op.place op.value x)) (op :: a) rest
  | suffixed {x suffixes a b rest} (target : Reads (.primary x) a (b ++ rest))
      (more : Reads (.suffixes suffixes) b rest) :
      Reads (.operand (suffixes.foldl Suffix.apply x)) (a ++ b) rest
  | noSuffix {rest} (dot : headKind rest ≠ .dot) (bracket : headKind rest ≠ .lbracket)
      (paren : headKind rest ≠ .lparen) : Reads (.suffixes []) [] rest
  | name {dot name suffixes a rest} (mark : dot.kind = .dot) (word : name.kind = .ident)
      (more : Reads (.suffixes suffixes) a rest) :
      Reads (.suffixes (.name name :: suffixes)) (dot :: name :: a) rest
  | index {o c key suffixes a b rest} (opening : o.kind = .lbracket) (closing : c.kind = .rbracket)
      (inner : Reads (.expression key) a (c :: (b ++ rest))) (more : Reads (.suffixes suffixes) b rest) :
      Reads (.suffixes (.index key :: suffixes)) (o :: (a ++ c :: b)) rest
  | call {o args suffixes a b rest} (opening : o.kind = .lparen)
      (inner : Reads (.items .rparen args) a (b ++ rest)) (more : Reads (.suffixes suffixes) b rest) :
      Reads (.suffixes (.arguments args :: suffixes)) (o :: (a ++ b)) rest
  | number {t v rest} (kind : t.kind = .number) (value : number t rest = .ok (v, rest)) :
      Reads (.primary (.literal t.place .number v)) [t] rest
  | string {t rest} (kind : t.kind = .string) :
      Reads (.primary (.literal t.place .string (.str t.value))) [t] rest
  | truth {t rest} (kind : t.kind = .trueWord) :
      Reads (.primary (.literal t.place .bool (.bool true))) [t] rest
  | falsity {t rest} (kind : t.kind = .falseWord) :
      Reads (.primary (.literal t.place .bool (.bool false))) [t] rest
  | null {t rest} (kind : t.kind = .nullWord) :
      Reads (.primary (.literal t.place .null .null)) [t] rest
  | ident {t rest} (kind : t.kind = .ident) (stop : headKind rest ≠ .arrow) :
      Reads (.primary (.ident t.place t.value)) [t] rest
  | arrowOfName {t arrow body a rest} (kind : t.kind = .ident) (mark : arrow.kind = .arrow)
      (inner : Reads (.body body) a rest) :
      Reads (.primary (.arrow t.place [t.value] body)) (t :: arrow :: a) rest
  | arrowOfNames {o arrow names body a b rest} (opening : o.kind = .lparen) (mark : arrow.kind = .arrow)
      (ahead : arrowAhead 0 (a ++ arrow :: (b ++ rest)) = true)
      (params : Reads (.names names) a (arrow :: (b ++ rest))) (inner : Reads (.body body) b rest) :
      Reads (.primary (.arrow o.place (names.map Token.value) body)) (o :: (a ++ arrow :: b)) rest
  | group {o c x a rest} (opening : o.kind = .lparen) (closing : c.kind = .rparen)
      (ahead : arrowAhead 0 (a ++ c :: rest) = false) (inner : Reads (.expression x) a (c :: rest)) :
      Reads (.primary x) (o :: (a ++ [c])) rest
  | array {o elements a rest} (opening : o.kind = .lbracket)
      (inner : Reads (.items .rbracket elements) a rest) :
      Reads (.primary (.array o.place elements)) (o :: a) rest
  | object {o newlines entries a rest} (opening : o.kind = .lbrace) (skipped : Newlines newlines)
      (inner : Reads (.entries entries) a rest) :
      Reads (.primary (.object o.place entries)) (o :: (newlines ++ a)) rest
  | noItem {c closing rest} (close : c.kind = closing) : Reads (.items closing []) [c] rest
  | lastItem {c closing x a rest} (close : c.kind = closing) (item : Reads (.expression x) a (c :: rest)) :
      Reads (.items closing [x]) (a ++ [c]) rest
  | item {c closing x xs a b rest} (comma : c.kind = .comma)
      (item : Reads (.expression x) a (c :: (b ++ rest))) (more : Reads (.items closing xs) b rest) :
      Reads (.items closing (x :: xs)) (a ++ c :: b) rest
  | noName {c rest} (close : c.kind = .rparen) : Reads (.names []) [c] rest
  | lastName {c t rest} (close : c.kind = .rparen) (word : t.kind = .ident) :
      Reads (.names [t]) [t, c] rest
  | oneName {c t ts a rest} (comma : c.kind = .comma) (word : t.kind = .ident)
      (more : Reads (.names ts) a rest) : Reads (.names (t :: ts)) (t :: c :: a) rest
  | blockBody {newlines x a rest} (skipped : Newlines newlines) (inner : Reads (.block x) a rest) :
      Reads (.body x) (newlines ++ a) rest
  | expressionBody {newlines x a rest} (skipped : Newlines newlines) (start : headKind (a ++ rest) ≠ .lbrace)
      (inner : Reads (.expression x) a rest) : Reads (.body x) (newlines ++ a) rest
  | block {o newlines statements a rest} (opening : o.kind = .lbrace) (skipped : Newlines newlines)
      (inner : Reads (.statements statements) a rest) :
      Reads (.block (.block o.place statements)) (o :: (newlines ++ a)) rest
  | noStatement {c rest} (close : c.kind = .rbrace) : Reads (.statements []) [c] rest
  | lastStatement {c x a rest} (close : c.kind = .rbrace) (item : Reads (.statement x) a (c :: rest)) :
      Reads (.statements [x]) (a ++ [c]) rest
  | oneStatement {t newlines x xs a b rest} (newline : t.kind = .newline) (skipped : Newlines newlines)
      (item : Reads (.statement x) a (t :: (newlines ++ (b ++ rest))))
      (more : Reads (.statements xs) b rest) :
      Reads (.statements (x :: xs)) (a ++ t :: (newlines ++ b)) rest
  | assignment {t equals x a rest} (word : t.kind = .ident) (mark : equals.kind = .assign)
      (value : Reads (.expression x) a rest) :
      Reads (.statement (.assignment t.place t.value x)) (t :: equals :: a) rest
  | expression {x a rest} (value : Reads (.expression x) a rest) : Reads (.statement x) a rest
  | noEntry {c rest} (close : c.kind = .rbrace) : Reads (.entries []) [c] rest
  | lastEntry {c newlines x a rest} (close : c.kind = .rbrace) (skipped : Newlines newlines)
      (item : Reads (.entry x) a (newlines ++ c :: rest)) :
      Reads (.entries [x]) (a ++ (newlines ++ [c])) rest
  | oneEntry {c before after x xs a b rest} (comma : c.kind = .comma) (skipped : Newlines before)
      (skipped' : Newlines after) (item : Reads (.entry x) a (before ++ c :: (after ++ (b ++ rest))))
      (more : Reads (.entries xs) b rest) :
      Reads (.entries (x :: xs)) (a ++ (before ++ c :: (after ++ b))) rest
  | method {key o newlines names x a b rest} (word : IsKey key) (opening : o.kind = .lparen)
      (skipped : Newlines newlines) (params : Reads (.names names) a (newlines ++ (b ++ rest)))
      (inner : Reads (.block x) b rest) :
      Reads (.entry (.property key.place key.value true (names.map Token.value) x))
        (key :: o :: (a ++ (newlines ++ b))) rest
  | plain {key colon x a rest} (word : IsKey key) (mark : colon.kind = .colon)
      (value : Reads (.expression x) a rest) :
      Reads (.entry (.property key.place key.value false [] x)) (key :: colon :: a) rest

def ReadsProgram (tree : Node) (tokens : List Token) : Prop :=
  ∃ before used after, tokens = before ++ (used ++ after) ∧ Newlines before ∧ Newlines after ∧
    headKind (used ++ after) ≠ .newline ∧ Reads (.expression tree) used after

theorem bindStep {α β : Type} {p : Parser α} {f : α → Parser β} {s middle : List Token} {a : α}
    (first : p s = .ok (a, middle)) : (p >>= f) s = f a middle := by
  show Reader.bind p f s = _
  simp [Reader.bind, first]

theorem nextKindApply (s : List Token) : nextKind s = .ok (headKind s, s) := rfl

theorem dropApply (s : List Token) : (Reader.drop : Parser Unit) s = .ok ((), s.tail) := rfl

theorem peekApply (s : List Token) : (Reader.peek : Parser (Option Token)) s = .ok (s.head?, s) := rfl

theorem aheadApply (s : List Token) : (Reader.ahead : Parser (List Token)) s = .ok (s, s) := rfl

theorem failOk {α : Type} {cause : Cause} {s rest : List Token} {a : α} :
    ¬ (fail cause : Parser α) s = .ok (a, rest) := by
  simp [fail, Reader.fail]

theorem headKindCons (t : Token) (s : List Token) : headKind (t :: s) = t.kind := rfl

theorem headKindSome {s : List Token} {kind : Kind} (head : headKind s = kind) (some : kind ≠ .eof) :
    ∃ t rest, s = t :: rest ∧ t.kind = kind := by
  cases s with
  | nil => exact absurd head.symm some
  | cons t rest => exact ⟨t, rest, rfl, head⟩

theorem expectAsApply (kind : Kind) (what : String) (t : Token) (rest : List Token) :
    expectAs kind what (t :: rest) =
      if t.kind = kind then .ok (t, rest) else .error ⟨.missing what, t :: rest⟩ := by
  unfold expectAs
  rw [bindStep (peekApply _)]
  simp only [List.head?_cons]
  split
  · rfl
  · rfl

theorem expectAsOk {kind : Kind} {what : String} {t : Token} {s rest : List Token} :
    expectAs kind what s = .ok (t, rest) ↔ s = t :: rest ∧ t.kind = kind := by
  cases s with
  | nil => exact ⟨fun same => (nomatch same), fun ⟨same, _⟩ => (nomatch same)⟩
  | cons first more =>
    rw [expectAsApply]
    constructor
    · intro same
      split at same
      · cases same; exact ⟨rfl, ‹_›⟩
      · cases same
    · rintro ⟨⟨⟩, kind⟩
      rw [if_pos kind]

theorem takeApply (kind : Kind) (s : List Token) :
    take kind s = if headKind s = kind then .ok (true, s.tail) else .ok (false, s) := by
  unfold take
  rw [bindStep (nextKindApply s)]
  split <;> rfl

theorem takeOk {kind : Kind} (some : kind ≠ .eof) {s rest : List Token} {found : Bool}
    (ok : take kind s = .ok (found, rest)) :
    (found = true ∧ ∃ t, s = t :: rest ∧ t.kind = kind) ∨
      (found = false ∧ rest = s ∧ headKind s ≠ kind) := by
  rw [takeApply] at ok
  split at ok
  · rename_i head
    obtain ⟨t, more, rfl, same⟩ := headKindSome head some
    cases ok
    exact Or.inl ⟨rfl, t, rfl, same⟩
  · cases ok
    exact Or.inr ⟨rfl, rfl, ‹_›⟩

theorem skipNewlinesSplit (s : List Token) :
    ∃ newlines rest, skipNewlines s = .ok ((), rest) ∧ Newlines newlines ∧ s = newlines ++ rest ∧
      headKind rest ≠ .newline := by
  refine ⟨s.takeWhile (·.kind = .newline), s.dropWhile (·.kind = .newline), rfl, ?_, ?_, ?_⟩
  · intro t member
    have all := List.all_takeWhile (p := fun t : Token => decide (t.kind = .newline)) (l := s)
    simpa using List.all_eq_true.mp all t member
  · exact List.takeWhile_append_dropWhile.symm
  · intro newline
    obtain ⟨t, more, shape, kind⟩ := headKindSome newline (by decide)
    have stop := List.head?_dropWhile_not (fun t : Token => decide (t.kind = .newline)) s
    rw [shape] at stop
    simp [kind] at stop

theorem skipNewlinesAppend {newlines rest : List Token} (skipped : Newlines newlines)
    (stop : headKind rest ≠ .newline) : skipNewlines (newlines ++ rest) = .ok ((), rest) := by
  have inside : ∀ t ∈ newlines, decide (t.kind = .newline) = true := by simpa [Newlines] using skipped
  show Except.ok ((), (newlines ++ rest).dropWhile _) = _
  rw [List.dropWhile_append_of_pos inside]
  cases rest with
  | nil => rfl
  | cons t more => simp [show t.kind ≠ .newline from stop]

end Scriptlet.Parse
