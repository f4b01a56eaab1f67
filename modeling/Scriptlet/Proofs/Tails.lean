import Scriptlet.Proofs.Reading

/-! What can follow a phrase inside an expression. A function takes all that follows its arrow as its
body, so a phrase is read together with its tail: suffixes, operators with operands, and a choice. -/
namespace Scriptlet.Parse
open Token (Kind)

def Closes (rest : List Token) : Prop :=
  headKind rest ∈ [Kind.newline, .eof, .colon, .comma, .rparen, .rbracket, .rbrace]

inductive Branch : List Token → List Token → Prop where
  | none {rest} (stop : headKind rest ≠ .question) : Branch [] rest
  | some {q c yes no a b rest} (mark : q.kind = .question) (colon : c.kind = .colon)
      (left : Reads (.expression yes) a (c :: (b ++ rest))) (right : Reads (.expression no) b rest) :
      Branch (q :: (a ++ c :: b)) rest

/- The rest of an expression after its first primary expression. -/
inductive Tail : List Token → List Token → Prop where
  | mk {suffixes links a b c rest} (closes : Closes rest)
      (more : Reads (.suffixes suffixes) a (b ++ (c ++ rest)))
      (chain : Reads (.links links) b (c ++ rest)) (branch : Branch c rest) : Tail (a ++ (b ++ c)) rest

theorem Closes.cons {t : Token} {rest : List Token}
    (kind : t.kind ∈ [Kind.newline, .eof, .colon, .comma, .rparen, .rbracket, .rbrace]) :
    Closes (t :: rest) := kind

theorem Closes.newlines {tokens : List Token} (all : Newlines tokens) : Closes tokens := by
  cases tokens with
  | nil => exact List.mem_cons_of_mem _ List.mem_cons_self
  | cons t more =>
    refine .cons ?_
    rw [all t List.mem_cons_self]
    exact List.mem_cons_self

theorem Closes.not {rest : List Token} {kind : Kind} (closes : Closes rest)
    (other : kind ∉ [Kind.newline, .eof, .colon, .comma, .rparen, .rbracket, .rbrace]) :
    headKind rest ≠ kind := by
  rintro rfl
  exact other closes

theorem Closes.noLink {rest : List Token} (closes : Closes rest) :
    Reads (.links []) [] rest := by
  refine .noLink ?_
  unfold Closes at closes
  generalize headKind rest = k at closes
  revert closes
  cases k <;> decide

theorem Closes.noSuffix {rest : List Token} (closes : Closes rest) : Reads (.suffixes []) [] rest :=
  .noSuffix (closes.not (by decide)) (closes.not (by decide)) (closes.not (by decide))

theorem Closes.branch {rest : List Token} (closes : Closes rest) : Branch [] rest :=
  .none (closes.not (by decide))

theorem Tail.empty {rest : List Token} (closes : Closes rest) : Tail [] rest :=
  .mk (a := []) (b := []) (c := []) closes closes.noSuffix closes.noLink closes.branch

theorem Tail.closes {ext rest : List Token} (tail : Tail ext rest) : Closes rest := by
  cases tail with
  | mk closes => exact closes

theorem chainBranch {x : Node} {a c rest : List Token} (chain : Reads (.chain x) a (c ++ rest))
    (branch : Branch c rest) : ∃ y, Reads (.expression y) (a ++ c) rest := by
  cases branch with
  | none stop =>
    rw [List.append_nil]
    exact ⟨x, .single chain stop⟩
  | some mark colon left right =>
    simp only [List.cons_append, List.append_assoc] at chain
    exact ⟨_, .choice mark colon chain left right⟩

theorem operandTail {x : Node} {links : List Link} {a b c rest : List Token}
    (operand : Reads (.operand x) a (b ++ (c ++ rest))) (chain : Reads (.links links) b (c ++ rest))
    (branch : Branch c rest) : ∃ y, Reads (.expression y) (a ++ (b ++ c)) rest := by
  obtain ⟨y, reads⟩ := chainBranch (.chain operand chain) branch
  exact ⟨y, by simpa using reads⟩

theorem primaryTail {x : Node} {s ext rest : List Token} (primary : Reads (.primary x) s (ext ++ rest))
    (tail : Tail ext rest) : ∃ y, Reads (.expression y) (s ++ ext) rest := by
  cases tail with
  | @mk suffixes links a b c _ closes more chain branch =>
    have target : Reads (.primary x) s (a ++ (b ++ (c ++ rest))) := by simpa using primary
    obtain ⟨y, reads⟩ := operandTail (.suffixed target more) chain branch
    exact ⟨y, by simpa using reads⟩

theorem expressionParts {x : Node} {s rest : List Token} (reads : Reads (.expression x) s rest) :
    ∃ y links a b c, s = a ++ (b ++ c) ∧ Reads (.operand y) a (b ++ (c ++ rest)) ∧
      Reads (.links links) b (c ++ rest) ∧ Branch c rest := by
  cases reads with
  | single chain stop =>
    cases chain with
    | chain first more => exact ⟨_, _, _, _, [], by simp, first, more, .none stop⟩
  | choice mark colon cond left right =>
    cases cond with
    | @chain y links a b _ first more =>
      refine ⟨y, links, a, b, _, List.append_assoc _ _ _, ?_, ?_, .some mark colon left right⟩
      · simpa using first
      · simpa using more

theorem signTail {op : Token} {x : Node} {s rest : List Token}
    (mark : op.kind = .notOp ∨ op.kind = .minus) (reads : Reads (.expression x) s rest) :
    ∃ y, Reads (.expression y) (op :: s) rest := by
  obtain ⟨y, links, a, b, c, rfl, operand, chain, branch⟩ := expressionParts reads
  exact operandTail (.sign mark operand) chain branch

theorem linkTail {op : Token} {strength : Nat} {x : Node} {s rest : List Token} (closes : Closes rest)
    (binds : op.kind.precedence? = some strength) (reads : Reads (.expression x) s rest) :
    Tail (op :: s) rest := by
  obtain ⟨y, links, a, b, c, rfl, operand, chain, branch⟩ := expressionParts reads
  have links := Reads.link binds operand chain
  have noSuffix : Reads (.suffixes []) [] (op :: (a ++ b) ++ (c ++ rest)) := by
    refine .noSuffix ?_ ?_ ?_ <;> intro kind <;> rw [List.cons_append, headKindCons] at kind <;>
      simp [kind, Kind.precedence?] at binds
  have tail := Tail.mk closes noSuffix links branch
  simpa using tail

theorem choiceTail {q c : Token} {yes no : Node} {a b rest : List Token} (closes : Closes rest)
    (mark : q.kind = .question) (colon : c.kind = .colon)
    (left : Reads (.expression yes) a (c :: (b ++ rest))) (right : Reads (.expression no) b rest) :
    Tail (q :: (a ++ c :: b)) rest := by
  have branch := Branch.some mark colon left right
  have noLink : Reads (.links []) [] ((q :: (a ++ c :: b)) ++ rest) := by
    refine .noLink ?_
    rw [List.cons_append, headKindCons, mark]
    rfl
  have noSuffix : Reads (.suffixes []) [] ([] ++ ((q :: (a ++ c :: b)) ++ rest)) := by
    refine .noSuffix ?_ ?_ ?_ <;> simp [headKindCons, mark]
  exact .mk closes noSuffix noLink branch

theorem nameTail {dot name : Token} {ext rest : List Token} (mark : dot.kind = .dot)
    (word : name.kind = .ident) (tail : Tail ext rest) : Tail (dot :: name :: ext) rest := by
  cases tail with
  | mk closes more chain branch => exact .mk closes (.name mark word more) chain branch

theorem indexTail {o c : Token} {key : Node} {a ext rest : List Token} (opening : o.kind = .lbracket)
    (closing : c.kind = .rbracket) (inner : Reads (.expression key) a (c :: (ext ++ rest)))
    (tail : Tail ext rest) : Tail (o :: (a ++ c :: ext)) rest := by
  cases tail with
  | mk closes more chain branch =>
    simp only [List.append_assoc] at inner
    simpa using Tail.mk closes (.index opening closing inner more) chain branch

theorem callTail {o : Token} {args : List Node} {a ext rest : List Token} (opening : o.kind = .lparen)
    (inner : Reads (.items .rparen args) a (ext ++ rest)) (tail : Tail ext rest) :
    Tail (o :: (a ++ ext)) rest := by
  cases tail with
  | mk closes more chain branch =>
    simp only [List.append_assoc] at inner
    simpa using Tail.mk closes (.call opening inner more) chain branch

end Scriptlet.Parse
