import Scriptlet.Proofs.ParserOutput
import Scriptlet.Proofs.ScannerPaths

/-! Brackets match in every script that has a tree: each closing one closes the innermost open one, and
none stays open. -/
namespace Scriptlet

namespace Token

def Bracket.isMark (k : Kind) : Bool := Bracket.all.any fun b => b.opening = k || b.closing = k

/- The brackets that are open before and after some tokens, innermost first, if every closing bracket
closes the innermost open one. -/
inductive Nests : List Bracket → List Token → List Bracket → Prop where
  | done {o} : Nests o [] o
  | opens {o o' t tokens} (b : Bracket) (opening : t.kind = b.opening) (more : Nests (b :: o) tokens o') :
      Nests o (t :: tokens) o'
  | closes {o o' t tokens} (b : Bracket) (closing : t.kind = b.closing) (more : Nests o tokens o') :
      Nests (b :: o) (t :: tokens) o'
  | other {o o' t tokens} (free : Bracket.isMark t.kind = false) (more : Nests o tokens o') :
      Nests o (t :: tokens) o'

theorem trackOpening (o : List Bracket) (b : Bracket) : Bracket.track o b.opening = b :: o := by
  cases b <;> rfl

theorem trackClosing (o : List Bracket) (b : Bracket) : Bracket.track (b :: o) b.closing = o := by
  cases b <;> rfl

theorem trackFree (o : List Bracket) {k : Kind} (free : Bracket.isMark k = false) : Bracket.track o k = o := by
  cases o with
  | nil => revert free; cases k <;> decide
  | cons b outer => revert free; cases k <;> cases b <;> simp [Bracket.isMark, Bracket.track, Bracket.all,
      Bracket.opening, Bracket.closing]

theorem closingMark (b : Bracket) : Bracket.isMark b.closing = true := by cases b <;> rfl

theorem closingNotOpening (b b' : Bracket) : b.closing ≠ b'.opening := by cases b <;> cases b' <;> decide

theorem closingInjective {b b' : Bracket} (same : b.closing = b'.closing) : b = b' := by
  revert same
  cases b <;> cases b' <;> decide

namespace Nests

variable {o m o' : List Bracket} {t : Token} {tokens more : List Token}

theorem append (first : Nests o tokens m) (second : Nests m more o') : Nests o (tokens ++ more) o' := by
  induction first with
  | done => exact second
  | opens b opening _ ih => exact .opens b opening (ih second)
  | closes b closing _ ih => exact .closes b closing (ih second)
  | other free _ ih => exact .other free (ih second)

theorem tail (nests : Nests o (tokens ++ more) o') :
    Nests ((tokens.map Token.kind).foldl Bracket.track o) more o' := by
  induction tokens generalizing o with
  | nil => exact nests
  | cons t tokens ih =>
    rw [List.map_cons, List.foldl_cons]
    cases nests with
    | opens b opening more =>
      rw [opening, trackOpening]
      exact ih more
    | closes b closing more =>
      rw [closing, trackClosing]
      exact ih more
    | other free more =>
      rw [trackFree o free]
      exact ih more

theorem track (nests : Nests o tokens o') : (tokens.map Token.kind).foldl Bracket.track o = o' := by
  rw [← List.append_nil tokens] at nests
  have rest := nests.tail
  generalize (tokens.map Token.kind).foldl Bracket.track o = open' at rest
  cases rest
  rfl

theorem closing {b : Bracket} (nests : Nests o (t :: tokens) o') (closing : t.kind = b.closing) :
    o = b :: Bracket.track o t.kind := by
  cases nests with
  | opens b' opening => exact absurd (closing.symm.trans opening) (closingNotOpening b b')
  | closes b' same =>
    rw [closing, closingInjective (closing.symm.trans same), trackClosing]
  | other free =>
    rw [closing, closingMark] at free
    cases free

theorem mark {k : Kind} (kind : t.kind = k) (free : Bracket.isMark k = false) (more : Nests o tokens o') :
    Nests o (t :: tokens) o' := .other (kind ▸ free) more

theorem newlines (skipped : Parse.Newlines tokens) (next : Nests o more o') : Nests o (tokens ++ more) o' := by
  induction tokens with
  | nil => exact next
  | cons t tokens ih =>
    obtain ⟨newline, others⟩ := List.forall_mem_cons.mp skipped
    exact .mark newline rfl (ih others)

end Nests

end Token

namespace Parse
open Token (Kind Bracket Nests)
open Token.Scanner (Path start)

/- The brackets that are open before and after a phrase. A list closes the bracket that it stands in. -/
def Phrase.Leaves : Phrase → List Bracket → List Bracket → Prop
  | .items closing _, o, o' => ∃ b : Bracket, closing = b.closing ∧ o = b :: o'
  | .names _, o, o' => o = .paren :: o'
  | .statements _, o, o' | .entries _, o, o' => o = .brace :: o'
  | _, o, o' => o = o'

theorem precedenceFree {k : Kind} {strength : Nat} (binds : k.precedence? = some strength) :
    Bracket.isMark k = false := by
  cases k <;> first | rfl | cases binds

theorem keyFree {t : Token} (key : IsKey t) : Bracket.isMark t.kind = false := by
  rcases key with ident | ⟨string, _⟩
  · rw [ident]; rfl
  · rw [string]; rfl

theorem signFree {t : Token} (mark : t.kind = .notOp ∨ t.kind = .minus) : Bracket.isMark t.kind = false := by
  rcases mark with mark | mark <;> rw [mark] <;> rfl

theorem readsNests {p : Phrase} {used rest : List Token} (reads : Reads p used rest) :
    ∀ {o o' : List Bracket}, p.Leaves o o' → Nests o used o' := by
  induction reads with
  | single _ _ ih => exact ih
  | choice mark colon _ _ _ cond left right =>
    rintro o _ rfl
    exact (cond rfl).append (.mark mark rfl ((left rfl).append (.mark colon rfl (right rfl))))
  | chain _ _ first more =>
    rintro o _ rfl
    exact (first rfl).append (more rfl)
  | noLink =>
    rintro o _ rfl
    exact .done
  | link binds _ _ right more =>
    rintro o _ rfl
    exact .other (precedenceFree binds) ((right rfl).append (more rfl))
  | sign mark _ inner =>
    rintro o _ rfl
    exact .other (signFree mark) (inner rfl)
  | suffixed _ _ target more =>
    rintro o _ rfl
    exact (target rfl).append (more rfl)
  | noSuffix =>
    rintro o _ rfl
    exact .done
  | name mark word _ more =>
    rintro o _ rfl
    exact .mark mark rfl (.mark word rfl (more rfl))
  | index opening closing _ _ inner more =>
    rintro o _ rfl
    exact .opens .square opening ((inner rfl).append (.closes .square closing (more rfl)))
  | call opening _ _ inner more =>
    rintro o _ rfl
    exact .opens .paren opening ((inner ⟨.paren, rfl, rfl⟩).append (more rfl))
  | number kind =>
    rintro o _ rfl
    exact .mark kind rfl .done
  | string kind =>
    rintro o _ rfl
    exact .mark kind rfl .done
  | truth kind =>
    rintro o _ rfl
    exact .mark kind rfl .done
  | falsity kind =>
    rintro o _ rfl
    exact .mark kind rfl .done
  | null kind =>
    rintro o _ rfl
    exact .mark kind rfl .done
  | ident kind =>
    rintro o _ rfl
    exact .mark kind rfl .done
  | arrowOfName kind mark _ inner =>
    rintro o _ rfl
    exact .mark kind rfl (.mark mark rfl (inner rfl))
  | arrowOfNames opening mark _ _ _ params inner =>
    rintro o _ rfl
    exact .opens .paren opening ((params rfl).append (.mark mark rfl (inner rfl)))
  | group opening closing _ _ inner =>
    rintro o _ rfl
    exact .opens .paren opening ((inner rfl).append (.closes .paren closing .done))
  | array opening _ inner =>
    rintro o _ rfl
    exact .opens .square opening (inner ⟨.square, rfl, rfl⟩)
  | object opening skipped _ inner =>
    rintro o _ rfl
    exact .opens .brace opening (.newlines skipped (inner rfl))
  | noItem close =>
    rintro _ o ⟨b, rfl, rfl⟩
    exact .closes b close .done
  | lastItem close _ item =>
    rintro _ o ⟨b, rfl, rfl⟩
    exact (item rfl).append (.closes b close .done)
  | item comma _ _ item more =>
    rintro _ o inside
    exact (item rfl).append (.mark comma rfl (more inside))
  | noName close =>
    rintro _ o rfl
    exact .closes .paren close .done
  | lastName close word =>
    rintro _ o rfl
    exact .mark word rfl (.closes .paren close .done)
  | oneName comma word _ more =>
    rintro _ o rfl
    exact .mark word rfl (.mark comma rfl (more rfl))
  | blockBody skipped _ inner =>
    rintro o _ rfl
    exact .newlines skipped (inner rfl)
  | expressionBody skipped _ _ inner =>
    rintro o _ rfl
    exact .newlines skipped (inner rfl)
  | block opening skipped _ inner =>
    rintro o _ rfl
    exact .opens .brace opening (.newlines skipped (inner rfl))
  | noStatement close =>
    rintro _ o rfl
    exact .closes .brace close .done
  | lastStatement close _ item =>
    rintro _ o rfl
    exact (item rfl).append (.closes .brace close .done)
  | oneStatement newline skipped _ _ item more =>
    rintro _ o rfl
    exact (item rfl).append (.mark newline rfl (.newlines skipped (more rfl)))
  | assignment word mark _ value =>
    rintro o _ rfl
    exact .mark word rfl (.mark mark rfl (value rfl))
  | expression _ value => exact value
  | noEntry close =>
    rintro _ o rfl
    exact .closes .brace close .done
  | lastEntry close skipped _ item =>
    rintro _ o rfl
    exact (item rfl).append (.newlines skipped (.closes .brace close .done))
  | oneEntry comma skipped skipped' _ _ item more =>
    rintro _ o rfl
    exact (item rfl).append (.newlines skipped (.mark comma rfl (.newlines skipped' (more rfl))))
  | method word opening skipped _ _ params inner =>
    rintro o _ rfl
    exact .other (keyFree word) (.opens .paren opening ((params rfl).append (.newlines skipped (inner rfl))))
  | plain word mark _ value =>
    rintro o _ rfl
    exact .other (keyFree word) (.mark mark rfl (value rfl))

/- The search for an arrow counts the round brackets, so it passes over tokens that nest. -/
theorem nestsAhead {o o' : List Bracket} {s : List Token} (nests : Nests o s o') (depth : Nat)
    (after : List Token) :
    arrowAhead (depth + o.count .paren) (s ++ after) = arrowAhead (depth + o'.count .paren) after := by
  induction nests with
  | done => rfl
  | opens b opening _ ih =>
    rw [List.cons_append, ← ih]
    cases b <;> simp [arrowAhead, opening, Bracket.opening, Nat.add_assoc]
  | closes b closing _ ih =>
    rw [List.cons_append, ← ih]
    cases b <;> simp [arrowAhead, closing, Bracket.closing, ← Nat.add_assoc]
  | @other _ _ t _ free _ ih =>
    rw [List.cons_append, ← ih, arrowAhead.eq_def]
    dsimp only
    split
    · rename_i kind
      rw [kind] at free
      cases free
    · rename_i kind
      rw [kind] at free
      cases free
    · rfl

theorem programNests {tree : Node} {tokens : List Token} (reads : ReadsProgram tree tokens) :
    Nests [] tokens [] := by
  obtain ⟨before, used, after, rfl, skipped, skipped', _, inner⟩ := reads
  have tail : Nests [] (after ++ []) [] := .newlines skipped' .done
  rw [List.append_nil] at tail
  exact .newlines skipped ((readsNests inner rfl).append tail)

structure Paired (source : String) : Prop where
  closes : ∀ front s t s' b, Path (start source.toList) front s → s.step = .token t s' →
    t.kind = Bracket.closing b → s.brackets = b :: s'.brackets
  ends : ∃ final, (start source.toList).run.2 = .ok final ∧ final.brackets = []

def ClosesNothing (source : String) : Prop :=
  ∃ front s t s' b, Path (start source.toList) front s ∧ s.step = .token t s' ∧
    t.kind = Bracket.closing b ∧ s.brackets.head? ≠ some b

def LeftUnclosed (source : String) : Prop :=
  ∃ final, (start source.toList).run.2 = .ok final ∧ final.brackets ≠ []

theorem scanPaired {source : String} {stream : Token.Stream} (tokens : tokenize source = .ok stream)
    (nests : Nests [] stream.body []) : Paired source := by
  obtain ⟨final, ends, rfl⟩ := Token.tokenizeIff.mp tokens
  refine ⟨fun front s t s' b path step closing => ?_, final, ends, ?_⟩
  · rw [path.run.1, Token.Scanner.runToken step] at nests
    have here := nests.tail.closing closing
    rw [(Token.Scanner.tokenState step).1, path.brackets]
    exact here
  · rw [(Token.Scanner.runEnds ends).1.brackets]
    exact nests.track

theorem parsePaired {depth : Nat} {source : String} {tree : Node} (ok : parse depth source = .ok tree) :
    Paired source := by
  obtain ⟨stream, tokens, _, reads⟩ := parseReads ok
  exact scanPaired tokens (programNests reads)

theorem Paired.nothingElse {source : String} (paired : Paired source) :
    ¬ (ClosesNothing source ∨ LeftUnclosed source) := by
  rintro (⟨front, s, t, s', b, path, step, closing, other⟩ | ⟨final, ends, some⟩)
  · rw [paired.closes front s t s' b path step closing] at other
    exact other rfl
  · obtain ⟨final', ends', empty⟩ := paired.ends
    cases ends.symm.trans ends'
    exact some empty

theorem parseComplains {depth : Nat} {source : String} {stream : Token.Stream} (tokens : tokenize source = .ok stream)
    {e : CompileError} (failed : parse depth source = .error e) : ∃ complaint, e = .parse complaint := by
  unfold parse at failed
  rw [tokens] at failed
  change stream.parse depth source = _ at failed
  unfold Token.Stream.parse at failed
  split at failed
  · cases failed
  · cases failed
    exact ⟨_, rfl⟩

theorem bracketsMatch (depth : Nat) (source : String) :
    (∀ tree, parse depth source = .ok tree → Paired source) ∧
    ∀ stream, tokenize source = .ok stream → ClosesNothing source ∨ LeftUnclosed source →
      ∃ e, parse depth source = .error (.parse e) := by
  refine ⟨fun tree ok => parsePaired ok, fun stream tokens wrong => ?_⟩
  cases result : parse depth source with
  | ok tree => exact absurd wrong (parsePaired result).nothingElse
  | error e =>
    obtain ⟨complaint, rfl⟩ := parseComplains tokens result
    exact ⟨complaint, rfl⟩

def nestedSource : String := "f => \x7b\n x = [(1), ')']\n x[0]\n\x7d"

def crossedSource : String := "[(1])"

theorem crossedClosesNothing : ClosesNothing crossedSource :=
  ⟨_, _, _, _, .square, .token rfl (.token rfl (.token rfl .here)), rfl, rfl, by decide +kernel⟩

theorem bracketsMatchSamples :
    (∃ tree, parse 9 nestedSource = .ok tree ∧ Paired nestedSource) ∧
      ∃ stream e, tokenize crossedSource = .ok stream ∧ ClosesNothing crossedSource ∧
        parse 9 crossedSource = .error (.parse e) := by
  have accepted : (parse 9 nestedSource).toOption.isSome = true := by decide +kernel
  have scanned : (tokenize crossedSource).toOption.isSome = true := by decide +kernel
  obtain ⟨tree, parsed⟩ := okOfSome accepted
  obtain ⟨stream, tokens⟩ := okOfSome scanned
  refine ⟨⟨tree, parsed, (bracketsMatch 9 nestedSource).1 tree parsed⟩, ?_⟩
  obtain ⟨e, failed⟩ := (bracketsMatch 9 crossedSource).2 stream tokens (Or.inl crossedClosesNothing)
  exact ⟨stream, e, tokens, crossedClosesNothing, failed⟩

end Parse

end Scriptlet
