import Scriptlet.Proofs.ArrowLookahead
import Scriptlet.Proofs.BlankLines
import Scriptlet.Proofs.ScriptRoundTrip

/-! A script in round brackets says what it says without them. Inside the brackets its outermost line breaks are
no tokens any more, but a script that has a tree needs none of them. -/
namespace Scriptlet

namespace Token

/- The tokens of a text inside one more round bracket: a newline where nothing else is open is lost. The brackets
that are open before and after them are as in `Nests`. -/
inductive Encloses : List Bracket → List Token → List Token → List Bracket → Prop where
  | done {o} : Encloses o [] [] o
  | opens {o o' t a a'} (b : Bracket) (opening : t.kind = b.opening) (more : Encloses (b :: o) a a' o') :
      Encloses o (t :: a) (t :: a') o'
  | closes {o o' t a a'} (b : Bracket) (closing : t.kind = b.closing) (more : Encloses o a a' o') :
      Encloses (b :: o) (t :: a) (t :: a') o'
  | other {o o' t a a'} (free : Bracket.isMark t.kind = false) (kept : t.kind = .newline → o ≠ [])
      (more : Encloses o a a' o') : Encloses o (t :: a) (t :: a') o'
  | newline {o' t a a'} (newline : t.kind = .newline) (more : Encloses [] a a' o') : Encloses [] (t :: a) a' o'

namespace Encloses

variable {o m o' : List Bracket} {t : Token} {a a' b b' lines : List Token}

theorem append (first : Encloses o a a' m) (second : Encloses m b b' o') : Encloses o (a ++ b) (a' ++ b') o' := by
  induction first with
  | done => exact second
  | opens b opening _ ih => exact .opens b opening (ih second)
  | closes b closing _ ih => exact .closes b closing (ih second)
  | other free kept _ ih => exact .other free kept (ih second)
  | newline newline _ ih => exact .newline newline (ih second)

theorem mark {k : Kind} (kind : t.kind = k) (free : (Bracket.isMark k || k == .newline) = false)
    (more : Encloses o a a' o') : Encloses o (t :: a) (t :: a') o' := by
  subst kind
  obtain ⟨noBracket, noLine⟩ := Bool.or_eq_false_iff.mp free
  refine .other noBracket (fun newline => ?_) more
  rw [newline] at noLine
  cases noLine

theorem key (word : Parse.IsKey t) (more : Encloses o a a' o') : Encloses o (t :: a) (t :: a') o' := by
  rcases word with ident | ⟨string, _⟩
  · exact mark ident rfl more
  · exact mark string rfl more

theorem sign (op : t.kind = .notOp ∨ t.kind = .minus) (more : Encloses o a a' o') :
    Encloses o (t :: a) (t :: a') o' := by
  rcases op with not | minus
  · exact mark not rfl more
  · exact mark minus rfl more

theorem kept (some : o ≠ []) (skipped : Parse.Newlines lines) (more : Encloses o a a' o') :
    Encloses o (lines ++ a) (lines ++ a') o' := by
  induction lines with
  | nil => exact more
  | cons t lines ih =>
    obtain ⟨newline, others⟩ := List.forall_mem_cons.mp skipped
    exact .other (newline ▸ rfl) (fun _ => some) (ih others)

theorem dropped (skipped : Parse.Newlines lines) (more : Encloses [] a a' o') :
    Encloses [] (lines ++ a) a' o' := by
  induction lines with
  | nil => exact more
  | cons t lines ih =>
    obtain ⟨newline, others⟩ := List.forall_mem_cons.mp skipped
    exact .newline newline (ih others)

theorem newlines (skipped : Parse.Newlines lines) (more : Encloses o a a' o') :
    ∃ left, Parse.Newlines left ∧ Encloses o (lines ++ a) (left ++ a') o' := by
  cases o with
  | nil => exact ⟨[], List.forall_mem_nil _, more.dropped skipped⟩
  | cons b o => exact ⟨lines, skipped, more.kept (List.cons_ne_nil b o) skipped⟩

theorem uncons (encloses : Encloses o (t :: a) a' o') (stays : t.kind = .newline → o ≠ []) :
    ∃ more, a' = t :: more ∧ Encloses (Bracket.track o t.kind) a more o' ∧
      ∀ outer, Bracket.track (o ++ outer) t.kind = Bracket.track o t.kind ++ outer := by
  cases encloses with
  | opens b opening more =>
    refine ⟨_, rfl, ?_, fun outer => ?_⟩
    · rw [opening, trackOpening]
      exact more
    · rw [opening, trackOpening, trackOpening]
      rfl
  | closes b closing more =>
    refine ⟨_, rfl, ?_, fun outer => ?_⟩
    · rw [closing, trackClosing]
      exact more
    · rw [closing, List.cons_append, trackClosing, trackClosing]
  | other free _ more =>
    refine ⟨_, rfl, ?_, fun outer => ?_⟩
    · rw [trackFree o free]
      exact more
    · rw [trackFree _ free, trackFree _ free]
  | newline newline _ => exact absurd rfl (stays newline)

theorem drop (encloses : Encloses [] (t :: a) a' o') (newline : t.kind = .newline) : Encloses [] a a' o' := by
  cases encloses with
  | opens b opening _ => cases b <;> cases newline.symm.trans opening
  | other _ kept _ => exact absurd rfl (kept newline)
  | newline _ more => exact more

end Encloses

namespace Scanner

structure Inside (s g : Scanner) : Prop where
  brackets : g.brackets = s.brackets ++ [.paren]
  last : s.brackets ≠ [] → g.last = s.last
  text : g.rest = s.rest ++ ['\n', ')']

namespace Inside

variable {s g : Scanner}

theorem folds (inside : Inside s g) (outermost : s.brackets = []) : g.continues = true := by
  unfold Scanner.continues
  rw [inside.brackets, outermost]
  rfl

theorem continues (inside : Inside s g) (within : s.brackets ≠ []) : g.continues = s.continues := by
  obtain ⟨b, o, same⟩ := List.exists_cons_of_ne_nil within
  unfold Scanner.continues
  rw [inside.brackets, inside.last within, same]
  rfl

theorem pass (inside : Inside s g) (used rest : List Char) :
    Inside (s.pass used rest) (g.pass used (rest ++ ['\n', ')'])) :=
  ⟨inside.brackets, inside.last, rfl⟩

theorem passWord (inside : Inside s g) {l : Lexeme}
    (tracked : ∀ outer, Bracket.track (s.brackets ++ outer) l.kind = Bracket.track s.brackets l.kind ++ outer) :
    Inside (s.passWord l) (g.passWord (l.onward [')'])) := by
  have more := tracked [.paren]
  rw [← inside.brackets] at more
  exact ⟨more, fun _ => rfl, rfl⟩

theorem gap {used rest : List Char} (inside : Inside s g) (gap : Gap s used rest) :
    Gap g used (rest ++ ['\n', ')']) := by
  cases gap.onward [')'] with
  | newline continues =>
    by_cases outermost : s.brackets = []
    · exact .newline (inside.folds outermost)
    · exact .newline ((inside.continues outermost).trans continues)
  | blank blank => exact .blank blank
  | comment oneLine stop => exact .comment oneLine stop

end Inside

theorem Path.enclosed {s final : Scanner} {tokens : List Token} (path : Path s tokens final) :
    ∀ {left : List Token} {o' : List Bracket} {g : Scanner}, Encloses s.brackets tokens left o' → Inside s g →
      ∃ found final', Path g found final' ∧ Parse.AllAlike left found ∧ Inside final final' := by
  induction path with
  | @here s =>
    intro left o' g encloses inside
    generalize s.brackets = o at encloses
    cases encloses
    exact ⟨[], g, .here, .nil, inside⟩
  | @skip s s' tokens final step _ ih =>
    intro left o' g encloses inside
    obtain ⟨used, rest, text, gap, rfl⟩ := skippedCases step
    have text' : g.rest = used ++ (rest ++ ['\n', ')']) := by rw [inside.text, text, List.append_assoc]
    obtain ⟨found, final', path, alike, ends⟩ := ih encloses (inside.pass used rest)
    exact ⟨found, final', .skip (stepGap text' (inside.gap gap)) path, alike, ends⟩
  | @token s t s' tokens final step _ ih =>
    intro left o' g encloses inside
    rcases tokenCases step with ⟨rest, text, ends, rfl, rfl⟩ | ⟨c, rest, l, text, ok, rfl, rfl⟩
    · have text' : g.rest = '\n' :: (rest ++ ['\n', ')']) := by rw [inside.text, text, List.cons_append]
      by_cases outermost : s.brackets = []
      · rw [outermost] at encloses
        have later := encloses.drop rfl
        rw [← outermost] at later
        obtain ⟨found, final', path, alike, ends⟩ := ih later (inside.pass ['\n'] rest)
        exact ⟨found, final', .skip (stepFold text' (inside.folds outermost)) path, alike, ends⟩
      · obtain ⟨more, rfl, later, _⟩ := encloses.uncons fun _ => outermost
        rw [newlineToken, trackNewline] at later
        obtain ⟨found, final', path, alike, ends'⟩ := ih later (inside.pass ['\n'] rest)
        have line := stepLine text' ((inside.continues outermost).trans ends)
        exact ⟨_, final', .token line path, .cons ⟨rfl, rfl, rfl⟩ alike, ends'⟩
    · have text' : g.rest = c :: (rest ++ ['\n', ')']) := by rw [inside.text, text, List.cons_append]
      have noComment := noCommentLine [')'] (tokenNoComment text step)
      obtain ⟨more, rfl, later, tracked⟩ := encloses.uncons fun newline => absurd newline (lexemeNoNewline ok)
      obtain ⟨found, final', path, alike, ends⟩ := ih later (inside.passWord tracked)
      have word := stepWord text' (lexemeOnward [')'] ok) noComment
      exact ⟨_, final', .token word path, .cons ⟨rfl, rfl, rfl⟩ alike, ends⟩

end Scanner

/- A script in round brackets. The line break ends a comment in its last line. -/
def grouped (source : String) : String := "(" ++ source ++ "\n)"

theorem groupedChars (source : String) : (grouped source).toList = '(' :: (source.toList ++ ['\n', ')']) := by
  simp [grouped]

theorem groupedTokens {source : String} {stream : Stream} (tokens : tokenize source = .ok stream)
    {left : List Token} (encloses : Encloses [] stream.body left []) (nests : Nests [] stream.body []) :
    ∃ o c body stop, tokenize (grouped source) = .ok ⟨o :: (body ++ [c]), stop⟩ ∧ o.kind = .lparen ∧
      c.kind = .rparen ∧ Parse.AllAlike left body := by
  obtain ⟨final, ends, rfl⟩ := tokenizeIff.mp tokens
  obtain ⟨path, empty⟩ := Scanner.runEnds ends
  have open' : final.brackets = [] := path.brackets.trans nests.track
  let s := Scanner.start (grouped source).toList
  let l : Lexeme := ⟨.lparen, ['('], ['('], source.toList ++ ['\n', ')']⟩
  have opening := Scanner.stepWord (s := s) (l := l) (groupedChars source) rfl (by simp)
  have inside : Scanner.Inside (Scanner.start source.toList) (s.passWord l) :=
    ⟨rfl, fun within => absurd rfl within, rfl⟩
  obtain ⟨body, final', path', alike, inside'⟩ := path.enclosed encloses inside
  have text : final'.rest = '\n' :: [')'] := by rw [inside'.text, empty]; rfl
  have line := Scanner.stepFold text (inside'.folds open')
  let s' := final'.pass ['\n'] [')']
  have closing := Scanner.stepWord (s := s') (l := ⟨.rparen, [')'], [')'], []⟩) rfl rfl (by simp)
  have whole := tokenizePath (.token opening (path'.trans (.skip line (.single closing)))) rfl
  exact ⟨_, _, body, _, whole, rfl, rfl, alike⟩

end Token

namespace Parse
open Token (Kind Bracket Encloses)

variable {rest rest' : List Token}

def Phrase.Follows : Phrase → List Token → List Token → Prop
  | .names _, _, _ => True
  | _, rest, rest' => headKind rest' = headKind rest ∨ Closes rest'

theorem followsNot {k : Kind} (follows : headKind rest' = headKind rest ∨ Closes rest') (stop : headKind rest ≠ k)
    (other : k ∉ [Kind.newline, .eof, .colon, .comma, .rparen, .rbracket, .rbrace]) : headKind rest' ≠ k := by
  rcases follows with same | closes
  · rw [same]
    exact stop
  · exact closes.not other

theorem followsNoLink (follows : headKind rest' = headKind rest ∨ Closes rest')
    (stop : (headKind rest).precedence? = none) : (headKind rest').precedence? = none := by
  rcases follows with same | closes
  · rw [same]
    exact stop
  · cases closes.noLink with
    | noLink stop => exact stop

theorem followsPart {o o' : List Bracket} {b b' : List Token} (encloses : Encloses o b b' o')
    (start : headKind b ≠ .newline) (follows : headKind rest' = headKind rest ∨ Closes rest') :
    headKind (b' ++ rest') = headKind (b ++ rest) ∨ Closes (b' ++ rest') := by
  cases b with
  | nil =>
    cases encloses
    exact follows
  | cons t b =>
    obtain ⟨more, rfl, _⟩ := encloses.uncons fun newline => absurd newline start
    exact Or.inl rfl

theorem linksStart {links : List Link} {used : List Token} (reads : Reads (.links links) used rest) :
    headKind used ≠ .newline := by
  cases reads with
  | noLink => decide
  | link binds _ _ =>
    intro newline
    rw [headKindCons] at newline
    rw [newline] at binds
    cases binds

theorem suffixesStart {suffixes : List Suffix} {used : List Token} (reads : Reads (.suffixes suffixes) used rest) :
    headKind used ≠ .newline := by
  cases reads with
  | noSuffix => decide
  | name mark _ _ => rw [headKindCons, mark]; decide
  | index opening _ _ _ => rw [headKindCons, opening]; decide
  | call opening _ _ => rw [headKindCons, opening]; decide

theorem groupAhead {c : Token} {used : List Token} (nests : Token.Nests [] used []) (closing : c.kind = .rparen) :
    arrowAhead 0 (used ++ c :: rest) = false ↔ headKind rest ≠ .arrow := by
  have ahead : arrowAhead 0 (used ++ c :: rest) = arrowAhead 0 (c :: rest) := nestsAhead nests 0 (c :: rest)
  rw [ahead]
  cases rest with
  | nil => simp [arrowAhead, closing, headKind]
  | cons t rest => simp [arrowAhead, closing, headKindCons]

/- By induction on what is read. Only the body of a function can start with a newline where nothing is open, and it
needs none. -/
theorem readsEnclosed {p : Phrase} {used rest : List Token} (reads : Reads p used rest) :
    ∀ {o o' : List Bracket}, p.Leaves o o' →
      ∃ used', Encloses o used used' o' ∧ ∀ rest', p.Follows rest rest' → Reads p used' rest' := by
  induction reads with
  | single _ stop ih =>
    intro o o' leaves
    obtain ⟨a, inside, again⟩ := ih leaves
    exact ⟨a, inside, fun rest' follows => .single (again rest' follows) (followsNot follows stop (by decide))⟩
  | choice mark colon _ _ _ cond left right =>
    intro o o' leaves
    cases leaves
    obtain ⟨a, first, again⟩ := cond rfl
    obtain ⟨b, second, again'⟩ := left rfl
    obtain ⟨d, third, again''⟩ := right rfl
    refine ⟨_, first.append (.mark mark rfl (second.append (.mark colon rfl third))), fun rest' follows => ?_⟩
    exact .choice mark colon (again _ (Or.inl rfl)) (again' _ (Or.inl rfl)) (again'' _ follows)
  | chain _ links first more =>
    intro o o' leaves
    cases leaves
    obtain ⟨a, front, again⟩ := first rfl
    obtain ⟨b, back, again'⟩ := more rfl
    refine ⟨_, front.append back, fun rest' follows => ?_⟩
    exact .chain (again _ (followsPart back (linksStart links) follows)) (again' _ follows)
  | noLink stop =>
    intro o o' leaves
    cases leaves
    exact ⟨[], .done, fun rest' follows => .noLink (followsNoLink follows stop)⟩
  | link binds _ links right more =>
    intro o o' leaves
    cases leaves
    obtain ⟨a, front, again⟩ := right rfl
    obtain ⟨b, back, again'⟩ := more rfl
    refine ⟨_, .other (precedenceFree binds) (fun newline => ?_) (front.append back), fun rest' follows => ?_⟩
    · rw [newline] at binds
      cases binds
    · exact .link binds (again _ (followsPart back (linksStart links) follows)) (again' _ follows)
  | sign mark _ inner =>
    intro o o' leaves
    cases leaves
    obtain ⟨a, inside, again⟩ := inner rfl
    exact ⟨_, .sign mark inside, fun rest' follows => .sign mark (again _ follows)⟩
  | suffixed _ suffixes target more =>
    intro o o' leaves
    cases leaves
    obtain ⟨a, front, again⟩ := target rfl
    obtain ⟨b, back, again'⟩ := more rfl
    refine ⟨_, front.append back, fun rest' follows => ?_⟩
    exact .suffixed (again _ (followsPart back (suffixesStart suffixes) follows)) (again' _ follows)
  | noSuffix dot bracket paren =>
    intro o o' leaves
    cases leaves
    refine ⟨[], .done, fun rest' follows => ?_⟩
    exact .noSuffix (followsNot follows dot (by decide)) (followsNot follows bracket (by decide))
      (followsNot follows paren (by decide))
  | name mark word _ more =>
    intro o o' leaves
    cases leaves
    obtain ⟨a, inside, again⟩ := more rfl
    exact ⟨_, .mark mark rfl (.mark word rfl inside), fun rest' follows => .name mark word (again _ follows)⟩
  | index opening closing _ _ inner more =>
    intro o o' leaves
    cases leaves
    obtain ⟨a, key, again⟩ := inner rfl
    obtain ⟨b, back, again'⟩ := more rfl
    refine ⟨_, .opens .square opening (key.append (.closes .square closing back)), fun rest' follows => ?_⟩
    exact .index opening closing (again _ (Or.inl rfl)) (again' _ follows)
  | call opening _ suffixes inner more =>
    intro o o' leaves
    cases leaves
    obtain ⟨a, args, again⟩ := inner ⟨.paren, rfl, rfl⟩
    obtain ⟨b, back, again'⟩ := more rfl
    refine ⟨_, .opens .paren opening (args.append back), fun rest' follows => ?_⟩
    exact .call opening (again _ (followsPart back (suffixesStart suffixes) follows)) (again' _ follows)
  | number kind value =>
    intro o o' leaves
    cases leaves
    exact ⟨_, .mark kind rfl .done, fun rest' _ => .number kind ((numberOk value).2 rest')⟩
  | string kind =>
    intro o o' leaves
    cases leaves
    exact ⟨_, .mark kind rfl .done, fun _ _ => .string kind⟩
  | truth kind =>
    intro o o' leaves
    cases leaves
    exact ⟨_, .mark kind rfl .done, fun _ _ => .truth kind⟩
  | falsity kind =>
    intro o o' leaves
    cases leaves
    exact ⟨_, .mark kind rfl .done, fun _ _ => .falsity kind⟩
  | null kind =>
    intro o o' leaves
    cases leaves
    exact ⟨_, .mark kind rfl .done, fun _ _ => .null kind⟩
  | ident kind stop =>
    intro o o' leaves
    cases leaves
    exact ⟨_, .mark kind rfl .done, fun _ follows => .ident kind (followsNot follows stop (by decide))⟩
  | arrowOfName kind mark _ inner =>
    intro o o' leaves
    cases leaves
    obtain ⟨a, body, again⟩ := inner rfl
    exact ⟨_, .mark kind rfl (.mark mark rfl body), fun rest' follows => .arrowOfName kind mark (again _ follows)⟩
  | @arrowOfNames _ arrow _ _ _ _ _ opening mark _ _ _ params inner =>
    intro o o' leaves
    cases leaves
    obtain ⟨a, names, again⟩ := params rfl
    obtain ⟨b, body, again'⟩ := inner rfl
    refine ⟨_, .opens .paren opening (names.append (.mark mark rfl body)), fun rest' follows => ?_⟩
    have read := again (arrow :: (b ++ rest')) trivial
    exact .arrowOfNames opening mark (namesThenArrowAhead (readNamesThenArrow read mark)) read (again' _ follows)
  | @group _ c _ _ _ opening closing ahead whole inner =>
    intro o o' leaves
    cases leaves
    obtain ⟨a, group, again⟩ := inner rfl
    refine ⟨_, .opens .paren opening (group.append (.closes .paren closing .done)), fun rest' follows => ?_⟩
    have noArrow := (groupAhead (readsNests whole rfl) closing).mp ahead
    have read := again (c :: rest') (Or.inl rfl)
    have ahead' := (groupAhead (readsNests read rfl) closing).mpr (followsNot follows noArrow (by decide))
    exact .group opening closing ahead' read
  | array opening _ inner =>
    intro o o' leaves
    cases leaves
    obtain ⟨a, items, again⟩ := inner ⟨.square, rfl, rfl⟩
    exact ⟨_, .opens .square opening items, fun rest' follows => .array opening (again _ follows)⟩
  | object opening skipped _ inner =>
    intro o o' leaves
    cases leaves
    obtain ⟨a, entries, again⟩ := inner rfl
    exact ⟨_, .opens .brace opening (entries.kept (by simp) skipped),
      fun rest' follows => .object opening skipped (again _ follows)⟩
  | noItem close =>
    intro o o' leaves
    obtain ⟨b, rfl, rfl⟩ := leaves
    exact ⟨_, .closes b close .done, fun _ _ => .noItem close⟩
  | lastItem close _ item =>
    intro o o' leaves
    obtain ⟨b, rfl, rfl⟩ := leaves
    obtain ⟨a, inside, again⟩ := item rfl
    exact ⟨_, inside.append (.closes b close .done), fun rest' _ => .lastItem close (again _ (Or.inl rfl))⟩
  | item comma _ _ item more =>
    intro o o' leaves
    obtain ⟨a, front, again⟩ := item rfl
    obtain ⟨b, back, again'⟩ := more leaves
    exact ⟨_, front.append (.mark comma rfl back),
      fun rest' follows => .item comma (again _ (Or.inl rfl)) (again' _ follows)⟩
  | noName close =>
    intro o o' leaves
    cases leaves
    exact ⟨_, .closes .paren close .done, fun _ _ => .noName close⟩
  | lastName close word =>
    intro o o' leaves
    cases leaves
    exact ⟨_, .mark word rfl (.closes .paren close .done), fun _ _ => .lastName close word⟩
  | oneName comma word _ more =>
    intro o o' leaves
    cases leaves
    obtain ⟨a, names, again⟩ := more rfl
    exact ⟨_, .mark word rfl (.mark comma rfl names), fun rest' _ => .oneName comma word (again rest' trivial)⟩
  | blockBody skipped _ inner =>
    intro o o' leaves
    cases leaves
    obtain ⟨a, block, again⟩ := inner rfl
    obtain ⟨left, all, inside⟩ := block.newlines skipped
    exact ⟨_, inside, fun rest' follows => .blockBody all (again _ follows)⟩
  | expressionBody skipped start whole inner =>
    intro o o' leaves
    cases leaves
    obtain ⟨a, value, again⟩ := inner rfl
    obtain ⟨left, all, inside⟩ := value.newlines skipped
    obtain ⟨t, more, rfl, starts, _⟩ := readsStarts whole
    obtain ⟨more', rfl, _⟩ := value.uncons fun newline => by
      rw [newline] at starts
      cases starts
    exact ⟨_, inside, fun rest' follows => .expressionBody all start (again _ follows)⟩
  | block opening skipped _ inner =>
    intro o o' leaves
    cases leaves
    obtain ⟨a, statements, again⟩ := inner rfl
    exact ⟨_, .opens .brace opening (statements.kept (by simp) skipped),
      fun rest' follows => .block opening skipped (again _ follows)⟩
  | noStatement close =>
    intro o o' leaves
    cases leaves
    exact ⟨_, .closes .brace close .done, fun _ _ => .noStatement close⟩
  | lastStatement close _ item =>
    intro o o' leaves
    cases leaves
    obtain ⟨a, inside, again⟩ := item rfl
    exact ⟨_, inside.append (.closes .brace close .done), fun _ _ => .lastStatement close (again _ (Or.inl rfl))⟩
  | oneStatement newline skipped _ _ item more =>
    intro o o' leaves
    cases leaves
    obtain ⟨a, front, again⟩ := item rfl
    obtain ⟨b, back, again'⟩ := more rfl
    have lines : Newlines (_ :: _) := List.forall_mem_cons.mpr ⟨newline, skipped⟩
    exact ⟨_, front.append (back.kept (by simp) lines),
      fun rest' follows => .oneStatement newline skipped (again _ (Or.inl rfl)) (again' _ follows)⟩
  | assignment word mark _ value =>
    intro o o' leaves
    cases leaves
    obtain ⟨a, inside, again⟩ := value rfl
    exact ⟨_, .mark word rfl (.mark mark rfl inside), fun rest' follows => .assignment word mark (again _ follows)⟩
  | expression _ value =>
    intro o o' leaves
    obtain ⟨a, inside, again⟩ := value leaves
    exact ⟨a, inside, fun rest' follows => .expression (again _ follows)⟩
  | noEntry close =>
    intro o o' leaves
    cases leaves
    exact ⟨_, .closes .brace close .done, fun _ _ => .noEntry close⟩
  | @lastEntry c newlines x a rest close skipped _ item =>
    intro o o' leaves
    cases leaves
    obtain ⟨a', inside, again⟩ := item rfl
    have closed : Encloses (.brace :: o') [c] [c] o' := .closes .brace close .done
    refine ⟨_, inside.append (closed.kept (by simp) skipped), fun rest' _ => .lastEntry close skipped (again _ ?_)⟩
    cases newlines <;> exact Or.inl rfl
  | @oneEntry c before after x xs a b rest comma skipped skipped' _ _ item more =>
    intro o o' leaves
    cases leaves
    obtain ⟨a', front, again⟩ := item rfl
    obtain ⟨b', back, again'⟩ := more rfl
    have later : Encloses (.brace :: o') (c :: (after ++ b)) (c :: (after ++ b')) o' :=
      .mark comma rfl (back.kept (by simp) skipped')
    refine ⟨_, front.append (later.kept (by simp) skipped), fun rest' follows => ?_⟩
    refine .oneEntry comma skipped skipped' (again _ ?_) (again' _ follows)
    cases before <;> exact Or.inl rfl
  | method word opening skipped _ _ params inner =>
    intro o o' leaves
    cases leaves
    obtain ⟨a, names, again⟩ := params rfl
    obtain ⟨b, block, again'⟩ := inner rfl
    obtain ⟨left, all, back⟩ := block.newlines skipped
    exact ⟨_, .key word (.opens .paren opening (names.append back)),
      fun rest' follows => .method word opening all (again _ trivial) (again' _ follows)⟩
  | plain word mark _ value =>
    intro o o' leaves
    cases leaves
    obtain ⟨a, inside, again⟩ := value rfl
    exact ⟨_, .key word (.mark mark rfl inside), fun rest' follows => .plain word mark (again _ follows)⟩

theorem alikeReads {tree : Node} {tokens tokens' : List Token} (reads : ReadsProgram tree tokens)
    (alike : AllAlike tokens tokens') (body : ∀ t ∈ tokens', t.kind ≠ .eof) :
    ∃ tree', tree.same tree' = true ∧ ReadsProgram tree' tokens' := by
  obtain ⟨depth, found⟩ := programFinds reads
  have answers := programEchoes depth tokens tokens' alike
  rw [found depth (Nat.le_refl depth)] at answers
  generalize read : program depth tokens' = result at answers
  cases answers with
  | ok twin _ => exact ⟨_, twin.same, (programRead body read).2⟩

theorem groupedReads {tree : Node} {body : List Token} (reads : ReadsProgram tree body) :
    ∃ left, Encloses [] body left [] ∧ ∀ o c : Token, o.kind = .lparen → c.kind = .rparen →
      ReadsProgram tree (o :: (left ++ [c])) := by
  obtain ⟨before, used, after, rfl, skipped, skipped', _, inner⟩ := reads
  obtain ⟨left, inside, again⟩ := readsEnclosed inner rfl
  have tail : Encloses [] (after ++ []) [] [] := Encloses.done.dropped skipped'
  rw [List.append_nil] at tail
  have whole := (inside.append tail).dropped skipped
  rw [List.append_nil] at whole
  refine ⟨left, whole, fun o c opening closing => ?_⟩
  have ends : Closes [c] := .cons (by rw [closing]; decide)
  have read := again [c] (Or.inr ends)
  have ahead : arrowAhead 0 (left ++ [c]) = false := (groupAhead (readsNests read rfl) closing).mpr (by decide)
  have group : Reads (.primary tree) (o :: (left ++ [c])) [] := .group opening closing ahead read
  have expression := primaryExpression group (.newlines noNewlines)
  refine ⟨[], _, [], (List.append_nil _).symm, noNewlines, noNewlines, ?_, expression⟩
  exact headNot (expressionHead expression) rfl

theorem groupingIsTransparent {nesting : Nat} {source : String} {tree : Node} (ok : parse nesting source = .ok tree) :
    ∃ stream tree', tokenize (Token.grouped source) = .ok stream ∧ tree.same tree' = true ∧
      (∀ limit, tree.compare limit tree' ≠ some false) ∧
      (∀ depth, ¬ TooDeep depth (Token.grouped source) → parse depth (Token.grouped source) = .ok tree') ∧
      Eventually fun depth => program depth stream.body = .ok (tree', []) := by
  obtain ⟨stream, tokens, _, reads⟩ := parseReads ok
  obtain ⟨left, encloses, again⟩ := groupedReads reads
  obtain ⟨o, c, body, stop, tokens', opening, closing, alike⟩ :=
    Token.groupedTokens tokens encloses (programNests reads)
  have alike' : AllAlike (o :: (left ++ [c])) (o :: (body ++ [c])) :=
    .cons ⟨rfl, rfl, rfl⟩ (List.rel_append alike (.cons ⟨rfl, rfl, rfl⟩ .nil))
  obtain ⟨tree', same, reads'⟩ := alikeReads (again o c opening closing) alike' (tokenizeSound tokens').noEnd
  exact ⟨_, tree', tokens', same, fun _ => Node.compareSame same, foundUnlessDeep tokens' reads',
    programFinds reads'⟩

def loneSource : String := "\n(a, b) =>\n\x7bc = a\n\n b ? \x7bk: c\x7d : [a,\nb]\n\x7d // done"

theorem groupingIsTransparentLone :
    ∃ tree tree', parse 9 loneSource = .ok tree ∧ parse 9 (Token.grouped loneSource) = .ok tree' ∧
      tree.same tree' = true := by
  have accepted : (parse 9 loneSource).toOption.isSome = true := by decide +kernel
  have grouped : (parse 9 (Token.grouped loneSource)).toOption.isSome = true := by decide +kernel
  obtain ⟨tree, ok⟩ := okOfSome accepted
  obtain ⟨_, tree', _, same, _, parsed, _⟩ := groupingIsTransparent ok
  have shallow : ¬ TooDeep 9 (Token.grouped loneSource) := by
    rintro ⟨e, failed, _⟩
    rw [failed] at grouped
    cases grouped
  exact ⟨tree, tree', ok, parsed 9 shallow, same⟩

end Parse

end Scriptlet
