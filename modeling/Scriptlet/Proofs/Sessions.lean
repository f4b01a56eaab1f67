import Scriptlet.Parse.Session
import Scriptlet.Proofs.Places
import Scriptlet.Proofs.Progress

/-! Sessions stay in order, whatever is asked of them and whether it fails or not. The tokens stay the same and
are read from the front to the end, and a complaint is about the token where the session stands. -/
namespace Scriptlet

theorem Numeral.Error.messageFirst (e : Numeral.Error) : e.message.toList.head? ≠ some 'N' := by
  unfold message
  generalize toString maxDigits = limit
  split <;> simp

namespace Parse
open Token (Kind)

theorem Cause.messageRange {cause : Cause} {found : Token} :
    cause.message found = "Number literal out of range" ↔ ∃ t, cause = .outOfRange t := by
  constructor
  · intro same
    have first : (cause.message found).toList.head? = some 'N' := by simp [same]
    unfold message at first
    split at first
    · split at first <;> simp at first
    · split at first
      · simp at first
      · split at first <;> simp at first
    · simp at first
    · exact ⟨_, rfl⟩
    · exact absurd first (Numeral.Error.messageFirst _)
    · simp at first
    · simp at first
  · rintro ⟨t, rfl⟩
    rfl

theorem Rule.parserForward (rule : Rule) (depth : Nat) : Forward (rule.parser depth) := by
  have forward := (budgetForward depth).1
  cases rule with
  | program => exact programForward depth
  | statement => exact statementForward forward
  | assign => exact assignForward forward
  | block => exact blockForward forward
  | expression => exact forward
  | unary => exact (budgetForward depth).2
  | suffixed => exact suffixedForward forward
  | primary => exact primaryForward forward
  | array => exact arrayForward forward
  | object => exact objectForward forward
  | property => exact propertyForward forward

def Request.parses : Request → Bool
  | .peek _ | .consume _ _ => false
  | _ => true

namespace Session

def after (s : Session) (requests : List (Nat × Request)) : Session :=
  requests.foldl (fun s asked => (s.answer asked.1 asked.2).2) s

structure Stands (s : Session) : Prop where
  ahead : s.rest <:+ s.stream.body
  inside : s.index < s.stream.toList.length
  current : s.stream.toList[s.index]? = some s.current

/- A complaint is about the current token, or about a number right before it. -/
def Reports (s : Session) (e : Parse.Error) : Prop :=
  if e.diagnostic.text = "Number literal out of range" then
    ∃ last, s.index = last + 1 ∧ s.stream.toList[last]? = some e.found
  else e.found = s.current

structure Answers (s : Session) (request : Request) (result : Except Error Reply × Session) : Prop where
  source : result.2.source = s.source
  stream : result.2.stream = s.stream
  stands : result.2.Stands
  onward : s.index ≤ result.2.index
  proceeds : request.parses = true → result.1.isOk = true → s.index < result.2.index
  reports : ∀ e, result.1 = .error (.parse e) → result.2.Reports e

theorem indexOfSplit {s : Session} {used : List Token} (split : used ++ s.rest = s.stream.body) :
    s.index = used.length := by
  rw [index, ← split, List.length_append, Nat.add_sub_cancel]

theorem standsOfAhead {s : Session} (ahead : s.rest <:+ s.stream.body) : s.Stands := by
  obtain ⟨used, split⟩ := ahead
  have tokens : s.stream.toList = used ++ (s.rest ++ [s.stream.stop]) := by
    rw [Token.Stream.toList, ← split, List.append_assoc]
  refine ⟨⟨used, split⟩, ?_, ?_⟩
  · rw [indexOfSplit split, tokens, List.length_append, List.length_append]
    exact Nat.lt_add_of_pos_right (Nat.succ_pos _)
  · rw [indexOfSplit split, tokens, List.getElem?_append_right (Nat.le_refl _), Nat.sub_self, current]
    cases s.rest <;> rfl

theorem reportsOfBlames {s : Session} (stands : s.Stands) {f : Failure} (blames : Blames s.rest f) :
    Reports { s with rest := f.rest } (f.toError s.source s.stream.stop) := by
  unfold Reports
  split
  · rename_i text
    obtain ⟨found, range⟩ := Cause.messageRange.mp text
    have range : f.cause = .outOfRange found := range
    obtain ⟨before, t, read, _, failed⟩ := blames.number (by rw [range]; exact .outOfRange found)
    obtain ⟨used, split⟩ := stands.ahead
    have split : (used ++ before ++ [t]) ++ f.rest = s.stream.body := by
      rw [← split, read]
      simp
    refine ⟨(used ++ before).length, ?_, ?_⟩
    · rw [indexOfSplit split, List.length_append, List.length_singleton]
    · have same : f.found s.stream.stop = t := by
        rw [Failure.found, range]
        exact numberBlame failed range
      show (s.stream.body ++ [s.stream.stop])[(used ++ before).length]? = some (f.found s.stream.stop)
      rw [← split, same]
      simp
  · rename_i text
    show f.found s.stream.stop = f.rest.head?.getD s.stream.stop
    unfold Failure.found
    split
    · rename_i found range
      exact absurd (Cause.messageRange.mpr ⟨found, range⟩) text
    · rfl

section Steps
variable {s : Session} (stands : s.Stands)
include stands

theorem runAnswers {α : Type} {p : Parser α} (forward : Forward p) (reply : α → Reply) (request : Request) :
    s.Answers request (s.run p reply) := by
  have size := stands.ahead.length_le
  unfold run
  cases read : p s.rest with
  | ok found =>
    obtain ⟨a, rest⟩ := found
    have shorter := forward.proceeds s.rest a rest read
    have further : s.index < index { s with rest := rest } := by
      unfold index
      show _ < s.stream.body.length - rest.length
      omega
    refine ⟨rfl, rfl, standsOfAhead ?_, Nat.le_of_lt further, fun _ _ => further, fun e no => by cases no⟩
    exact ((forward.tidy s.rest).ok a rest read).trans stands.ahead
  | error f =>
    have blames := (forward.tidy s.rest).error f read
    refine ⟨rfl, rfl, standsOfAhead (blames.left.trans stands.ahead), ?_, fun _ no => (nomatch no), ?_⟩
    · exact Nat.sub_le_sub_left blames.left.length_le _
    · intro e same
      cases same
      exact reportsOfBlames stands blames

theorem stayAnswers {request : Request} (single : request.parses = false) {reply : Except Error Reply}
    (plain : ∀ e, reply ≠ .error (.parse e)) : s.Answers request (reply, s) :=
  ⟨rfl, rfl, stands, Nat.le_refl _, fun parses => absurd (single.symm.trans parses) Bool.false_ne_true,
    fun e same => absurd same (plain e)⟩

theorem answerAnswers (depth : Nat) (request : Request) : s.Answers request (s.answer depth request) := by
  have forward := (budgetForward depth).1
  cases request with
  | peek distance =>
    rw [answer]
    cases s.tokenAt? distance with
    | some token => exact stayAnswers stands rfl fun e no => by cases no
    | none => exact stayAnswers stands rfl fun e no => by cases no
  | consume kind what =>
    rw [answer]
    split
    · exact stayAnswers stands rfl fun e no => by cases no
    · exact runAnswers stands (expectAsForward _ _) _ _
  | params => exact runAnswers stands paramsForward _ _
  | callArgs => exact runAnswers stands (callArgsForward forward) _ _
  | chain least => exact runAnswers stands (chainForward (budgetForward depth).2 least) _ _
  | arrow params => exact runAnswers stands (arrowForward forward params _) _ _
  | node rule => exact runAnswers stands (rule.parserForward depth) _ _

end Steps

theorem afterStands {s : Session} (stands : s.Stands) (requests : List (Nat × Request)) :
    (s.after requests).Stands ∧ (s.after requests).stream = s.stream ∧ s.index ≤ (s.after requests).index := by
  induction requests generalizing s with
  | nil => exact ⟨stands, rfl, Nat.le_refl _⟩
  | cons asked more ih =>
    have answers := answerAnswers stands asked.1 asked.2
    obtain ⟨later, stream, onward⟩ := ih answers.stands
    exact ⟨later, stream.trans answers.stream, Nat.le_trans answers.onward onward⟩

theorem afterAppend (s : Session) (before more : List (Nat × Request)) :
    s.after (before ++ more) = (s.after before).after more := List.foldl_append

theorem answerAllAt (s : Session) (before : List (Nat × Request)) (depth : Nat) (request : Request)
    (more : List (Nat × Request)) :
    (s.answerAll (before ++ (depth, request) :: more))[before.length]? =
      some ((s.after before).answer depth request) := by
  induction before generalizing s with
  | nil => rfl
  | cons first before ih => exact ih (s.answer first.1 first.2).2

/- What holds of a session all along. The requests before an answer are any requests at all, with any
budgets, and any of them may have failed. -/
structure InOrder (s : Session) : Prop where
  stands : s.Stands
  first : s.index = 0
  told : ∀ before depth request more,
    (s.answerAll (before ++ (depth, request) :: more))[before.length]? =
      some ((s.after before).answer depth request)
  answers : ∀ before depth request,
    (s.after before).Answers request ((s.after before).answer depth request)
  stream : ∀ before, (s.after before).stream = s.stream
  onward : ∀ before more, (s.after before).index ≤ (s.after (before ++ more)).index

theorem staysInOrder {source : String} {stream : Token.Stream} (scanned : Token.scan source = .ok stream) :
    ∃ s, start source = .ok s ∧ s.stream = stream ∧ s.InOrder ∧ ∀ depth, LoopsUnstuck depth := by
  have started : start source = .ok ⟨source, stream, stream.body⟩ := exceptBindOk.mpr ⟨stream, scanned, rfl⟩
  have stands : Stands ⟨source, stream, stream.body⟩ := standsOfAhead (List.suffix_refl _)
  have order : InOrder ⟨source, stream, stream.body⟩ := by
    refine ⟨stands, Nat.sub_self _, answerAllAt _, fun before depth request => ?_,
      fun before => ?_, fun before more => ?_⟩
    · exact answerAnswers (afterStands stands before).1 depth request
    · exact (afterStands stands before).2.1
    · rw [afterAppend]
      exact (afterStands (afterStands stands before).1 more).2.2
  exact ⟨_, started, rfl, order, loopsUnstuck⟩

theorem staysInOrderCall : ∃ stream s, Token.scan "f(1, [y]) z" = .ok stream ∧
    start "f(1, [y]) z" = .ok s ∧ s.InOrder ∧
    (s.after [(0, .consume .ident ""), (9, .callArgs)]).index = 8 ∧
    ((s.after [(0, .consume .ident ""), (9, .callArgs)]).answer 9 (.node .array)).1.isOk = false := by
  obtain ⟨s, started, found⟩ : ∃ s, start "f(1, [y]) z" = .ok s ∧
      decide ((s.after [(0, .consume .ident ""), (9, .callArgs)]).index = 8 ∧
        ((s.after [(0, .consume .ident ""), (9, .callArgs)]).answer 9 (.node .array)).1.isOk = false) = true :=
    okOfAny (by decide +kernel)
  obtain ⟨stream, scanned, _⟩ := exceptBindOk.mp started
  obtain ⟨s', started', _, order, _⟩ := staysInOrder scanned
  cases Except.ok.inj (started.symm.trans started')
  exact ⟨stream, s, scanned, started, order, of_decide_eq_true found⟩

end Session

end Parse

end Scriptlet
