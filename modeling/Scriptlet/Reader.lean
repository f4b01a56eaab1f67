/-! Reading a list from the front. A reader fails, or gives a value and the items that it left. -/
namespace Scriptlet

def Reader (σ ε α : Type) : Type := List σ → Except ε (α × List σ)

namespace Reader

variable {σ ε α β : Type}

protected def pure (a : α) : Reader σ ε α := fun s => .ok (a, s)

protected def bind (p : Reader σ ε α) (f : α → Reader σ ε β) : Reader σ ε β := fun s =>
  match p s with
  | .ok (a, rest) => f a rest
  | .error e => .error e

instance : Monad (Reader σ ε) where
  pure := Reader.pure
  bind := Reader.bind

theorem bindOk {p : Reader σ ε α} {f : α → Reader σ ε β} {s rest : List σ} {b : β} :
    (p >>= f) s = .ok (b, rest) ↔ ∃ a middle, p s = .ok (a, middle) ∧ f a middle = .ok (b, rest) := by
  show Reader.bind p f s = _ ↔ _
  unfold Reader.bind
  cases h : p s with
  | error e => simp
  | ok found =>
    obtain ⟨a, middle⟩ := found
    simp [and_assoc]

theorem bindError {p : Reader σ ε α} {f : α → Reader σ ε β} {s : List σ} {e : ε} :
    (p >>= f) s = .error e ↔
      p s = .error e ∨ ∃ a middle, p s = .ok (a, middle) ∧ f a middle = .error e := by
  show Reader.bind p f s = _ ↔ _
  unfold Reader.bind
  cases h : p s with
  | error e => simp
  | ok found =>
    obtain ⟨a, middle⟩ := found
    simp [and_assoc]

def fail (error : List σ → ε) : Reader σ ε α := fun s => .error (error s)

def peek : Reader σ ε (Option σ) := fun s => .ok (s.head?, s)

def ahead : Reader σ ε (List σ) := fun s => .ok (s, s)

def drop : Reader σ ε Unit := fun s => .ok ((), s.tail)

def dropWhile (test : σ → Bool) : Reader σ ε Unit := fun s => .ok ((), s.dropWhile test)

/-- How one turn of a repetition ends: with nothing, with the last value, or with a value that may
have more after it. -/
inductive Turn (α : Type) where
  | stop
  | last (a : α)
  | more (a : α)
  deriving DecidableEq, Repr

/-- Takes turns until one says that it was the last. A turn that reads nothing is the last one too. -/
def collectFrom (turn : Reader σ ε (Turn α)) (s : List σ) : Except ε (List α × List σ) :=
  match turn s with
  | .error e => .error e
  | .ok (.stop, rest) => .ok ([], rest)
  | .ok (.last a, rest) => .ok ([a], rest)
  | .ok (.more a, rest) =>
    if rest.length < s.length then
      match collectFrom turn rest with
      | .error e => .error e
      | .ok (more, final) => .ok (a :: more, final)
    else .ok ([a], rest)
termination_by s.length

def collect (turn : Reader σ ε (Turn α)) : Reader σ ε (List α) := fun s => collectFrom turn s

end Reader

end Scriptlet
