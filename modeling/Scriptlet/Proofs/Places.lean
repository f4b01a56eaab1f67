import Mathlib.Data.List.Induction
import Scriptlet.Proofs.ParserBlame
import Scriptlet.Proofs.ScannerPaths

/-! Two ways to find a line and a column: a scan counts them on its way, and a diagnostic counts them in
the text before an offset. They agree in every state of a scan and for every token. -/
namespace Scriptlet

def Place.ending (text : List Char) : Place :=
  ⟨Int.ofNat (text.count '\n') + 1, Int.ofNat (text.reverse.takeWhile (· ≠ '\n')).length + 1⟩

theorem Place.ofOffsetAppend (used rest : List Char) :
    Place.ofOffset (used ++ rest) used.length = Place.ending used := by
  unfold Place.ofOffset Place.ending
  simp only [Int.toNat_natCast, List.take_left]

theorem Position.afterPlace (text : List Char) : (start.after text).place = Place.ending text := by
  induction text using List.reverseRecOn with
  | nil => rfl
  | append_singleton text c ih =>
    have last : start.after (text ++ [c]) = (start.after text).step c := afterAppend start text [c]
    rw [last, step, ih, Place.ending, Place.ending]
    by_cases line : c = '\n'
    · subst line
      simp [List.count_append]
    · simp [line, List.count_append]

namespace Token

def Located (source : List Char) (p : Position) : Prop := p.place = Place.ofOffset source p.offset

theorem locatedAfter (used rest : List Char) : Located (used ++ rest) (Position.start.after used) := by
  have offset : (Position.start.after used).offset = used.length := by
    rw [Position.afterOffset, Position.start, Nat.zero_add]
  rw [Located, offset, Place.ofOffsetAppend, Position.afterPlace]

namespace Scanner

theorem Path.split {source : List Char} {tokens : List Token} {s : Scanner}
    (path : Path (start source) tokens s) :
    ∃ used, source = used ++ s.rest ∧ s.position = Position.start.after used := by
  obtain ⟨used, consumed⟩ := path.consumes
  exact ⟨used, consumed.text, consumed.position⟩

/- Some of the text that is left may have been read already, in the middle of a step. -/
theorem Path.located {source : List Char} {tokens : List Token} {s : Scanner}
    (path : Path (start source) tokens s) (n : Nat) : Located source (s.position.after (s.rest.take n)) := by
  obtain ⟨used, text, position⟩ := path.split
  have split : source = (used ++ s.rest.take n) ++ s.rest.drop n := by
    rw [List.append_assoc, List.take_append_drop]
    exact text
  rw [position, ← Position.afterAppend, split]
  exact locatedAfter _ _

theorem Path.locatedHere {source : List Char} {tokens : List Token} {s : Scanner}
    (path : Path (start source) tokens s) : Located source s.position := path.located 0

theorem runLocated {source : List Char} {f : Found} (member : f ∈ (start source).run.1) :
    f.token.place = Place.ofOffset source f.token.offset := by
  obtain ⟨tokens, s, s', path, found⟩ := runPath member
  obtain ⟨_, _, offset, place⟩ := tokenConsumes found
  rw [offset, place]
  exact path.locatedHere

end Scanner

theorem streamLocated {source : String} {stream : Stream} (ok : tokenize source = .ok stream) :
    ∀ t ∈ stream.toList, t.place = Place.ofOffset source.toList t.offset := by
  obtain ⟨final, ends, rfl⟩ := tokenizeIff.mp ok
  intro t member
  rcases List.mem_append.mp member with inside | last
  · obtain ⟨f, found, rfl⟩ := List.mem_map.mp inside
    exact Scanner.runLocated found
  · rw [List.mem_singleton.mp last]
    exact (Scanner.runEnds ends).1.locatedHere

end Token

namespace Parse

theorem numberBlame {t : Token} {s : List Token} {f : Failure} (failed : number t s = .error f) {found : Token}
    (range : f.cause = .outOfRange found) : found = t := by
  unfold number at failed
  cases read : Numeral.read? t.value.toList with
  | none =>
    simp only [read] at failed
    cases failed
    cases range
  | some n =>
    simp only [read] at failed
    split at failed
    · cases value : n.toInt with
      | ok k =>
        simp only [value] at failed
        cases failed
      | error e =>
        simp only [value] at failed
        cases failed
        cases range
    · split at failed
      · cases failed
      · cases failed
        cases range
        rfl

theorem Blames.found {body : List Token} {f : Failure} (blames : Blames body f) (stop : Token) :
    f.found stop ∈ body ++ [stop] := by
  unfold Failure.found
  split
  · rename_i t range
    have ofNumber : f.cause.OfNumber := by
      rw [range]
      exact .outOfRange t
    obtain ⟨before, t', rfl, _, failed⟩ := blames.number ofNumber
    rw [numberBlame failed range]
    simp
  · cases rest : f.rest with
    | nil => simp
    | cons t more =>
      have inside : t ∈ body := blames.left.subset (by simp [rest])
      simp [inside]

theorem parseFails {depth : Nat} {source : String} {e : Error}
    (failed : parse depth source = .error (.parse e)) :
    ∃ stream f, tokenize source = .ok stream ∧ program depth stream.body = .error f ∧
      e = f.toError source stream.stop := by
  rcases exceptBindError.mp failed with early | ⟨stream, tokens, late⟩
  · unfold tokenize at early
    split at early
    · cases early
    · cases early
  · unfold Token.Stream.parse at late
    split at late
    · cases late
    · rename_i f found
      cases late
      exact ⟨stream, f, tokens, found, rfl⟩

theorem parseBlames {depth : Nat} {source : String} {e : Error}
    (failed : parse depth source = .error (.parse e)) :
    ∃ stream, tokenize source = .ok stream ∧ e.found ∈ stream.toList ∧ e.source = source := by
  obtain ⟨stream, f, tokens, found, rfl⟩ := parseFails failed
  exact ⟨stream, tokens, (programBlames found).1.found stream.stop, rfl⟩

theorem placesAgree (source : String) :
    (∀ tokens s, Token.Scanner.Path (Token.Scanner.start source.toList) tokens s →
      ∀ n, Token.Located source.toList (s.position.after (s.rest.take n))) ∧
    (∀ f ∈ (Token.Scanner.start source.toList).run.1,
      f.token.place = Place.ofOffset source.toList f.token.offset) ∧
    (∀ stream, tokenize source = .ok stream →
      ∀ t ∈ stream.toList, t.place = Place.ofOffset source.toList t.offset) ∧
    ∀ depth e, parse depth source = .error (.parse e) → e.diagnostic.place = e.found.place := by
  refine ⟨fun tokens s path n => path.located n, fun f member => Token.Scanner.runLocated member,
    fun stream ok => Token.streamLocated ok, fun depth e failed => ?_⟩
  obtain ⟨stream, tokens, found, same⟩ := parseBlames failed
  rw [Token.streamLocated tokens e.found found, ← same]
  rfl

def brokenCall : String := "f(1,\n // two\n 2]"

def complaint? (depth : Nat) (source : String) : Option Error :=
  match parse depth source with
  | .error (.parse e) => some e
  | _ => none

theorem placesAgreeBrokenCall : ∃ e, parse 9 brokenCall = .error (.parse e) ∧ e.found.place = ⟨3, 3⟩ ∧
    e.diagnostic.place = e.found.place := by
  have found : (complaint? 9 brokenCall).map (·.found.place) = some ⟨3, 3⟩ := by decide +kernel
  unfold complaint? at found
  split at found
  · rename_i e failed
    exact ⟨e, failed, by simpa using found, (placesAgree brokenCall).2.2.2 9 e failed⟩
  · cases found

end Parse

end Scriptlet
