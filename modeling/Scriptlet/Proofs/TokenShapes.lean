import Mathlib.Data.List.Nodup
import Scriptlet.Compile
import Scriptlet.Proofs.Numerals
import Scriptlet.Proofs.WellFormed

/-! What the scanner promises of every token: how its value looks, and that no two tokens share a
place. -/
namespace Scriptlet

def Place.Before (a b : Place) : Prop := a.line < b.line ∨ (a.line = b.line ∧ a.col < b.col)

theorem Place.Before.trans {a b c : Place} (first : a.Before b) (second : b.Before c) : a.Before c := by
  unfold Place.Before at *
  omega

theorem Place.Before.ne {a b : Place} (before : a.Before b) : a ≠ b := by
  rintro rfl
  unfold Place.Before at before
  omega

theorem Position.stepBefore (p : Position) (c : Char) : p.place.Before (p.step c).place := by
  unfold Place.Before step
  dsimp only
  split
  · exact Or.inl (by dsimp only; omega)
  · exact Or.inr ⟨rfl, by dsimp only; omega⟩

theorem Position.afterBefore {text : List Char} (some : text ≠ []) (p : Position) :
    p.place.Before (p.after text).place := by
  induction text generalizing p with
  | nil => exact absurd rfl some
  | cons c rest ih =>
    have head := p.stepBefore c
    cases rest with
    | nil => exact head
    | cons d more => exact head.trans (ih (by simp) (p.step c))

namespace Token

def Unsigned (text : List Char) : Prop :=
  ∃ w : Numeral.Written, w.Valid ∧ w.negative = false ∧ w.exponent = none ∧ text = w.text

def Shaped (value : List Char) : Kind → Prop
  | .number => Unsigned value
  | .ident => Parse.isKey (String.ofList value) = true
  | .string | .trueWord | .falseWord | .nullWord | .newline => True
  | .eof => False
  | kind => (value, kind) ∈ Kind.marks

theorem unsignedWhole {whole : List Char} (plain : Numeral.Plain whole) (some : whole ≠ []) :
    Unsigned whole := by
  refine ⟨⟨false, whole, none, none⟩, ⟨⟨plain, some⟩, by simp, by simp⟩, rfl, rfl, ?_⟩
  simp [Numeral.Written.text, Numeral.Written.signText, Numeral.Written.fractionText,
    Numeral.Written.exponentText]

theorem unsignedFraction {whole fraction : List Char} (plain : Numeral.Plain whole) (some : whole ≠ [])
    (plain' : Numeral.Plain fraction) (some' : fraction ≠ []) : Unsigned (whole ++ '.' :: fraction) := by
  refine ⟨⟨false, whole, fraction, none⟩, ⟨⟨plain, some⟩, ?_, by simp⟩, rfl, rfl, ?_⟩
  · rintro digits ⟨⟩
    exact ⟨plain', some'⟩
  · simp [Numeral.Written.text, Numeral.Written.signText, Numeral.Written.fractionText,
      Numeral.Written.exponentText]

theorem splitNumberUnsigned {c : Char} (digit : c.isDigit = true) (rest : List Char) :
    Unsigned (splitNumber (c :: rest)).1 := by
  have plain : ∀ text : List Char, Numeral.Plain (text.takeWhile Char.isDigit) := by
    intro text
    exact List.all_eq_true.mp List.all_takeWhile
  have whole : (c :: rest).takeWhile Char.isDigit ≠ [] := by simp [digit]
  unfold splitNumber
  split
  · split
    · rename_i digit'
      exact unsignedFraction (plain _) whole (plain _) (by simp [digit'])
    · exact unsignedWhole (plain _) whole
  · exact unsignedWhole (plain _) whole

theorem isWordPartOfStart {c : Char} (start : isWordStart c = true) : isWordPart c = true := by
  simp only [isWordStart, isWordPart, Char.isAlphanum, Bool.or_eq_true] at start ⊢
  rcases start with alpha | under
  · exact Or.inl (Or.inl alpha)
  · exact Or.inr under

theorem wordShaped {c : Char} (start : isWordStart c = true) (rest : List Char) :
    Shaped ((c :: rest).takeWhile isWordPart) (Kind.ofWord ((c :: rest).takeWhile isWordPart)) := by
  rw [List.takeWhile_cons_of_pos (isWordPartOfStart start)]
  generalize parts : rest.takeWhile isWordPart = more
  have all : more.all isWordPart = true := by
    rw [← parts]
    exact List.all_takeWhile
  by_cases ident : Kind.ofWord (c :: more) = .ident
  · rw [ident]
    simp [Shaped, Parse.isKey, start, all, ident]
  · have keyword : Kind.ofWord (c :: more) = .trueWord ∨ Kind.ofWord (c :: more) = .falseWord ∨
        Kind.ofWord (c :: more) = .nullWord := by
      revert ident
      unfold Kind.ofWord Kind.keywords
      simp only [List.lookup_cons, List.lookup_nil]
      split
      · exact fun _ => Or.inl rfl
      · split
        · exact fun _ => Or.inr (Or.inl rfl)
        · split
          · exact fun _ => Or.inr (Or.inr rfl)
          · exact fun ident => absurd rfl ident
    rcases keyword with same | same | same
    · rw [same]
      trivial
    · rw [same]
      trivial
    · rw [same]
      trivial

theorem markShaped {raw : List Char} {kind : Kind} (mark : (raw, kind) ∈ Kind.marks) : Shaped raw kind := by
  have table : ∀ entry ∈ Kind.marks, entry.2 ≠ .number ∧ entry.2 ≠ .ident ∧ entry.2 ≠ .eof := by decide
  obtain ⟨number, ident, eof⟩ := table _ mark
  cases kind with
  | number => exact absurd rfl number
  | ident => exact absurd rfl ident
  | eof => exact absurd rfl eof
  | string | trueWord | falseWord | nullWord | newline => trivial
  | _ => exact mark

theorem lexemeShaped {c : Char} {rest : List Char} {l : Lexeme} (ok : lexeme c rest = .ok l) :
    Shaped l.value l.kind := by
  unfold lexeme at ok
  split at ok
  · rename_i digit
    cases ok
    exact splitNumberUnsigned digit rest
  · split at ok
    · cases tail : splitString c (c :: rest) rest with
      | error blame => simp [tail, bind, Except.bind] at ok
      | ok found =>
        simp only [tail, bind, Except.bind, Except.ok.injEq] at ok
        subst ok
        trivial
    · split at ok
      · rename_i start
        cases ok
        exact wordShaped start rest
      · split at ok
        · rename_i raw kind found
          cases ok
          exact markShaped (List.mem_of_find?_eq_some found)
        · cases ok

namespace Scanner

theorem stepSkipped {s s' : Scanner} (skipped : s.step = .skipped s') :
    s.position.place.Before s'.position.place := by
  unfold step at skipped
  split at skipped
  · cases skipped
  · rename_i c rest _
    split at skipped
    · split at skipped
      · cases skipped
        exact Position.afterBefore (by simp) _
      · cases skipped
    · split at skipped
      · cases skipped
        exact Position.afterBefore (by simp) _
      · split at skipped
        · rename_i line _ comment
          cases skipped
          exact Position.afterBefore (by simp [line]) _
        · split at skipped <;> cases skipped

theorem stepToken {s s' : Scanner} {t : Token} (found : s.step = .token t s') :
    Shaped t.value.toList t.kind ∧ t.place = s.position.place ∧
      s.position.place.Before s'.position.place := by
  unfold step at found
  split at found
  · cases found
  · split at found
    · split at found
      · cases found
      · cases found
        exact ⟨trivial, rfl, Position.afterBefore (by simp) _⟩
    · split at found
      · cases found
      · split at found
        · cases found
        · split at found
          · cases found
          · rename_i l ok
            cases found
            refine ⟨?_, rfl, Position.afterBefore (lexemeAppend ok).2 _⟩
            simpa using lexemeShaped ok

theorem runTokens (s : Scanner) :
    (∀ f ∈ s.run.1, Shaped f.token.value.toList f.token.kind) ∧
      (∀ f ∈ s.run.1, f.token.place = s.position.place ∨ s.position.place.Before f.token.place) ∧
      s.run.1.Pairwise fun f g => f.token.place.Before g.token.place := by
  fun_induction run s with
  | case1 => simp
  | case2 s s' skipped ih =>
    obtain ⟨shaped, from', ordered⟩ := ih
    refine ⟨shaped, fun f member => Or.inr ?_, ordered⟩
    have moved := stepSkipped skipped
    rcases from' f member with same | before
    · exact same ▸ moved
    · exact moved.trans before
  | case3 => simp
  | case4 s t s' found tail ih =>
    obtain ⟨shaped, from', ordered⟩ := ih
    obtain ⟨shape, place, moved⟩ := stepToken found
    have later : ∀ f ∈ tail.1, s.position.place.Before f.token.place := by
      intro f member
      rcases from' f member with same | before
      · exact same ▸ moved
      · exact moved.trans before
    refine ⟨List.forall_mem_cons.mpr ⟨shape, shaped⟩, List.forall_mem_cons.mpr ⟨Or.inl place, ?_⟩, ?_⟩
    · exact fun f member => Or.inr (later f member)
    · refine List.pairwise_cons.mpr ⟨fun f member => ?_, ordered⟩
      dsimp only
      rw [place]
      exact later f member

end Scanner

structure Stream.Sound (stream : Stream) : Prop where
  shaped : ∀ t ∈ stream.body, Shaped t.value.toList t.kind
  places : (stream.body.map Token.place).Nodup
  stop : stream.stop.kind = .eof

theorem scanSound {source : String} {stream : Stream} (ok : scan source = .ok stream) : stream.Sound := by
  unfold scan at ok
  simp only at ok
  split at ok
  · cases ok
    obtain ⟨shaped, _, ordered⟩ := Scanner.runTokens (Scanner.start source.toList)
    refine ⟨?_, ?_, rfl⟩
    · intro t member
      obtain ⟨f, inside, rfl⟩ := List.mem_map.mp member
      exact shaped f inside
    · simp only [List.map_map]
      refine List.pairwise_map.mpr (ordered.imp fun before => ?_)
      exact before.ne
  · cases ok

theorem Stream.Sound.noEnd {stream : Stream} (sound : stream.Sound) : ∀ t ∈ stream.body, t.kind ≠ .eof := by
  intro t member ends
  have shape := sound.shaped t member
  rw [ends] at shape
  exact shape

end Token

theorem tokenizeSound {source : String} {stream : Token.Stream} (ok : tokenize source = .ok stream) :
    stream.Sound := by
  unfold tokenize at ok
  split at ok
  · rename_i found
    cases ok
    exact Token.scanSound found
  · cases ok

theorem Binary64.ofDecimalPositive {n : Nat} {e : Int} (finite : (ofDecimal false n e).isFinite = true) :
    ∃ code, ofDecimal false n e = .finite false code := by
  unfold ofDecimal ofUnits at finite ⊢
  dsimp only at finite ⊢
  split
  · exact ⟨_, rfl⟩
  · rename_i large
    rw [if_neg large] at finite
    split
    · rename_i beyond
      rw [if_pos beyond] at finite
      cases finite
    · rename_i inside
      rw [if_neg inside] at finite
      split
      · exact ⟨_, rfl⟩
      · rename_i beyond
        rw [dif_neg beyond] at finite
        cases finite

namespace Parse

def InRange (t : Token) : Prop :=
  if '.' ∈ t.value.toList then (Numeral.read? t.value.toList).all (·.toBinary.isFinite) = true
  else t.value.length ≤ Numeral.maxDigits

theorem unsignedCases {t : Token} (shaped : Token.Unsigned t.value.toList) :
    (∃ whole, Numeral.Plain whole ∧ t.value.toList = whole ∧
      Numeral.read? t.value.toList = some ⟨false, Numeral.plain whole, none, none⟩) ∨
    ∃ whole fraction, t.value.toList = whole ++ '.' :: fraction ∧
      Numeral.read? t.value.toList = some ⟨false, Numeral.plain whole, some (Numeral.plain fraction), none⟩ := by
  obtain ⟨⟨negative, whole, fraction, exponent⟩, valid, rfl, rfl, text⟩ := shaped
  have read := Numeral.Written.reads valid
  rw [← text] at read
  cases fraction with
  | none =>
    refine Or.inl ⟨whole, valid.whole.1, ?_, read⟩
    simp [text, Numeral.Written.text, Numeral.Written.signText, Numeral.Written.fractionText,
      Numeral.Written.exponentText]
  | some fraction =>
    refine Or.inr ⟨whole, fraction, ?_, read⟩
    simp [text, Numeral.Written.text, Numeral.Written.signText, Numeral.Written.fractionText,
      Numeral.Written.exponentText]

theorem numberWhole {t : Token} {whole : List Char}
    (read : Numeral.read? t.value.toList = some ⟨false, Numeral.plain whole, none, none⟩) (s : List Token) :
    number t s = if Numeral.maxDigits < whole.length then .error ⟨.numeral (.tooLong whole.length), s⟩
      else .ok (.int (Numeral.value (Numeral.plain whole)), s) := by
  have size : (Numeral.plain whole).length = whole.length := by simp [Numeral.plain]
  have isWhole : Numeral.isWhole ⟨false, Numeral.plain whole, none, none⟩ = true := rfl
  unfold number
  simp only [read]
  rw [if_pos isWhole]
  simp only [Numeral.toInt, Numeral.integer, size]
  split
  · rfl
  · rfl

theorem numberFraction {t : Token} {whole fraction : List Nat}
    (read : Numeral.read? t.value.toList = some ⟨false, whole, some fraction, none⟩) (s : List Token) :
    number t s =
      let x := Binary64.ofDecimal false (Numeral.value (whole ++ fraction)) (0 - fraction.length)
      if x.isFinite then .ok (.float x, s) else .error ⟨.outOfRange t, s⟩ := by
  have isPart : ¬ Numeral.isWhole ⟨false, whole, some fraction, none⟩ = true := Bool.false_ne_true
  unfold number
  simp only [read]
  rw [if_neg isPart]
  have value : Numeral.toBinary ⟨false, whole, some fraction, none⟩ =
      Binary64.ofDecimal false (Numeral.value (whole ++ fraction)) (0 - fraction.length) := rfl
  rw [← value]
  by_cases finite : (Numeral.toBinary ⟨false, whole, some fraction, none⟩).isFinite = true
  · rw [if_pos finite, if_pos finite]
    rfl
  · rw [if_neg finite, if_neg finite]
    rfl

theorem numberInRange {t : Token} (shaped : Token.Unsigned t.value.toList) (range : InRange t)
    (s : List Token) : ∃ v, number t s = .ok (v, s) := by
  unfold InRange at range
  rcases unsignedCases shaped with ⟨whole, plain, text, read⟩ | ⟨whole, fraction, text, read⟩
  · have noPoint : '.' ∉ t.value.toList := by
      intro point
      rw [text] at point
      exact absurd (plain _ point) (by decide)
    rw [if_neg noPoint, ← String.length_toList, text] at range
    rw [numberWhole read, if_neg (Nat.not_lt.mpr range)]
    exact ⟨_, rfl⟩
  · have point : '.' ∈ t.value.toList := by simp [text]
    rw [if_pos point, read, Option.all_some] at range
    rw [numberFraction read]
    exact ⟨_, if_pos range⟩

theorem numberUnsigned {t : Token} (shaped : Token.Unsigned t.value.toList) {s rest : List Token}
    {v : SExpr} (ok : number t s = .ok (v, rest)) : Node.IsUnsigned v := by
  rcases unsignedCases shaped with ⟨whole, _, _, read⟩ | ⟨whole, fraction, _, read⟩
  · rw [numberWhole read] at ok
    split at ok
    · cases ok
    · cases ok
      exact .int _
  · rw [numberFraction read] at ok
    dsimp only at ok
    split at ok
    · rename_i finite
      obtain ⟨code, same⟩ := Binary64.ofDecimalPositive finite
      cases ok
      rw [same]
      exact .float code
    · cases ok

end Parse

end Scriptlet
