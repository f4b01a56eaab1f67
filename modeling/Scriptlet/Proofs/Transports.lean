import Scriptlet.Proofs.RoundTrips
import Scriptlet.Proofs.Leaves

/-! Whatever a script compiles to passes through both transports and comes back as it was, unless one of
its strings holds the sentinel. -/
namespace Scriptlet
open Transport

namespace Parse

def Marked (a : SExpr) : Prop := ∃ text, a = .str text ∧ sentinel ∈ text.toList

/- An encoder that refuses nothing that a script brings but strings with a sentinel. -/
def RefusesMarked {β : Type} (f : Nat → SExpr → Except EncodeError β) : Prop :=
  ∀ a, IsCompiled a → ∀ e, f 1 a = .error e ↔ e = .sentinelInString ∧ Marked a

theorem letterNoDecimal {c : Char} (letter : c.isAlpha = true ∨ c = '_') : Text.isDecimal c = false := by
  have table : ∀ first ∈ Text.decimalZeros, first = 0x30 ∨ 0x660 ≤ first := by decide
  have bounds : 0x3a ≤ c.toNat ∧ c.toNat < 0x660 := by
    rcases letter with alpha | rfl
    · obtain ⟨low, high⟩ := Text.letterBounds alpha
      exact ⟨Nat.le_trans (by decide) low, Nat.lt_of_le_of_lt high (by decide)⟩
    · decide
  unfold Text.isDecimal Text.decimalValue?
  rw [Option.isSome_map, Option.isSome_eq_false_iff, Option.isNone_iff_eq_none, List.find?_eq_none]
  intro first member inside
  simp only [Bool.and_eq_true, decide_eq_true_eq] at inside
  rcases table first member with rfl | far <;> omega

theorem nameNoLiteral {name : String} (word : Node.IsName name) : literals.lookup name.toList = none := by
  obtain ⟨noKeyword, _⟩ := word
  rw [Option.eq_none_iff_forall_ne_some]
  intro v found
  generalize name.toList = text at noKeyword found
  cases Wire.literalIff.mp found with
  | truth => exact noKeyword (by decide)
  | falsity => exact noKeyword (by decide)
  | null => exact noKeyword (by decide)

theorem nameNoNumeral {name : String} (word : Node.IsName name) : Numeral.read? name.toList = none := by
  obtain ⟨_, c, rest, same, start, _⟩ := word
  rw [Option.eq_none_iff_forall_ne_some, same]
  intro n read
  rcases (Numeral.readIff.mp read).start with rfl | decimal
  · exact absurd start (by decide)
  · rw [letterNoDecimal start] at decimal
    cases decimal

theorem nameFine {name : String} (word : Node.IsName name) : Wire.symbolFault? name = none := by
  have some : name.toList.isEmpty = false := by
    obtain ⟨_, c, rest, same, _⟩ := word
    rw [same]
    rfl
  have free : name.toList.any isReserved = false := by
    rw [List.any_eq_false]
    intro c member
    rcases nameChars word c member with alphanum | rfl
    · simp [Wire.alphanumFree alphanum]
    · decide
  simp [Wire.symbolFault?, some, nameNoLiteral word, nameNoNumeral word, free]

theorem wordFine : ∀ text ∈ vocabulary, Wire.symbolFault? text = none := by decide

theorem compiledSymbol {name : String} (compiled : IsCompiled (.sym name)) :
    Wire.symbolFault? name = none ∧ name.toList.head? ≠ some sentinel := by
  have table : ∀ text ∈ vocabulary, text.toList.head? ≠ some sentinel := by decide
  cases compiled with
  | leaf leaf _ =>
    cases leaf with
    | number unsigned => cases unsigned
    | name word =>
      refine ⟨nameFine word, fun head => nameNoSentinel word ?_⟩
      exact List.mem_of_mem_head? (Option.mem_def.mpr head)
  | word known => exact ⟨wordFine name known, table name known⟩

theorem taken {β : Type} {b : β} {a : SExpr} (plain : ∀ text, a ≠ .str text) (e : EncodeError) :
    (.ok b : Except EncodeError β) = .error e ↔ e = .sentinelInString ∧ Marked a :=
  ⟨fun same => (nomatch same), fun ⟨_, text, same, _⟩ => absurd same (plain text)⟩

theorem stringRefused {β : Type} {b : β} {text : String} (e : EncodeError) :
    (if text.toList.contains sentinel then .error .sentinelInString else .ok b : Except EncodeError β) =
      .error e ↔ e = .sentinelInString ∧ Marked (.str text) := by
  by_cases holds : sentinel ∈ text.toList
  · rw [if_pos (List.contains_iff_mem.mpr holds)]
    exact ⟨fun same => ⟨(Except.error.inj same).symm, text, rfl, holds⟩, fun both => congrArg _ both.1.symm⟩
  · rw [if_neg (mt List.contains_iff_mem.mp holds)]
    refine ⟨fun same => (nomatch same), fun ⟨_, other, same, inside⟩ => ?_⟩
    cases same
    exact absurd inside holds

theorem wireRefuses : RefusesMarked Wire.chars := by
  intro a compiled e
  cases a with
  | null => exact taken (by simp) e
  | bool b => exact taken (by simp) e
  | int n =>
    obtain ⟨text, written⟩ := Numeral.writable (compiled.small n rfl)
    simp only [Wire.chars, written]
    exact taken (by simp) e
  | float x =>
    simp only [Wire.chars, if_pos (compiled.finite rfl)]
    exact taken (by simp) e
  | str text =>
    simp only [Wire.chars]
    exact stringRefused e
  | sym name =>
    simp only [Wire.chars, (compiledSymbol compiled).1]
    exact taken (by simp) e
  | list items => exact absurd rfl (compiled.atom items)
  | «foreign» value => exact absurd rfl (compiled.native value)

theorem jsonRefuses : RefusesMarked Json.encode := by
  intro a compiled e
  cases a with
  | null => exact taken (by simp) e
  | bool b => exact taken (by simp) e
  | int n => exact taken (by simp) e
  | float x =>
    simp only [Json.encode, if_pos (compiled.finite rfl)]
    exact taken (by simp) e
  | str text =>
    simp only [Json.encode]
    exact stringRefused e
  | sym name =>
    simp only [Json.encode, if_neg (compiledSymbol compiled).2]
    exact taken (by simp) e
  | list items => exact absurd rfl (compiled.atom items)
  | «foreign» value => exact absurd rfl (compiled.native value)

section Encoders

variable {β : Type} {f : Nat → SExpr → Except EncodeError β} {tokens : List Token} {v : SExpr} {depth : Nat}

theorem Carries.markedIff (carries : Carries tokens v) : HoldsSentinel tokens ↔ ∃ a ∈ v.atoms, Marked a := by
  rw [carries.sentinel]
  constructor
  · rintro ⟨text, inside, holds⟩
    exact ⟨_, inside, text, rfl, holds⟩
  · rintro ⟨_, inside, text, rfl, holds⟩
    exact ⟨text, inside, holds⟩

theorem Carries.refused (carries : Carries tokens v) (descends : Descends f .tooDeep)
    (refuses : RefusesMarked f) (enough : v.height ≤ depth) (holds : HoldsSentinel tokens) :
    f depth v = .error .sentinelInString := by
  obtain ⟨a, inside, marked⟩ := carries.markedIff.mp holds
  refine descends.failsAlike (fun a inside e failed => ?_) ⟨a, inside, ?_⟩ enough
  · exact ((refuses a (carries.atoms a inside) e).mp failed).1
  · exact (refuses a (carries.atoms a inside) _).mpr ⟨rfl, marked⟩

theorem Carries.written (carries : Carries tokens v) (descends : Descends f .tooDeep)
    (refuses : RefusesMarked f) (enough : v.height ≤ depth) (clean : ¬ HoldsSentinel tokens) :
    ∃ b, f depth v = .ok b := by
  refine descends.okIff.mpr ⟨enough, fun a inside => ?_⟩
  cases result : f 1 a with
  | ok b => exact ⟨b, rfl⟩
  | error e =>
    have marked := ((refuses a (carries.atoms a inside) e).mp result).2
    exact absurd (carries.markedIff.mpr ⟨a, inside, marked⟩) clean

theorem Carries.failed (carries : Carries tokens v) (descends : Descends f .tooDeep)
    (refuses : RefusesMarked f) {e : EncodeError} (failed : f depth v = .error e) :
    e = .tooDeep ∧ depth < v.height ∨ e = .sentinelInString ∧ HoldsSentinel tokens := by
  rcases descends.errorCases failed with ⟨a, inside, failed⟩ | short
  · obtain ⟨same, marked⟩ := (refuses a (carries.atoms a inside) e).mp failed
    exact Or.inr ⟨same, carries.markedIff.mpr ⟨a, inside, marked⟩⟩
  · exact Or.inl short

end Encoders

theorem compiledCarries {nesting lowering : Nat} {source : String} {v : SExpr}
    (ok : compile nesting lowering source = .ok v) :
    ∃ stream, tokenize source = .ok stream ∧ Carries stream.body v := by
  obtain ⟨tree, parsed, lowered⟩ := compileOk ok
  obtain ⟨stream, tokens, sound, reads⟩ := parseReads parsed
  exact ⟨stream, tokens, loweredCarries sound.shaped reads lowered⟩

structure Passes {β : Type} (holds : Prop) (written : Except EncodeError β) (back : β → Prop) : Prop where
  refused : holds → written = .error .sentinelInString
  returned : ¬ holds → ∃ b, written = .ok b ∧ back b

theorem Passes.imp {β : Type} {holds : Prop} {written : Except EncodeError β} {back back' : β → Prop}
    (passes : Passes holds written back) (onward : ∀ b, back b → back' b) : Passes holds written back' where
  refused := passes.refused
  returned clean := by
    obtain ⟨b, same, returns⟩ := passes.returned clean
    exact ⟨b, same, onward b returns⟩

theorem Passes.map {β γ : Type} {holds : Prop} {written : Except EncodeError β} {back : γ → Prop} {g : β → γ}
    (passes : Passes holds written fun b => back (g b)) : Passes holds (g <$> written) back where
  refused h := by rw [passes.refused h]; rfl
  returned clean := by
    obtain ⟨b, same, returns⟩ := passes.returned clean
    exact ⟨g b, by rw [same]; rfl, returns⟩

theorem wirePasses {tokens : List Token} {v : SExpr} (carries : Carries tokens v) {depth : Nat}
    (enough : v.height ≤ depth) :
    Passes (HoldsSentinel tokens) (Wire.chars depth v) fun text =>
      (∀ t ∈ tokens, t.value.length < 10 ^ Numeral.maxDigits) → Wire.Document v text where
  refused := carries.refused Wire.charsDescends wireRefuses enough
  returned clean := by
    obtain ⟨text, written⟩ := carries.written Wire.charsDescends wireRefuses enough clean
    refine ⟨text, written, fun short => Wire.charsDocument written fun s inside => ?_⟩
    obtain ⟨t, member, rfl⟩ := carries.strings s inside
    exact short t member

theorem jsonPasses {tokens : List Token} {v : SExpr} (carries : Carries tokens v) {depth : Nat}
    (enough : v.height ≤ depth) :
    Passes (HoldsSentinel tokens) (Json.encode depth v) fun j =>
      ∀ more, v.height ≤ more → Json.decode more j = .ok v where
  refused := carries.refused Json.encodeDescends jsonRefuses enough
  returned clean := by
    obtain ⟨j, written⟩ := carries.written Json.encodeDescends jsonRefuses enough clean
    exact ⟨j, written, fun more deeper => Json.decodeEncoded written deeper⟩

theorem compiledPasses {nesting lowering : Nat} {source : String} {v : SExpr}
    (compiled : compile nesting lowering source = .ok v) :
    ∃ stream, tokenize source = .ok stream ∧
      (∀ depth more, v.height ≤ depth → v.height ≤ more →
        Passes (HoldsSentinel stream.body) (Wire.chars depth v)
          (fun text => source.length < 10 ^ Numeral.maxDigits → Wire.readDocument more text = .ok v) ∧
        Passes (HoldsSentinel stream.body) (Json.encode depth v) (fun j => Json.decode more j = .ok v)) ∧
      (∀ depth more, v.height ≤ depth → v.height ≤ more →
        Passes (HoldsSentinel stream.body) (Wire.write depth v)
          (fun text => source.length < 10 ^ Numeral.maxDigits → Wire.read more text = .ok v) ∧
        Passes (HoldsSentinel stream.body) (Json.encode depth v) (fun j => Json.toSExpr more j = .ok v)) ∧
      ∀ depth e, Wire.chars depth v = .error e ∨ Json.encode depth v = .error e →
        e = .tooDeep ∧ depth < v.height ∨ e = .sentinelInString ∧ HoldsSentinel stream.body := by
  obtain ⟨stream, tokens, carries⟩ := compiledCarries compiled
  have short : source.length < 10 ^ Numeral.maxDigits →
      ∀ t ∈ stream.body, t.value.length < 10 ^ Numeral.maxDigits := fun few t member =>
    Nat.lt_of_le_of_lt (Token.tokenizeShort tokens t member) few
  refine ⟨stream, tokens, fun depth more enough deeper => ⟨?_, ?_⟩,
    fun depth more enough deeper => ⟨?_, ?_⟩, ?_⟩
  · exact (wirePasses carries enough).imp fun text document few =>
      Wire.readDocumentIff.mpr ⟨document (short few), deeper⟩
  · exact (jsonPasses carries enough).imp fun j back => back more deeper
  · refine Passes.map ((wirePasses carries enough).imp fun text document few => ?_)
    exact Wire.readTextIff.mpr ⟨by rw [String.toList_ofList]; exact document (short few), deeper⟩
  · refine (jsonPasses carries enough).imp fun j back => ?_
    rw [Json.toSExpr, back more deeper]
  · rintro depth e (failed | failed)
    · exact carries.failed Wire.charsDescends wireRefuses failed
    · exact carries.failed Json.encodeDescends jsonRefuses failed

def parcelSource : String := "\x7b 'nul': truest.nulls[007.50], quote(x1) \x7b '(\\'STR:1: \"' \x7d \x7d"

def brokenSource : String := "f('a\x00b')"

theorem compiledPassesBoth :
    (∃ v text, compile 9 9 parcelSource = .ok v ∧ Wire.write 9 v = .ok text ∧ Wire.read 9 text = .ok v) ∧
      ∃ v, compile 9 9 brokenSource = .ok v ∧ Json.encode 9 v = .error .sentinelInString := by
  constructor
  · have accepted : (compile 9 9 parcelSource).toOption.any (fun v => v.height ≤ 9) = true := by
      decide +kernel
    have clean : (tokenize parcelSource).toOption.any (fun s => !decide (HoldsSentinel s.body)) = true := by
      decide +kernel
    obtain ⟨v, ok, low⟩ := okOfAny accepted
    obtain ⟨stream, tokens, clean⟩ := okOfAny clean
    obtain ⟨_, same, _, library, _⟩ := compiledPasses ok
    cases tokens.symm.trans same
    have enough := of_decide_eq_true low
    obtain ⟨text, written, back⟩ := (library 9 9 enough enough).1.returned (by simpa using clean)
    have few : parcelSource.length ≤ Numeral.maxDigits := by decide
    exact ⟨v, text, ok, written, back (Nat.lt_of_le_of_lt few (Nat.lt_pow_self (by decide)))⟩
  · have accepted : (compile 9 9 brokenSource).toOption.any (fun v => v.height ≤ 9) = true := by
      decide +kernel
    have marked : (tokenize brokenSource).toOption.any (fun s => HoldsSentinel s.body) = true := by
      decide +kernel
    obtain ⟨v, ok, low⟩ := okOfAny accepted
    obtain ⟨stream, tokens, marked⟩ := okOfAny marked
    obtain ⟨_, same, _, library, _⟩ := compiledPasses ok
    cases tokens.symm.trans same
    have enough := of_decide_eq_true low
    exact ⟨v, ok, (library 9 9 enough enough).2.refused (of_decide_eq_true marked)⟩

end Parse

end Scriptlet
