import Scriptlet.Number.Numeral

/-! How numerals are spelled in the digits of any script: a minus sign or none, digits, a fraction or
none, and an exponent or none. A text reads as the one numeral that it spells, and a text that spells
none does not read. -/
namespace Scriptlet

namespace Text

theorem takeWhileStop {test : Char → Bool} {front rest : List Char}
    (inside : ∀ c ∈ front, test c = true) (stop : ∀ c ∈ rest.head?, test c = false) :
    (front ++ rest).takeWhile test = front := by
  rw [List.takeWhile_append_of_pos inside]
  cases rest with
  | nil => simp
  | cons c more => simp [stop c rfl]

theorem dropWhileStop {test : Char → Bool} {front rest : List Char}
    (inside : ∀ c ∈ front, test c = true) (stop : ∀ c ∈ rest.head?, test c = false) :
    (front ++ rest).dropWhile test = rest := by
  rw [List.dropWhile_append_of_pos inside]
  cases rest with
  | nil => rfl
  | cons c more => simp [stop c rfl]

theorem dropWhileHead (test : Char → Bool) (text : List Char) :
    ∀ c ∈ (text.dropWhile test).head?, test c = false := by
  intro c head
  have stop := List.head?_dropWhile_not test text
  rw [Option.mem_def.mp head] at stop
  simpa using stop

theorem letterBounds {c : Char} (letter : c.isAlpha = true) : 0x41 ≤ c.toNat ∧ c.toNat ≤ 0x7a := by
  rcases Bool.or_eq_true_iff.mp letter with upper | lower
  · obtain ⟨low, high⟩ := of_decide_eq_true upper
    exact ⟨UInt32.le_iff_toNat_le.mp low, Nat.le_trans (UInt32.le_iff_toNat_le.mp high) (by decide)⟩
  · obtain ⟨low, high⟩ := Bool.and_eq_true_iff.mp lower
    have above := UInt32.le_iff_toNat_le.mp (of_decide_eq_true low)
    exact ⟨Nat.le_trans (by decide) above, UInt32.le_iff_toNat_le.mp (of_decide_eq_true high)⟩

end Text

namespace Numeral

def Run (text : List Char) (values : List Nat) : Prop := text.map Text.decimalValue? = values.map some

inductive SpelledFraction : List Char → Option (List Nat) → Prop where
  | absent : SpelledFraction [] none
  | digits {text values} (nonempty : text ≠ []) (run : Run text values) :
      SpelledFraction ('.' :: text) (some values)

inductive SpelledSign : List Char → Bool → Prop where
  | absent : SpelledSign [] false
  | plus : SpelledSign ['+'] false
  | minus : SpelledSign ['-'] true

inductive SpelledExponent : List Char → Option (Bool × List Nat) → Prop where
  | absent : SpelledExponent [] none
  | digits {mark sign negative text values} (letter : mark = 'e' ∨ mark = 'E')
      (signed : SpelledSign sign negative) (nonempty : text ≠ []) (run : Run text values) :
      SpelledExponent (mark :: (sign ++ text)) (some (negative, values))

inductive Spelled : List Char → Numeral → Prop where
  | parts {negative whole values fraction f exponent e} (nonempty : whole ≠ []) (run : Run whole values)
      (fractional : SpelledFraction fraction f) (scaled : SpelledExponent exponent e) :
      Spelled ((if negative then ['-'] else []) ++ (whole ++ (fraction ++ exponent)))
        ⟨negative, values, f, e⟩

def Stops (rest : List Char) : Prop := ∀ c ∈ rest.head?, Text.isDecimal c = false

theorem stopsEmpty : Stops [] := by simp [Stops]

theorem stopsMark {c : Char} (mark : Text.isDecimal c = false) (rest : List Char) : Stops (c :: rest) := by
  simp [Stops, mark]

namespace Run

variable {text : List Char} {values : List Nat}

theorem length (run : Run text values) : text.length = values.length := by
  have same := congrArg List.length run
  rwa [List.length_map, List.length_map] at same

theorem empty (run : Run text values) : values = [] ↔ text = [] := by
  rw [← List.length_eq_zero_iff, ← List.length_eq_zero_iff, run.length]

theorem decimal (run : Run text values) : ∀ c ∈ text, Text.isDecimal c = true := by
  intro c member
  have value : Text.decimalValue? c ∈ values.map some := run ▸ List.mem_map_of_mem member
  obtain ⟨d, _, same⟩ := List.mem_map.mp value
  rw [Text.isDecimal, ← same]
  rfl

theorem ofDecimal (digit : ∀ c ∈ text, Text.isDecimal c = true) :
    Run text (text.filterMap Text.decimalValue?) := by
  unfold Run
  induction text with
  | nil => rfl
  | cons c text ih =>
    obtain ⟨first, rest⟩ := List.forall_mem_cons.mp digit
    obtain ⟨d, value⟩ := Option.isSome_iff_exists.mp first
    rw [List.filterMap_cons_some value, List.map_cons, List.map_cons, ih rest, value]

theorem filtered (run : Run text values) : text.filterMap Text.decimalValue? = values := by
  have own := ofDecimal run.decimal
  exact List.map_inj_right (fun _ _ => Option.some.inj) |>.mp (own.symm.trans run)

theorem reads {rest : List Char} (run : Run text values) (stops : Stops rest) :
    digits (text ++ rest) = (values, rest) := by
  unfold digits
  rw [Text.takeWhileStop run.decimal stops, Text.dropWhileStop run.decimal stops, run.filtered]

end Run

theorem digitsSplit (text : List Char) :
    ∃ run, text = run ++ (digits text).2 ∧ Run run (digits text).1 := by
  refine ⟨text.takeWhile Text.isDecimal, List.takeWhile_append_dropWhile.symm, Run.ofDecimal fun c member => ?_⟩
  exact List.all_eq_true.mp List.all_takeWhile c member

theorem fractionSplit (text : List Char) :
    ∃ used, text = used ++ (fractionOf text).2 ∧ SpelledFraction used (fractionOf text).1 := by
  unfold fractionOf
  split
  · rename_i rest
    obtain ⟨run, split, digit⟩ := digitsSplit rest
    split
    · exact ⟨[], rfl, .absent⟩
    · rename_i some
      have nonempty : run ≠ [] := by
        intro nothing
        exact some _ (Prod.ext (digit.empty.mpr nothing) rfl)
      exact ⟨'.' :: run, congrArg ('.' :: ·) split, .digits nonempty digit⟩
  · exact ⟨[], rfl, .absent⟩

theorem fractionReads {used rest : List Char} {f : Option (List Nat)} (spelled : SpelledFraction used f)
    (stops : Stops rest) (noPoint : rest.head? ≠ some '.') : fractionOf (used ++ rest) = (f, rest) := by
  cases spelled with
  | absent =>
    rw [List.nil_append]
    unfold fractionOf
    split
    · exact absurd rfl noPoint
    · rfl
  | digits nonempty run =>
    simp only [List.cons_append, fractionOf, run.reads stops]
    split
    · rename_i nothing
      exact absurd (run.empty.mp (Prod.mk.inj nothing).1) nonempty
    · rfl

def signOf : List Char → Bool × List Char
  | '-' :: more => (true, more)
  | '+' :: more => (false, more)
  | text => (false, text)

theorem exponentOfCons (mark : Char) (rest : List Char) :
    exponentOf (mark :: rest) =
      if mark = 'e' ∨ mark = 'E' then
        match digits (signOf rest).2 with
        | ([], _) => (none, mark :: rest)
        | found => (some ((signOf rest).1, found.1), found.2)
      else (none, mark :: rest) := by
  have sign : signOf rest = match rest with
      | '-' :: more => (true, more)
      | '+' :: more => (false, more)
      | _ => (false, rest) := by
    unfold signOf
    split <;> rfl
  rw [sign]
  rfl

theorem signSplit (text : List Char) :
    ∃ sign, text = sign ++ (signOf text).2 ∧ SpelledSign sign (signOf text).1 := by
  unfold signOf
  split
  · exact ⟨['-'], rfl, .minus⟩
  · exact ⟨['+'], rfl, .plus⟩
  · exact ⟨[], rfl, .absent⟩

theorem signReads {sign text : List Char} {negative : Bool} {values : List Nat}
    (signed : SpelledSign sign negative) (run : Run text values) : signOf (sign ++ text) = (negative, text) := by
  cases signed with
  | plus => rfl
  | minus => rfl
  | absent =>
    rw [List.nil_append]
    unfold signOf
    split
    · exact absurd (run.decimal _ List.mem_cons_self) (by decide)
    · exact absurd (run.decimal _ List.mem_cons_self) (by decide)
    · rfl

theorem exponentSplit (text : List Char) :
    ∃ used, text = used ++ (exponentOf text).2 ∧ SpelledExponent used (exponentOf text).1 := by
  cases text with
  | nil => exact ⟨[], rfl, .absent⟩
  | cons mark rest =>
    rw [exponentOfCons]
    split
    · rename_i letter
      obtain ⟨sign, whole, signed⟩ := signSplit rest
      obtain ⟨run, split, digit⟩ := digitsSplit (signOf rest).2
      split
      · exact ⟨[], rfl, .absent⟩
      · rename_i some
        have nonempty : run ≠ [] := by
          intro nothing
          exact some _ (Prod.ext (digit.empty.mpr nothing) rfl)
        refine ⟨mark :: (sign ++ run), ?_, .digits letter signed nonempty digit⟩
        rw [List.cons_append, List.append_assoc, ← split, ← whole]
    · exact ⟨[], rfl, .absent⟩

theorem exponentReads {text : List Char} {e : Option (Bool × List Nat)} (spelled : SpelledExponent text e) :
    exponentOf text = (e, []) := by
  cases spelled with
  | absent => rfl
  | digits letter signed nonempty run =>
    have read := run.reads stopsEmpty
    rw [List.append_nil] at read
    rw [exponentOfCons, if_pos letter, signReads signed run, read]
    split
    · rename_i nothing
      exact absurd (run.empty.mp (Prod.mk.inj nothing).1) nonempty
    · rfl

theorem exponentStops {text : List Char} {e : Option (Bool × List Nat)} (spelled : SpelledExponent text e) :
    Stops text ∧ text.head? ≠ some '.' := by
  cases spelled with
  | absent => exact ⟨stopsEmpty, by simp⟩
  | digits letter _ _ _ =>
    rcases letter with rfl | rfl
    · exact ⟨stopsMark (by decide) _, by simp⟩
    · exact ⟨stopsMark (by decide) _, by simp⟩

theorem fractionStops {text rest : List Char} {f : Option (List Nat)} (spelled : SpelledFraction text f)
    (stops : Stops rest) : Stops (text ++ rest) := by
  cases spelled with
  | absent => exact stops
  | digits => exact stopsMark (by decide) _

def readUnsigned (negative : Bool) (text : List Char) : Option Numeral :=
  let whole := digits text
  let fraction := fractionOf whole.2
  let exponent := exponentOf fraction.2
  if whole.1.isEmpty || !exponent.2.isEmpty then none else some ⟨negative, whole.1, fraction.1, exponent.1⟩

theorem readMinus (text : List Char) : read? ('-' :: text) = readUnsigned true text := rfl

theorem readPlain {text : List Char} (noSign : text.head? ≠ some '-') : read? text = readUnsigned false text := by
  unfold read?
  split
  rename_i negative body same
  split at same
  · exact absurd rfl noSign
  · cases same
    rfl

theorem spelledOfUnsigned {negative : Bool} {text : List Char} {n : Numeral}
    (read : readUnsigned negative text = some n) :
    Spelled ((if negative then ['-'] else []) ++ text) n := by
  unfold readUnsigned at read
  dsimp only at read
  split at read
  · cases read
  · rename_i full
    cases read
    simp only [Bool.or_eq_true, not_or, Bool.not_eq_true', Bool.not_eq_false, List.isEmpty_iff] at full
    obtain ⟨some, done⟩ := full
    obtain ⟨whole, split, run⟩ := digitsSplit text
    obtain ⟨fraction, split', fractional⟩ := fractionSplit (digits text).2
    obtain ⟨exponent, split'', scaled⟩ := exponentSplit (fractionOf (digits text).2).2
    rw [done, List.append_nil] at split''
    have shape : whole ++ (fraction ++ exponent) = text := by rw [← split'', ← split', ← split]
    have nonempty : whole ≠ [] := fun nothing => some (run.empty.mpr nothing)
    have spelled : Spelled _ ⟨negative, _, _, _⟩ := .parts nonempty run fractional scaled
    rwa [shape] at spelled

theorem unsignedReads {whole fraction exponent : List Char} {values : List Nat} {f : Option (List Nat)}
    {e : Option (Bool × List Nat)} (negative : Bool) (nonempty : whole ≠ []) (run : Run whole values)
    (fractional : SpelledFraction fraction f) (scaled : SpelledExponent exponent e) :
    readUnsigned negative (whole ++ (fraction ++ exponent)) = some ⟨negative, values, f, e⟩ := by
  obtain ⟨stops, noPoint⟩ := exponentStops scaled
  have some : values.isEmpty = false :=
    List.isEmpty_eq_false_iff.mpr fun nothing => nonempty (run.empty.mp nothing)
  unfold readUnsigned
  simp only [run.reads (fractionStops fractional stops), fractionReads fractional stops noPoint,
    exponentReads scaled, some]
  rfl

theorem readIff {text : List Char} {n : Numeral} : read? text = some n ↔ Spelled text n := by
  constructor
  · intro read
    by_cases sign : text.head? = some '-'
    · obtain ⟨body, rfl⟩ := List.head?_eq_some_iff.mp sign
      exact spelledOfUnsigned ((readMinus body).symm.trans read)
    · rw [readPlain sign] at read
      exact spelledOfUnsigned read
  · intro spelled
    cases spelled with
    | @parts negative whole _ _ _ _ _ nonempty run fractional scaled =>
      have reads := unsignedReads negative nonempty run fractional scaled
      cases negative with
      | true => exact reads
      | false =>
        obtain ⟨c, more, rfl⟩ := List.exists_cons_of_ne_nil nonempty
        have noSign : c ≠ '-' := by
          rintro rfl
          exact absurd (run.decimal _ List.mem_cons_self) (by decide)
        exact (readPlain (by simpa using noSign)).trans reads

theorem Spelled.start {c : Char} {rest : List Char} {n : Numeral} (spelled : Spelled (c :: rest) n) :
    c = '-' ∨ Text.isDecimal c = true := by
  generalize same : c :: rest = text at spelled
  cases spelled with
  | @parts negative whole _ _ _ _ _ nonempty run _ _ =>
    cases negative with
    | true => exact Or.inl (List.cons.inj same).1
    | false =>
      obtain ⟨d, more, rfl⟩ := List.exists_cons_of_ne_nil nonempty
      cases same
      exact Or.inr (run.decimal c List.mem_cons_self)

def Marked (text : List Char) : Prop := ∃ c ∈ text, c = '.' ∨ c = 'e' ∨ c = 'E'

theorem Run.unmarked {text : List Char} {values : List Nat} (run : Run text values) : ¬ Marked text := by
  rintro ⟨c, member, mark⟩
  have decimal := run.decimal c member
  rcases mark with rfl | rfl | rfl <;> exact absurd decimal (by decide)

theorem Spelled.wholeIff {text : List Char} {n : Numeral} (spelled : Spelled text n) :
    n.isWhole = true ↔ ¬ Marked text := by
  cases spelled with
  | @parts negative whole values fraction f exponent e nonempty run fractional scaled =>
    cases fractional with
    | digits _ _ =>
      refine ⟨fun whole => (nomatch whole), fun plain => absurd ⟨'.', ?_, Or.inl rfl⟩ plain⟩
      simp
    | absent =>
      cases scaled with
      | @digits mark _ _ _ _ letter _ _ _ =>
        refine ⟨fun whole => (nomatch whole), fun plain => absurd ⟨mark, ?_, Or.inr letter⟩ plain⟩
        simp
      | absent =>
        refine ⟨fun _ marked => ?_, fun _ => rfl⟩
        obtain ⟨c, member, mark⟩ := marked
        rw [List.append_nil, List.append_nil, List.mem_append] at member
        rcases member with sign | digit
        · cases negative with
          | false => cases sign
          | true =>
            cases List.mem_singleton.mp sign
            exact absurd mark (by decide)
        · exact run.unmarked ⟨c, digit, mark⟩

theorem naturalIff {text : List Char} {n : Nat} :
    natural text = .ok n ↔
      ∃ values, text ≠ [] ∧ Run text values ∧ text.length ≤ maxDigits ∧ value values = n := by
  constructor
  · intro ok
    obtain ⟨run, split, digit⟩ := digitsSplit text
    unfold natural at ok
    dsimp only at ok
    split at ok
    · cases ok
    · rename_i short
      split at ok
      · rename_i whole
        cases ok
        simp only [Bool.and_eq_true, List.isEmpty_iff, Bool.not_eq_true', List.isEmpty_eq_false_iff] at whole
        rw [whole.1, List.append_nil] at split
        subst split
        exact ⟨_, fun nothing => whole.2 (digit.empty.mpr nothing), digit,
          digit.length ▸ Nat.le_of_not_lt short, rfl⟩
      · cases ok
  · rintro ⟨values, nonempty, run, short, rfl⟩
    have read := run.reads stopsEmpty
    rw [List.append_nil] at read
    have some : values.isEmpty = false :=
      List.isEmpty_eq_false_iff.mpr fun nothing => nonempty (run.empty.mp nothing)
    have few : ¬ maxDigits < values.length := Nat.not_lt.mpr (run.length ▸ short)
    simp only [natural, read, if_neg few, some]
    rfl

inductive Unvalued : List Char → Error → Prop where
  | long {front back} (digit : ∀ c ∈ front, Text.isDecimal c = true) (stops : Stops back)
      (long : maxDigits < front.length) : Unvalued (front ++ back) (.tooLong front.length)
  | sign {front c back} (digit : ∀ c ∈ front, Text.isDecimal c = true) (sign : Text.isDecimal c = false)
      (short : front.length ≤ maxDigits) :
      Unvalued (front ++ c :: back) (.notDecimal (String.ofList (front ++ c :: back)))

theorem naturalErrorIff {text : List Char} (nonempty : text ≠ []) {e : Error} :
    natural text = .error e ↔ Unvalued text e := by
  constructor
  · intro failed
    obtain ⟨front, split, run⟩ := digitsSplit text
    have stops : Stops (digits text).2 := Text.dropWhileHead Text.isDecimal text
    unfold natural at failed
    dsimp only at failed
    split at failed
    · rename_i long
      cases failed
      rw [← run.length] at long ⊢
      rw [split]
      exact .long run.decimal stops long
    · rename_i short
      rw [← run.length, Nat.not_lt] at short
      split at failed
      · cases failed
      · rename_i notWhole
        cases failed
        cases back : (digits text).2 with
        | nil =>
          rw [back, List.append_nil] at split
          subst split
          have some : (digits text).1 ≠ [] := fun nothing => nonempty (run.empty.mp nothing)
          simp [back, some] at notWhole
        | cons c rest =>
          rw [back] at split stops
          rw [split]
          exact .sign run.decimal (stops c rfl) short
  · intro unvalued
    unfold natural
    cases unvalued with
    | @long front back digit stops long =>
      have run := Run.ofDecimal digit
      rw [run.length] at long ⊢
      simp only [run.reads stops, if_pos long]
    | @sign front c back digit sign short =>
      have run := Run.ofDecimal digit
      rw [run.length, ← Nat.not_lt] at short
      simp [run.reads (stopsMark sign back), if_neg short]

end Numeral

end Scriptlet
