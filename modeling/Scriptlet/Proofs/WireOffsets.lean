import Scriptlet.Proofs.WireFaults

/-! The offset of a reported fault. Each fault is at a character that shows it, and a text that breaks off or goes
on too long is mended right there: by closing the lists that are open, or by leaving out what follows the value. -/
namespace Scriptlet.Wire
open Transport SExpr

variable {depth : Nat} {text here : List Char} {lists : List (List Char)} {afterWord : Bool}

theorem Reaches.append (reaches : Reaches depth text lists afterWord here) (more : List Char) :
    Reaches depth (text ++ more) (lists.map (· ++ more)) afterWord (here ++ more) := by
  induction reaches with
  | start => exact .start
  | blank _ blank ih => exact .blank ih blank
  | opened _ room ih => exact .opened ih (by rwa [List.length_map])
  | word _ encoded room ih =>
    rw [List.append_assoc] at ih
    exact .word ih encoded (by rwa [List.length_map])
  | closed _ encoded room ih =>
    rw [List.append_assoc] at ih
    exact .closed ih encoded (by rwa [List.length_map])

theorem Reaches.top (reaches : Reaches depth text [] afterWord here) : ∃ gap, Blanks gap ∧ text = gap ++ here := by
  generalize none : ([] : List (List Char)) = lists at reaches
  induction reaches with
  | start => exact ⟨[], fun _ member => (nomatch member), rfl⟩
  | @blank _ _ c rest _ blank ih =>
    obtain ⟨gap, blanks, whole⟩ := ih none
    refine ⟨gap ++ [c], ?_, by rw [whole, List.append_assoc]; rfl⟩
    intro d member
    rcases List.mem_append.mp member with before | last
    · exact blanks d before
    · exact List.mem_singleton.mp last ▸ blank
  | _ => cases none

theorem Reaches.suffix (reaches : Reaches depth text lists afterWord here) : here <:+ text := by
  induction reaches with
  | start => exact List.suffix_rfl
  | blank _ _ ih => exact (List.suffix_cons _ _).trans ih
  | opened _ _ ih => exact (List.suffix_cons _ _).trans ih
  | word _ _ _ ih => exact (List.suffix_append _ _).trans ih
  | closed _ _ _ ih => exact (List.suffix_append _ _).trans ih

theorem blankItems {c : Char} {values : List SExpr} {part : List Char} (blank : Text.isBlank c = true)
    (items : Encodes (.items false values) part) (afterWord : Bool) :
    Encodes (.items afterWord values) (c :: part) := by
  cases items with
  | noItem blanks => exact .noItem (List.forall_mem_cons.mpr ⟨blank, blanks⟩)
  | wordItem blanks _ head tail =>
    exact .wordItem (List.forall_mem_cons.mpr ⟨blank, blanks⟩) (fun _ => List.cons_ne_nil _ _) head tail
  | closedItem blanks head tail => exact .closedItem (List.forall_mem_cons.mpr ⟨blank, blanks⟩) head tail

/- Inside a list, the reader came to its bracket and has read whole items since. Further items go on from
there. -/
theorem Reaches.inside {opening : List Char} (reaches : Reaches depth text (opening :: lists) afterWord here) :
    ∃ part before, opening = '(' :: (part ++ here) ∧ Reaches depth text lists before opening ∧
      lists.length < depth ∧
      ∀ values more, Encodes (.items afterWord values) more → heightAll values + (lists.length + 1) ≤ depth →
        ∃ all, Encodes (.items false all) (part ++ more) ∧ heightAll all + (lists.length + 1) ≤ depth := by
  generalize within : opening :: lists = nested at reaches
  induction reaches with
  | start => cases within
  | @blank _ _ c rest _ blank ih =>
    obtain ⟨part, before, same, there, room, goesOn⟩ := ih within
    refine ⟨part ++ [c], before, by rw [same, List.append_assoc]; rfl, there, room, fun values more items fits => ?_⟩
    rw [List.append_assoc]
    exact goesOn values _ (blankItems blank items _) fits
  | @opened _ before rest here room _ =>
    cases within
    exact ⟨[], before, rfl, here, room, fun values more items fits => ⟨values, items, fits⟩⟩
  | @word _ _ v word rest _ encoded low ih =>
    cases within
    obtain ⟨part, before, same, there, room, goesOn⟩ := ih rfl
    refine ⟨part ++ word, before, by rw [same, List.append_assoc], there, room, fun values more items fits => ?_⟩
    rw [List.append_assoc]
    have nothing : Blanks [] := fun _ member => (nomatch member)
    refine goesOn (v :: values) _ (.wordItem nothing (fun no => (nomatch no)) encoded items) ?_
    rw [heightAll]
    omega
  | @closed _ _ _ v piece rest _ encoded low ih =>
    cases within
    obtain ⟨part, before, same, there, room, goesOn⟩ := ih rfl
    refine ⟨part ++ piece, before, by rw [same, List.append_assoc], there, room, fun values more items fits => ?_⟩
    rw [List.append_assoc]
    have nothing : Blanks [] := fun _ member => (nomatch member)
    refine goesOn (v :: values) _ (.closedItem nothing encoded items) ?_
    rw [heightAll]
    omega

theorem Reaches.close {opening rest : List Char}
    (reaches : Reaches depth text (opening :: lists) afterWord (')' :: rest)) :
    ∃ v part before, opening = part ++ rest ∧ Encodes (.closed v) part ∧ v.height + lists.length ≤ depth ∧
      Reaches depth text lists before (part ++ rest) := by
  obtain ⟨part, before, same, there, room, goesOn⟩ := reaches.inside
  have nothing : Encodes (.items afterWord []) [] := .noItem fun _ member => (nomatch member)
  obtain ⟨values, items, fits⟩ := goesOn [] [] nothing ((Nat.zero_add _).symm ▸ room)
  rw [List.append_nil] at items
  have whole : opening = '(' :: (part ++ [')']) ++ rest := by rw [same]; simp
  refine ⟨.list values, _, before, whole, .list items, ?_, whole ▸ there⟩
  rw [heightList]
  omega

theorem Reaches.closeSome {count : Nat} {rest : List Char}
    (reaches : Reaches depth text lists afterWord (List.replicate count ')' ++ rest))
    (fewer : count < lists.length) : ∃ after, Reaches depth text (lists.drop count) after rest := by
  induction count generalizing lists afterWord with
  | zero => exact ⟨afterWord, reaches⟩
  | succ count ih =>
    obtain _ | ⟨opening, _ | ⟨outer, lists⟩⟩ := lists
    · cases fewer
    · exact absurd fewer (by simp)
    · obtain ⟨v, part, before, _, encoded, fits, there⟩ := reaches.close
      exact ih (there.closed encoded fits) (by simpa using fewer)

theorem Reaches.closeAll {count : Nat} {opening rest : List Char}
    (reaches : Reaches depth text (opening :: lists) afterWord (List.replicate count ')' ++ rest))
    (all : count = lists.length + 1) :
    ∃ v gap part, text = gap ++ (part ++ rest) ∧ Blanks gap ∧ Encodes (.closed v) part ∧ v.height ≤ depth := by
  rw [all, List.replicate_succ', List.append_assoc] at reaches
  obtain ⟨after, last⟩ := reaches.closeSome (by simp)
  have outermost : ∃ outer, (opening :: lists).drop lists.length = [outer] := by
    rw [← List.length_eq_one_iff, List.length_drop, List.length_cons]
    omega
  obtain ⟨outer, same⟩ := outermost
  rw [same] at last
  obtain ⟨v, part, before, _, encoded, fits, there⟩ := Reaches.close last
  obtain ⟨gap, blanks, whole⟩ := there.top
  exact ⟨v, gap, part, whole, blanks, encoded, fits⟩

theorem readDocumentTrailing {gap part rest : List Char} {v : SExpr} {c : Char} (blanks : Blanks gap)
    (encoded : Encodes (.closed v) part) (enough : v.height ≤ depth) (start : Text.isBlank c = false) :
    readDocument depth (gap ++ (part ++ c :: rest)) = .error ⟨.trailing, c :: rest⟩ := by
  have read := encodedReads encoded depth (c :: rest) enough
  have left : (c :: rest).dropWhile Text.isBlank = c :: rest := List.dropWhile_cons_of_neg (by simp [start])
  obtain ⟨d, tail, rfl, begins, _⟩ := encodedStart (Or.inr encoded)
  unfold readDocument
  rw [List.cons_append] at read ⊢
  simp only [skipBlanks blanks begins, read, left]

theorem Reaches.mends {opening : List Char} (reaches : Reaches depth text (opening :: lists) afterWord [])
    (count : Nat) :
    (∃ v, readDocument depth (text ++ List.replicate count ')') = .ok v) ↔ count = lists.length + 1 := by
  have longer := reaches.append (List.replicate count ')')
  rw [List.nil_append] at longer
  constructor
  · intro ⟨v, ok⟩
    rcases Nat.lt_trichotomy count (lists.length + 1) with fewer | same | more
    · -- The innermost of the lists that are left is not closed.
      rw [← List.append_nil (List.replicate count ')')] at longer
      obtain ⟨after, there⟩ := longer.closeSome (by simpa using fewer)
      rw [List.append_nil] at there
      generalize left : List.drop count _ = remaining at there
      cases remaining with
      | nil =>
        have length := congrArg List.length left
        simp only [List.length_drop, List.length_map, List.length_cons, List.length_nil] at length
        omega
      | cons innermost outer =>
        have breaks : Breaks depth (innermost :: outer) [] ⟨.unclosed, innermost⟩ :=
          Reader.collectError.mpr ⟨[], _, .none, rfl⟩
        cases (there.breaks (fun _ _ head => (nomatch head)) breaks).symm.trans ok
    · exact same
    · obtain ⟨extra, rfl⟩ := Nat.exists_eq_add_of_lt more
      have split : List.replicate (lists.length + 1 + extra + 1) ')' =
          List.replicate (lists.length + 1) ')' ++ ')' :: List.replicate extra ')' := by
        rw [Nat.add_assoc, List.replicate_add]
        rfl
      rw [split] at longer ok
      obtain ⟨w, gap, part, whole, blanks, encoded, enough⟩ := longer.closeAll (by rw [List.length_map])
      rw [whole, readDocumentTrailing blanks encoded enough (by decide)] at ok
      cases ok
  · rintro rfl
    rw [← List.append_nil (List.replicate _ ')')] at longer
    obtain ⟨v, gap, part, whole, blanks, encoded, enough⟩ := longer.closeAll (by rw [List.length_map])
    have nothing : Blanks [] := fun _ member => (nomatch member)
    rw [List.append_nil] at whole
    exact ⟨v, readDocumentIff.mpr ⟨whole ▸ .value blanks nothing (Or.inr encoded), enough⟩⟩

theorem Stops.suffix {blame : Blame} (stops : Stops depth text blame) : blame.rest <:+ text := by
  cases stops with
  | empty => exact List.nil_suffix
  | @trailing front c rest v whole => exact ⟨front, whole.symm⟩
  | unclosed here =>
    obtain ⟨_, _, _, there, _⟩ := here.inside
    exact there.suffix
  | tooDeep here => exact here.suffix
  | close here => exact here.suffix
  | string here _ failed => exact (stringFault failed).1 ▸ here.suffix
  | word here _ _ failed =>
    obtain ⟨n, rfl⟩ := wordFault failed
    exact here.suffix

/- What a text shows at the offset of a fault. A list that is not closed starts there and has whole items behind
it, so it is the innermost that is open at the end; the lists that are open tell how many brackets mend the text.
The two faults without a condition are of depth and of numbers. -/
def Shows (depth : Nat) (text : String) (offset : Nat) : DecodeFault → Prop
  | .unclosed => text.toList[offset]? = some '(' ∧
    (∃ items, Encodes (.items false items) (text.toList.drop (offset + 1))) ∧
    ∃ lists afterWord, Reaches depth text.toList (text.toList.drop offset :: lists) afterWord [] ∧
      ∀ count, (∃ v, read depth (text ++ String.ofList (List.replicate count ')')) = .ok v) ↔
        count = lists.length + 1
  | .trailing => (∃ c, text.toList[offset]? = some c ∧ Text.isBlank c = false) ∧
    ∃ v, read depth (String.ofList (text.toList.take offset)) = .ok v
  | .emptyInput => Blanks text.toList ∧ offset = text.length
  | .unexpectedClose => text.toList[offset]? = some ')' ∧ Blanks (text.toList.take offset)
  | .unknownTag | .malformedLength | .shortContent => text.toList[offset]? = some sentinel
  | .unknownTagIn _ | .unsupported _ => False
  | .tooDeep | .numeral _ => True

theorem okIff {text : String} : (∃ v, read depth text = .ok v) ↔ ∃ v, readDocument depth text.toList = .ok v := by
  simp only [readTextIff, readDocumentIff]

theorem Stops.shows {text : String} {blame : Blame} (stops : Stops depth text.toList blame)
    {front : List Char} (whole : front ++ blame.rest = text.toList) : Shows depth text front.length blame.fault := by
  have left : text.toList.drop front.length = blame.rest := by rw [← whole, List.drop_left]
  have before : text.toList.take front.length = front := by rw [← whole, List.take_left]
  have first : text.toList[front.length]? = blame.rest.head? := by rw [← List.head?_drop, left]
  cases stops with
  | empty blank =>
    refine ⟨blank, ?_⟩
    rw [← String.length_toList, ← whole, List.append_nil]
  | @trailing _ c rest v whole' start done enough =>
    obtain rfl := List.append_cancel_right (whole.trans whole')
    refine ⟨⟨c, first, start⟩, okIff.mpr ⟨v, ?_⟩⟩
    rw [before, String.toList_ofList]
    exact readDocumentIff.mpr ⟨done, enough⟩
  | @unclosed opening lists afterWord here =>
    obtain ⟨part, _, same, _, room, goesOn⟩ := here.inside
    have nothing : Encodes (.items afterWord []) [] := .noItem fun _ member => (nomatch member)
    obtain ⟨values, items, _⟩ := goesOn [] [] nothing ((Nat.zero_add _).symm ▸ room)
    have inside : text.toList.drop (front.length + 1) = part ++ [] := by
      rw [← List.drop_drop, left, same]
      rfl
    refine ⟨first.trans (by rw [same]; rfl), ⟨values, inside ▸ items⟩, lists, afterWord, left ▸ here, fun count => ?_⟩
    rw [okIff, String.toList_append, String.toList_ofList]
    exact here.mends count
  | tooDeep => exact trivial
  | close here =>
    obtain ⟨gap, blanks, whole'⟩ := here.top
    obtain rfl := List.append_cancel_right (whole.trans whole')
    exact ⟨first, before.symm ▸ blanks⟩
  | string here room failed =>
    obtain ⟨same, fault⟩ := stringFault failed
    rw [same] at first
    rcases fault with fault | fault | fault | ⟨n, fault⟩ <;> rw [fault]
    · exact first
    · exact first
    · exact first
    · exact trivial
  | word here room start failed =>
    obtain ⟨n, rfl⟩ := wordFault failed
    exact trivial

theorem faultOffsetsExact {depth : Nat} {text : String} {e : DecodeError} (failed : read depth text = .error e) :
    ∃ offset, e.offset = some offset ∧ offset ≤ text.length ∧ Shows depth text offset e.fault := by
  obtain ⟨blame, wrong, rfl⟩ := readErrorIff.mp failed
  have stops := readDocumentStops wrong
  obtain ⟨front, whole⟩ := stops.suffix
  have length : text.length = front.length + blame.rest.length := by
    rw [← String.length_toList, ← whole, List.length_append]
  refine ⟨front.length, ?_, by omega, stops.shows whole⟩
  rw [length, Nat.add_sub_cancel]

def halfOpen : String := "(a (b \x00STR:2:()"

theorem faultOffsetsExactHalfOpen :
    read 9 halfOpen = .error ⟨.unclosed, some 3⟩ ∧ halfOpen.toList[3]? = some '(' ∧
      ∀ count, (∃ v, read 9 (halfOpen ++ String.ofList (List.replicate count ')')) = .ok v) ↔ count = 2 := by
  have said : (read 9 halfOpen).map (fun _ => ()) = .error ⟨.unclosed, some 3⟩ := by decide +kernel
  have failed : read 9 halfOpen = .error ⟨.unclosed, some 3⟩ := by
    cases result : read 9 halfOpen with
    | ok v => cases result ▸ said
    | error e =>
      cases result ▸ said
      rfl
  obtain ⟨offset, same, _, bracket, _, lists, _, _, mends⟩ := faultOffsetsExact failed
  obtain rfl := Option.some.inj same
  have mended : (read 9 (halfOpen ++ String.ofList (List.replicate 2 ')'))).toOption.isSome = true := by decide +kernel
  have two : 2 = lists.length + 1 := (mends 2).mp (okOfSome mended)
  exact ⟨failed, bracket, fun count => two ▸ mends count⟩

end Scriptlet.Wire
