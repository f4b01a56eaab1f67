import Scriptlet.Proofs.RoundTrips

/-! What has been read is written again. The readers take more than the writers give: a string with a
sentinel, and a number beyond all bounds. These are the only values that are read and not written, and
any other comes back as it was. They have one idea of what a symbol is. -/
namespace Scriptlet
open Transport SExpr

inductive Refused : SExpr → EncodeError → Prop where
  | string {s} (holds : sentinel ∈ s.toList) : Refused (.str s) .sentinelInString
  | float {x} (unbounded : x.isFinite = false) : Refused (.float x) (.nonFinite x)

def HoldsRefused (v : SExpr) : Prop := ∃ a ∈ v.atoms, ∃ e, Refused a e

structure Rewritten {β : Type} (v : SExpr) (spoiled : Prop) (written : Except EncodeError β)
    (good : β → Prop) : Prop where
  refused : (∃ e, written = .error e) ↔ spoiled
  reason : ∀ e, written = .error e → ∃ a ∈ v.atoms, Refused a e
  returned : ∀ b, written = .ok b → good b

theorem Rewritten.map {β γ : Type} {v : SExpr} {spoiled : Prop} {written : Except EncodeError β}
    {good : γ → Prop} {g : β → γ} (rewritten : Rewritten v spoiled written fun b => good (g b)) :
    Rewritten v spoiled (g <$> written) good where
  refused := by simp only [exceptMapError, rewritten.refused]
  reason e failed := rewritten.reason e (exceptMapError.mp failed)
  returned c ok := by
    obtain ⟨b, same, rfl⟩ := exceptMapOk.mp ok
    exact rewritten.returned b same

section Atoms
variable {β : Type} {f : Nat → SExpr → Except EncodeError β}

def RefusesOnly (f : Nat → SExpr → Except EncodeError β) (a : SExpr) : Prop :=
  ∀ e, f 1 a = .error e ↔ Refused a e

theorem takesAtom {a : SExpr} {b : β} (ok : f 1 a = .ok b) (fine : ∀ e, ¬ Refused a e) : RefusesOnly f a := by
  intro e
  rw [ok]
  exact ⟨fun same => (nomatch same), fun refused => absurd refused (fine e)⟩

theorem refusesString {s : String} {b : β}
    (step : f 1 (.str s) = if s.toList.contains sentinel then .error .sentinelInString else .ok b) :
    RefusesOnly f (.str s) := by
  intro e
  rw [step]
  constructor
  · intro failed
    split at failed
    · rename_i holds
      cases failed
      exact .string (List.contains_iff_mem.mp holds)
    · cases failed
  · intro refused
    cases refused with
    | string holds => exact if_pos (List.contains_iff_mem.mpr holds)

theorem refusesFloat {x : Binary64} {b : β}
    (step : f 1 (.float x) = if x.isFinite then .ok b else .error (.nonFinite x)) :
    RefusesOnly f (.float x) := by
  intro e
  rw [step]
  constructor
  · intro failed
    split at failed
    · cases failed
    · rename_i unbounded
      cases failed
      exact .float (Bool.eq_false_iff.mpr unbounded)
  · intro refused
    cases refused with
    | float unbounded => simp [unbounded]

theorem rewritten (descends : Descends f .tooDeep) {v : SExpr} (atoms : ∀ a ∈ v.atoms, RefusesOnly f a)
    {depth : Nat} (enough : v.height ≤ depth) {good : β → Prop} (returned : ∀ b, f depth v = .ok b → good b) :
    Rewritten v (HoldsRefused v) (f depth v) good := by
  have reason : ∀ e, f depth v = .error e → ∃ a ∈ v.atoms, Refused a e := by
    intro e failed
    rcases descends.errorCases failed with ⟨a, inside, failed⟩ | ⟨_, short⟩
    · exact ⟨a, inside, (atoms a inside e).mp failed⟩
    · exact absurd enough (Nat.not_le.mpr short)
  refine ⟨⟨fun ⟨e, failed⟩ => ?_, fun ⟨a, inside, e, refused⟩ => ?_⟩, reason, returned⟩
  · obtain ⟨a, inside, refused⟩ := reason e failed
    exact ⟨a, inside, e, refused⟩
  · cases result : f depth v with
    | error e => exact ⟨e, rfl⟩
    | ok b =>
      obtain ⟨c, ok⟩ := (descends.okIff.mp ⟨b, result⟩).2 a inside
      rw [(atoms a inside e).mpr refused] at ok
      cases ok

end Atoms

namespace Json

inductive Spoiled : Json → Prop where
  | string {s rest} (marked : s.toList = stringMark ++ rest) (holds : sentinel ∈ rest) : Spoiled (.str s)
  | float {x} (unbounded : x.isFinite = false) : Spoiled (.float x)
  | item {items j} (member : j ∈ items) (inner : Spoiled j) : Spoiled (.arr items)

inductive StandsFor : Json → SExpr → Prop where
  | null : StandsFor .null .null
  | bool {b} : StandsFor (.bool b) (.bool b)
  | int {n} : StandsFor (.int n) (.int n)
  | float {x} : StandsFor (.float x) (.float x)
  | string {s rest} (marked : s.toList = stringMark ++ rest) : StandsFor (.str s) (.str (String.ofList rest))
  | symbol {name} (plain : name.toList.head? ≠ some sentinel) : StandsFor (.str name) (.sym name)

theorem decodedCases {depth : Nat} {j : Json} {v : SExpr} (decoded : decode (depth + 1) j = .ok v) :
    StandsFor j v ∨ ∃ items vs, j = .arr items ∧ v = .list vs ∧
      List.Forall₂ (fun j v => decode depth j = .ok v) items vs := by
  cases j with
  | null => cases decoded; exact Or.inl .null
  | bool b => cases decoded; exact Or.inl .bool
  | int n => cases decoded; exact Or.inl .int
  | float x => cases decoded; exact Or.inl .float
  | str s =>
    rw [decode] at decoded
    split at decoded
    · rename_i mark
      obtain ⟨rest, same⟩ := List.isPrefixOf_iff_prefix.mp mark
      rw [← same, List.drop_left] at decoded
      cases decoded
      exact Or.inl (.string same.symm)
    · split at decoded
      · cases decoded
      · rename_i plain
        cases decoded
        exact Or.inl (.symbol plain)
  | arr items =>
    obtain ⟨vs, each, same⟩ := exceptMapOk.mp decoded
    exact Or.inr ⟨items, vs, rfl, same.symm, mapMOk.mp each⟩
  | «foreign» value => cases decoded

namespace StandsFor

variable {j : Json} {v : SExpr} (stands : StandsFor j v)
include stands

theorem atom : v.IsAtom := by
  intro items same
  cases stands <;> cases same

theorem refuses : RefusesOnly encode v := by
  cases stands with
  | null => exact takesAtom rfl (fun _ refused => (nomatch refused))
  | bool => exact takesAtom rfl (fun _ refused => (nomatch refused))
  | int => exact takesAtom rfl (fun _ refused => (nomatch refused))
  | float => exact refusesFloat rfl
  | string => exact refusesString rfl
  | symbol plain => exact takesAtom (if_neg plain) (fun _ refused => (nomatch refused))

theorem spoiledIff : Spoiled j ↔ ∃ e, Refused v e := by
  constructor
  · intro spoiled
    cases spoiled with
    | string marked holds =>
      cases stands with
      | string marked' =>
        cases List.append_cancel_left (marked.symm.trans marked')
        exact ⟨_, .string (by rwa [String.toList_ofList])⟩
      | symbol plain =>
        rw [marked] at plain
        exact absurd rfl plain
    | float unbounded =>
      cases stands
      exact ⟨_, .float unbounded⟩
    | item => cases stands
  · intro ⟨e, refused⟩
    cases stands with
    | float =>
      cases refused with
      | float unbounded => exact .float unbounded
    | string marked =>
      cases refused with
      | string holds => exact .string marked (by rwa [String.toList_ofList] at holds)
    | _ => cases refused

theorem encoded {depth : Nat} {j' : Json} (ok : encode depth v = .ok j') : j' = j := by
  cases depth with
  | zero => cases ok
  | succ depth =>
    cases stands with
    | float =>
      rw [encode] at ok
      split at ok <;> cases ok
      rfl
    | string marked =>
      rw [encode, String.toList_ofList, ← marked, String.ofList_toList] at ok
      split at ok <;> cases ok
      rfl
    | symbol plain =>
      rw [encode, if_neg plain] at ok
      cases ok
      rfl
    | _ =>
      cases ok
      rfl

end StandsFor

theorem decodedHeight {depth : Nat} {j : Json} {v : SExpr} (decoded : decode depth j = .ok v) :
    v.height ≤ depth := by
  induction depth generalizing j v with
  | zero => cases decoded
  | succ depth ih =>
    obtain stands | ⟨items, vs, rfl, rfl, each⟩ := decodedCases decoded
    · rw [stands.atom.height]
      exact Nat.le_add_left 1 depth
    · rw [heightList, Nat.succ_le_succ_iff, heightAllLe]
      intro v member
      obtain ⟨j, _, head⟩ := mapMSource (mapMOk.mpr each) member
      exact ih head

theorem decodedRefuses {depth : Nat} {j : Json} {v : SExpr} (decoded : decode depth j = .ok v) :
    ∀ a ∈ v.atoms, RefusesOnly encode a := by
  induction depth generalizing j v with
  | zero => cases decoded
  | succ depth ih =>
    obtain stands | ⟨items, vs, rfl, rfl, each⟩ := decodedCases decoded
    · rw [stands.atom.atoms, List.forall_mem_singleton]
      exact stands.refuses
    · intro a inside
      obtain ⟨v, member, inside⟩ := memberOfAtom inside
      obtain ⟨j, _, head⟩ := mapMSource (mapMOk.mpr each) member
      exact ih head a inside

theorem decodedSpoiled {depth : Nat} {j : Json} {v : SExpr} (decoded : decode depth j = .ok v) :
    Spoiled j ↔ HoldsRefused v := by
  induction depth generalizing j v with
  | zero => cases decoded
  | succ depth ih =>
    obtain stands | ⟨items, vs, rfl, rfl, each⟩ := decodedCases decoded
    · rw [stands.spoiledIff, HoldsRefused, stands.atom.atoms]
      simp
    · constructor
      · intro spoiled
        cases spoiled with
        | item member inner =>
          obtain ⟨v, member', head⟩ := mapMTarget (mapMOk.mpr each) member
          obtain ⟨a, inside, refused⟩ := (ih head).mp inner
          exact ⟨a, atomsOfMember member' inside, refused⟩
      · intro ⟨a, inside, refused⟩
        obtain ⟨v, member, inside⟩ := memberOfAtom inside
        obtain ⟨j, member', head⟩ := mapMSource (mapMOk.mpr each) member
        exact .item member' ((ih head).mpr ⟨a, inside, refused⟩)

theorem encodedSame {depth more : Nat} {j j' : Json} {v : SExpr} (decoded : decode depth j = .ok v)
    (encoded : encode more v = .ok j') : j' = j := by
  induction depth generalizing more j j' v with
  | zero => cases decoded
  | succ depth ih =>
    obtain stands | ⟨items, vs, rfl, rfl, each⟩ := decodedCases decoded
    · exact stands.encoded encoded
    · cases more with
      | zero => cases encoded
      | succ more =>
        obtain ⟨items', each', rfl⟩ := exceptMapOk.mp encoded
        have parts := mapMOk.mp each'
        clear decoded encoded each'
        induction each generalizing items' with
        | nil =>
          cases parts
          rfl
        | cons head _ tail =>
          cases parts with
          | cons head' tail' => rw [ih head head', Json.arr.inj (tail _ tail')]

theorem decodedRewritten {depth : Nat} {j : Json} {v : SExpr} (decoded : decode depth j = .ok v) {more : Nat}
    (enough : v.height ≤ more) : Rewritten v (Spoiled j) (encode more v) (· = j) := by
  rw [decodedSpoiled decoded]
  exact rewritten encodeDescends (decodedRefuses decoded) enough fun _ ok => encodedSame decoded ok

theorem toSExprOk {depth : Nat} {j : Json} {v : SExpr} : toSExpr depth j = .ok v ↔ decode depth j = .ok v := by
  unfold toSExpr
  cases decode depth j <;> simp

theorem plainDataFaithful (v : SExpr) (j : Json) :
    (∀ depth more, encode depth v = .ok j → v.height ≤ more → decode more j = .ok v) ∧
      (∀ depth more, decode depth j = .ok v → v.height ≤ more →
        Rewritten v (Spoiled j) (encode more v) (· = j)) ∧
      (∀ depth more, encode depth v = .ok j → depth ≤ more → toSExpr more j = .ok v) ∧
      (∀ depth more, toSExpr depth j = .ok v → depth ≤ more →
        Rewritten v (Spoiled j) (encode more v) (· = j)) := by
  refine ⟨fun depth more encoded enough => decodeEncoded encoded enough,
    fun depth more decoded enough => decodedRewritten decoded enough,
    fun depth more encoded deeper => ?_, fun depth more decoded deeper => ?_⟩
  · have enough := (encodeDescends.okIff.mp ⟨j, encoded⟩).1
    exact toSExprOk.mpr (decodeEncoded encoded (Nat.le_trans enough deeper))
  · have decoded := toSExprOk.mp decoded
    exact decodedRewritten decoded (Nat.le_trans (decodedHeight decoded) deeper)

def crate : Json :=
  .arr [.str "f", .str "\x00STR:(f) 1", .arr [.float (.zero true), .int 0, .bool false, .null], .str ""]

def crateValue : SExpr :=
  .list [.sym "f", .str "(f) 1", .list [.float (.zero true), .int 0, .bool false, .null], .sym ""]

def spoiledCrate : Json := .arr [.str "f", .str "\x00STR:a\x00STR:", .float (.infinite true)]

theorem plainDataFaithfulCrates :
    toSExpr 4 crate = .ok crateValue ∧ encode 3 crateValue = .ok crate ∧
      ∃ v e, toSExpr 3 spoiledCrate = .ok v ∧ Spoiled spoiledCrate ∧ encode 4 v = .error e := by
  have encoded : encode 3 crateValue = .ok crate := rfl
  have spoiled : Spoiled spoiledCrate := by
    refine .item (List.mem_cons_of_mem _ List.mem_cons_self) ?_
    exact @Spoiled.string _ ['a', sentinel, 'S', 'T', 'R', ':'] (by decide) (by decide)
  refine ⟨(plainDataFaithful crateValue crate).2.2.1 3 4 encoded (by decide), encoded, ?_⟩
  have decoded : toSExpr 3 spoiledCrate = .ok (.list [.sym "f", .str "a\x00STR:", .float (.infinite true)]) := rfl
  obtain ⟨e, refused⟩ := ((plainDataFaithful _ _).2.2.2 3 4 decoded (by decide)).refused.mpr spoiled
  exact ⟨_, e, decoded, spoiled, refused⟩

end Json

namespace Wire

inductive Readable : SExpr → Prop where
  | word {word v} (nonempty : word ≠ []) (free : ∀ c ∈ word, isReserved c = false) (means : Denotes word v) :
      Readable v
  | string {s} (short : s.length < 10 ^ Numeral.maxDigits) : Readable (.str s)

def Form.atoms : Form → List SExpr
  | .word v | .closed v => v.atoms
  | .items _ values => atomsAll values

theorem encodedReadable {form : Form} {text : List Char} (encoded : Encodes form text) :
    ∀ a ∈ form.atoms, Readable a := by
  induction encoded with
  | word nonempty free means =>
    rw [Form.atoms, means.atom.atoms, List.forall_mem_singleton]
    exact .word nonempty (fun c member => freeIff.mpr (free c member)) means
  | @string digits values content nonempty run short count =>
    have atom : (SExpr.str (String.ofList content)).IsAtom := fun _ same => by cases same
    have few : values.length ≤ Numeral.maxDigits := run.length ▸ short
    have size : content.length < 10 ^ Numeral.maxDigits := by
      rw [← count]
      exact Nat.lt_of_lt_of_le (Numeral.valueBelow run.below) (Nat.pow_le_pow_right (by decide) few)
    rw [Form.atoms, atom.atoms, List.forall_mem_singleton]
    exact .string (by rwa [String.length_ofList])
  | list inside ih =>
    rw [Form.atoms, atomsList]
    exact ih
  | noItem blank =>
    intro a inside
    rw [Form.atoms, atomsAll] at inside
    cases inside
  | wordItem blank apart head tail here later =>
    rw [Form.atoms, atomsAll]
    exact List.forall_mem_append.mpr ⟨here, later⟩
  | closedItem blank head tail here later =>
    rw [Form.atoms, atomsAll]
    exact List.forall_mem_append.mpr ⟨here, later⟩

theorem Document.readable {v : SExpr} {text : List Char} (document : Document v text) :
    ∀ a ∈ v.atoms, Readable a := by
  cases document with
  | value leading trailing encoded =>
    rcases encoded with word | closed
    · exact encodedReadable word
    · exact encodedReadable closed

theorem symbolFine {word : List Char} (nonempty : word ≠ []) (free : ∀ c ∈ word, isReserved c = false)
    (noLiteral : ∀ v, ¬ Literal word v) (noNumeral : ∀ n, ¬ Numeral.Spelled word n) :
    symbolFault? (String.ofList word) = none := by
  have unlisted : literals.lookup word = none :=
    Option.eq_none_iff_forall_ne_some.mpr fun v found => noLiteral v (literalIff.mp found)
  have unread : Numeral.read? word = none :=
    Option.eq_none_iff_forall_ne_some.mpr fun n read => noNumeral n (Numeral.readIff.mp read)
  have unreserved : word.any isReserved = false := by
    rw [List.any_eq_false]
    intro c member
    simp [free c member]
  simp [symbolFault?, unlisted, unread, unreserved, nonempty]

theorem Readable.refuses {a : SExpr} (readable : Readable a) : RefusesOnly chars a := by
  cases readable with
  | string => exact refusesString rfl
  | word nonempty free means =>
    cases means with
    | literal listed =>
      cases listed <;> exact takesAtom rfl (fun _ refused => by cases refused)
    | int spelled plain short =>
      have small := Numeral.toIntSmall (Numeral.readIff.mpr spelled) (if_neg (Nat.not_lt.mpr short))
      obtain ⟨text, written⟩ := Numeral.writable small
      exact takesAtom (by simp only [chars, written]; rfl) (fun _ refused => by cases refused)
    | float => exact refusesFloat rfl
    | symbol noLiteral noNumeral =>
      have fine := symbolFine nonempty free noLiteral noNumeral
      exact takesAtom (by simp only [chars, fine]; rfl) (fun _ refused => by cases refused)

theorem Readable.short {s : String} (readable : Readable (.str s)) : s.length < 10 ^ Numeral.maxDigits := by
  cases readable with
  | string short => exact short
  | word nonempty free means =>
    cases means with
    | literal listed => cases listed

theorem Document.rewritten {v : SExpr} {text : List Char} (document : Document v text) {depth : Nat}
    (enough : v.height ≤ depth) :
    Rewritten v (HoldsRefused v) (chars depth v) fun text' => Document v text' := by
  refine Scriptlet.rewritten charsDescends (fun a inside => (document.readable a inside).refuses) enough ?_
  exact fun text' written => charsDocument written fun s inside => (document.readable _ inside).short

theorem writeOk {depth : Nat} {v : SExpr} {text : String} :
    write depth v = .ok text ↔ chars depth v = .ok text.toList := by
  rw [write, exceptMapOk]
  constructor
  · intro ⟨letters, written, same⟩
    rw [written, ← same, String.toList_ofList]
  · intro written
    exact ⟨text.toList, written, String.ofList_toList⟩

theorem Document.normalised {v : SExpr} {text : List Char} (document : Document v text) {depth : Nat}
    (enough : v.height ≤ depth) :
    Rewritten v (HoldsRefused v) (chars depth v) fun text' =>
      readDocument depth text' = .ok v ∧ ∀ w, readDocument depth text' = .ok w → chars depth w = .ok text' := by
  have again := document.rewritten enough
  refine ⟨again.refused, again.reason, fun text' written => ?_⟩
  have back := readDocumentIff.mpr ⟨again.returned text' written, enough⟩
  refine ⟨back, fun w other => ?_⟩
  cases back.symm.trans other
  exact written

theorem readOk {depth : Nat} {text : String} {v : SExpr} :
    read depth text = .ok v ↔ readDocument depth text.toList = .ok v := by
  rw [readTextIff, readDocumentIff]

theorem rewritingNormalises (text : String) (v : SExpr) :
    (∀ depth more, readDocument depth text.toList = .ok v → v.height ≤ more →
      Rewritten v (HoldsRefused v) (chars more v) fun text' =>
        readDocument more text' = .ok v ∧ ∀ w, readDocument more text' = .ok w → chars more w = .ok text') ∧
      (∀ depth more, read depth text = .ok v → depth ≤ more →
        Rewritten v (HoldsRefused v) (write more v) fun text' =>
          read more text' = .ok v ∧ ∀ w, read more text' = .ok w → write more w = .ok text') := by
  constructor
  · intro depth more ok enough
    exact (readDocumentIff.mp ok).1.normalised enough
  · intro depth more ok deeper
    obtain ⟨document, enough⟩ := readTextIff.mp ok
    refine Rewritten.map ?_
    simpa only [readOk, writeOk, String.toList_ofList] using document.normalised (Nat.le_trans enough deeper)

def loose : String := "\t(f\x00STR:٠٢:1)(007 ٣.50e0)٤x ) "

def tight : String := "(f \x00STR:2:1) (7 3.5) ٤x)"

theorem rewritingNormalisesLoose :
    (∃ v, read 3 loose = .ok v ∧ write 4 v = .ok tight ∧ read 4 tight = .ok v) ∧
      ∃ e, read 1 "\x00STR:1:\x00" = .ok (.str "\x00") ∧ write 2 (.str "\x00") = .error e := by
  constructor
  · have rewrites : (read 3 loose).toOption.any (fun v => write 4 v = .ok tight) = true := by decide +kernel
    obtain ⟨v, ok, written⟩ := okOfAny rewrites
    have written := of_decide_eq_true written
    exact ⟨v, ok, written, (((rewritingNormalises loose v).2 3 4 ok (by decide)).returned tight written).1⟩
  · have ok : read 1 "\x00STR:1:\x00" = .ok (.str "\x00") := rfl
    have holds : HoldsRefused (.str "\x00") := ⟨_, List.mem_singleton.mpr rfl, _, .string (by decide)⟩
    obtain ⟨e, refused⟩ := ((rewritingNormalises _ _).2 1 2 ok (by decide)).refused.mpr holds
    exact ⟨e, ok, refused⟩

theorem symbolWritten {depth : Nat} {name text : String} :
    write (depth + 1) (.sym name) = .ok text ↔ symbolFault? name = none ∧ text = name := by
  rw [writeOk, chars]
  cases symbolFault? name with
  | some e => simp
  | none => simp [String.toList_inj, @eq_comm _ name]

/- A name that is read as the symbol of that name has no blanks around it, so all of it is the word. -/
theorem symbolRead {depth : Nat} {name : String} :
    read (depth + 1) name = .ok (.sym name) ↔ Encodes (.word (.sym name)) name.toList := by
  rw [readTextIff]
  constructor
  · intro ⟨document, _⟩
    generalize text : name.toList = letters at document
    cases document with
    | @value before part after leading trailing encoded =>
      have word := encoded.resolve_right fun closed => (nomatch closed)
      cases word with
      | word nonempty free means =>
        have same : name.toList = part := by
          cases means with
          | literal listed => cases listed
          | symbol => exact String.toList_ofList
        have length := congrArg List.length (text.symm.trans same)
        simp only [List.length_append] at length
        obtain rfl : before = [] := List.eq_nil_of_length_eq_zero (by omega)
        obtain rfl : after = [] := List.eq_nil_of_length_eq_zero (by omega)
        rw [List.nil_append, List.append_nil]
        exact .word nonempty free means
  · intro encoded
    have nothing : Blanks [] := fun _ member => (nomatch member)
    have document := Document.value nothing nothing (Or.inl encoded)
    rw [List.nil_append, List.append_nil] at document
    exact ⟨document, by simp [height]⟩

theorem symbolWrittenIffRead (depth more : Nat) (name : String) :
    ((∃ text, write (depth + 1) (.sym name) = .ok text) ↔ read (more + 1) name = .ok (.sym name)) ∧
      ∀ text, write (depth + 1) (.sym name) = .ok text → text = name := by
  refine ⟨?_, fun text written => (symbolWritten.mp written).2⟩
  rw [symbolRead]
  constructor
  · intro ⟨text, written⟩
    exact symbolEncodes (symbolWritten.mp written).1
  · intro encoded
    generalize text : name.toList = letters at encoded
    cases encoded with
    | word nonempty free means =>
      have fine : symbolFault? (String.ofList letters) = none := by
        cases means with
        | literal listed => cases listed
        | symbol noLiteral noNumeral =>
          exact symbolFine nonempty (fun c member => freeIff.mpr (free c member)) noLiteral noNumeral
      rw [← text, String.ofList_toList] at fine
      exact ⟨name, symbolWritten.mpr ⟨fine, rfl⟩⟩

end Wire

end Scriptlet
