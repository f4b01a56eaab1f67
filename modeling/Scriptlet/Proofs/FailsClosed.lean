import Scriptlet.Cli.Run
import Scriptlet.Proofs.Layout
import Scriptlet.Proofs.ParserBlame
import Scriptlet.Proofs.Texts
import Scriptlet.Proofs.Transports

/-! What a run does with any source. It writes what was asked for or reports what is wrong, and there are
three ways around that: a whole number with too many digits, which the parser does not report, and a
tree or a value that is nested too deeply for the text that shows it. -/
namespace Scriptlet

/- The failures that belong to the program: complaints about a source, and values that cannot be
encoded. -/
def RenderError.isReported : RenderError → Bool
  | .compile (.parse ⟨.numeral _, _, _⟩) => false
  | .compile (.parse ⟨.exhausted, _, _⟩) => false
  | .compile _ => true
  | .encode (.numeral _) => false
  | .encode _ => true
  | .text _ => false

namespace Parse
open Token (Kind)

theorem numberTooLong {t : Token} (shaped : Token.Unsigned t.value.toList)
    (digits : Numeral.Plain t.value.toList) (long : Numeral.maxDigits < t.value.length) (s : List Token) :
    number t s = .error ⟨.numeral (.tooLong t.value.length), s⟩ := by
  rcases unsignedCases shaped with ⟨whole, _, text, read⟩ | ⟨whole, fraction, text, _⟩
  · have size : t.value.length = whole.length := by rw [← String.length_toList, text]
    rw [numberWhole read, ← size, if_pos long]
  · have point : '.' ∈ t.value.toList := by simp [text]
    exact absurd (digits _ point) (by decide)

theorem parseTooLong {whole : List Char} (digits : Numeral.Plain whole)
    (long : Numeral.maxDigits < whole.length) (depth : Nat) :
    ∃ found, parse (depth + 2) (String.ofList whole) =
      .error (.parse ⟨.numeral (.tooLong whole.length), found, String.ofList whole⟩) := by
  obtain ⟨t, stop, tokens, kind, value⟩ := Token.tokenizeDigits digits (List.ne_nil_of_length_pos (by omega))
  have text : t.value.toList = whole := by rw [value, String.toList_ofList]
  have size : t.value.length = whole.length := by rw [← String.length_toList, text]
  have shaped := (tokenizeSound tokens).shaped t List.mem_cons_self
  rw [kind] at shaped
  have failed := numberTooLong shaped (text.symm ▸ digits) (size.symm ▸ long) []
  have stops := programOfNumber kind failed (by simp) depth
  refine ⟨stop, exceptBindError.mpr (Or.inr ⟨_, tokens, ?_⟩)⟩
  simp only [Token.Stream.parse, stops, size]
  rfl

end Parse

namespace Cli

variable {limits : Limits} {source : String}

structure LongInteger (source : String) (t : Token) : Prop where
  inside : ∃ stream, tokenize source = .ok stream ∧ t ∈ stream.body
  kind : t.kind = .number
  whole : '.' ∉ t.value.toList
  long : Numeral.maxDigits < t.value.length

inductive Escape (limits : Limits) (emit : Emit) (verbose : Bool) (source : String) : Crash → Prop where
  | longInteger {t found} (long : LongInteger source t)
      (unread : parse limits.nesting source = .error (.parse ⟨.numeral (.tooLong t.value.length), found, source⟩))
      (parses : emit ≠ .tokens) : Escape limits emit verbose source (.numeral (.tooLong t.value.length))
  | deepTree {tree} (parsed : parse limits.nesting source = .ok tree) (deep : limits.listing ≤ tree.height)
      (unlisted : tree.toListing limits.listing = .error .tooDeep) (shown : emit = .ast) :
      Escape limits emit verbose source .exhausted
  | deepValue {v} (compiled : compile limits.nesting limits.lowering source = .ok v) (deep : limits.script < v.height)
      (shown : emit = .sexpr ∨ verbose = true ∧ emit.compiles = true) : Escape limits emit verbose source .exhausted

theorem complaintReported {e : RenderError} (reported : e.isReported = true) :
    ∃ text, complaint e = .ok text := by
  cases e with
  | compile e =>
    cases e with
    | token e => exact ⟨_, rfl⟩
    | lowering e => exact ⟨_, rfl⟩
    | parse e =>
      obtain ⟨cause, found, source⟩ := e
      cases cause with
      | numeral e => cases reported
      | exhausted => cases reported
      | _ => exact ⟨_, rfl⟩
  | encode e =>
    cases e with
    | numeral e => cases reported
    | _ => exact ⟨_, rfl⟩
  | text e => cases reported

theorem Escape.loud {emit : Emit} {crash : Crash} (escape : Escape limits emit false source crash)
    (verbose : Bool) : Escape limits emit verbose source crash := by
  cases escape with
  | longInteger long unread parses => exact .longInteger long unread parses
  | deepTree parsed deep unlisted shown => exact .deepTree parsed deep unlisted shown
  | deepValue compiled deep shown => exact .deepValue compiled deep (Or.inl (shown.resolve_right (by simp)))

def Accounted (limits : Limits) (emit : Emit) (source : String) (e : RenderError) : Prop :=
  e.isReported = true ∨ ∃ crash, complaint e = .error crash ∧ Escape limits emit false source crash

theorem longInteger {stream : Token.Stream} (tokens : tokenize source = .ok stream)
    {t : Token} (member : t ∈ stream.body) (kind : t.kind = .number) {s : List Token} {e : Numeral.Error}
    (failed : Parse.number t s = .error ⟨.numeral e, s⟩) :
    LongInteger source t ∧ e = .tooLong t.value.length := by
  have shaped := (tokenizeSound tokens).shaped t member
  rw [kind] at shaped
  rcases Parse.unsignedCases shaped with ⟨whole, plain, text, read⟩ | ⟨whole, fraction, _, read⟩
  · have size : t.value.length = whole.length := by rw [← String.length_toList, text]
    rw [Parse.numberWhole read] at failed
    split at failed
    · rename_i long
      cases failed
      refine ⟨⟨⟨stream, tokens, member⟩, kind, fun point => ?_, size ▸ long⟩, by rw [size]⟩
      rw [text] at point
      exact absurd (plain _ point) (by decide)
    · cases failed
  · rw [Parse.numberFraction read] at failed
    dsimp only at failed
    split at failed
    · cases failed
    · cases failed

theorem tokenizeFails {e : CompileError} (failed : tokenize source = .error e) :
    (RenderError.compile e).isReported = true := by
  unfold tokenize at failed
  split at failed
  · cases failed
  · cases failed
    rfl

theorem parseFails {e : CompileError} (failed : parse limits.nesting source = .error e) {emit : Emit}
    (parses : emit ≠ .tokens) : Accounted limits emit source (.compile e) := by
  rcases exceptBindError.mp failed with early | ⟨stream, tokens, late⟩
  · exact Or.inl (tokenizeFails early)
  · unfold Token.Stream.parse at late
    split at late
    · cases late
    · rename_i failure found
      cases late
      obtain ⟨blames, notExhausted⟩ := Parse.programBlames found
      obtain ⟨cause, rest⟩ := failure
      cases cause with
      | numeral e =>
        obtain ⟨before, t, split, kind, value⟩ := blames.number (.numeral e)
        have member : t ∈ stream.body := by simp [split]
        obtain ⟨long, rfl⟩ := longInteger tokens member kind value
        exact Or.inr ⟨_, rfl, .longInteger long failed parses⟩
      | exhausted => exact absurd rfl notExhausted
      | _ => exact Or.inl rfl

theorem compileFails {e : CompileError}
    (failed : compile limits.nesting limits.lowering source = .error e) {emit : Emit} (parses : emit ≠ .tokens) :
    Accounted limits emit source (.compile e) := by
  rcases exceptBindError.mp failed with failed | ⟨tree, _, failed⟩
  · exact parseFails failed parses
  · unfold lower at failed
    split at failed
    · cases failed
    · cases failed
      exact Or.inl rfl

section Values

variable {v : SExpr} (compiled : compile limits.nesting limits.lowering source = .ok v)
include compiled

theorem scriptFails {e : SExpr.TextError} (failed : v.toScript limits.script = .error e) :
    e = .tooDeep ∧ limits.script < v.height := by
  obtain ⟨_, _, carries⟩ := Parse.compiledCarries compiled
  exact carries.scriptFails (exceptMapError.mp failed)

theorem wireFails {e : EncodeError} (failed : Wire.write limits.wire v = .error e) :
    (RenderError.encode e).isReported = true := by
  obtain ⟨_, _, carries⟩ := Parse.compiledCarries compiled
  rcases carries.failed Wire.charsDescends Parse.wireRefuses (exceptMapError.mp failed) with
    ⟨rfl, _⟩ | ⟨rfl, _⟩ <;> rfl

theorem jsonFails {e : EncodeError} (failed : Json.encode limits.json v = .error e) :
    (RenderError.encode e).isReported = true := by
  obtain ⟨_, _, carries⟩ := Parse.compiledCarries compiled
  rcases carries.failed Json.encodeDescends Parse.jsonRefuses failed with ⟨rfl, _⟩ | ⟨rfl, _⟩ <;> rfl

theorem jsonTextOk {j : Json} (encoded : Json.encode limits.json v = .ok j) : ∃ text, j.toText = .ok text := by
  obtain ⟨_, _, carries⟩ := Parse.compiledCarries compiled
  obtain ⟨text, ok⟩ := Json.encodedText encoded fun n inside => (carries.atoms _ inside).small n rfl
  exact ⟨String.ofList text, by rw [Json.toText, ok]; rfl⟩

end Values

theorem treeFails {tree : Node} (parsed : parse limits.nesting source = .ok tree) {e : SExpr.TextError}
    (failed : tree.toListing limits.listing = .error e) : e = .tooDeep ∧ limits.listing ≤ tree.height := by
  obtain ⟨stream, _, sound, reads⟩ := Parse.parseReads parsed
  have small := (Parse.programSpelled reads).small
  rcases (Parse.programFits sound.shaped reads).shown small limits.listing with ⟨text, ok⟩ | ⟨deep, short⟩
  · rw [exceptMapError.mp failed] at ok
    cases ok
  · rw [exceptMapError.mp failed] at deep
    cases deep
    exact ⟨rfl, Nat.le_of_lt_succ short⟩

theorem valueFails {emit : Emit} (compiles : emit.compiles = true) {e : RenderError}
    (failed : render limits emit source = .error e) :
    Accounted limits emit source e ∨
      ∃ v, compile limits.nesting limits.lowering source = .ok v ∧ renderValue limits emit v = .error e := by
  have parses : emit ≠ .tokens := fun same => by rw [same] at compiles; cases compiles
  have step : render limits emit source =
      (compile limits.nesting limits.lowering source).mapError .compile >>= renderValue limits emit := by
    cases emit with
    | tokens => cases compiles
    | ast => cases compiles
    | _ => rfl
  rcases exceptBindError.mp (step.symm.trans failed) with early | ⟨v, compiled, late⟩
  · obtain ⟨e, uncompiled, rfl⟩ := mapErrorError.mp early
    exact Or.inl (compileFails uncompiled parses)
  · exact Or.inr ⟨v, mapErrorOk.mp compiled, late⟩

theorem renderFails {emit : Emit} {e : RenderError}
    (failed : render limits emit source = .error e) : Accounted limits emit source e := by
  cases emit with
  | tokens =>
    rcases exceptBindError.mp failed with early | ⟨_, _, done⟩
    · obtain ⟨e, unscanned, rfl⟩ := mapErrorError.mp early
      exact Or.inl (tokenizeFails unscanned)
    · cases done
  | ast =>
    rcases exceptBindError.mp failed with early | ⟨tree, parsed, late⟩
    · obtain ⟨e, unparsed, rfl⟩ := mapErrorError.mp early
      exact parseFails unparsed (by simp)
    · obtain ⟨e, unlisted, rfl⟩ := mapErrorError.mp late
      obtain ⟨rfl, deep⟩ := treeFails (mapErrorOk.mp parsed) unlisted
      exact Or.inr ⟨_, rfl, .deepTree (mapErrorOk.mp parsed) deep unlisted rfl⟩
  | sexpr =>
    rcases valueFails rfl failed with accounted | ⟨v, compiled, late⟩
    · exact accounted
    · obtain ⟨e, unwritten, rfl⟩ := mapErrorError.mp late
      obtain ⟨rfl, deep⟩ := scriptFails compiled unwritten
      exact Or.inr ⟨_, rfl, .deepValue compiled deep (Or.inl rfl)⟩
  | wire =>
    rcases valueFails rfl failed with accounted | ⟨v, compiled, late⟩
    · exact accounted
    · obtain ⟨e, unwritten, rfl⟩ := mapErrorError.mp late
      exact Or.inl (wireFails compiled unwritten)
  | json =>
    rcases valueFails rfl failed with accounted | ⟨v, compiled, late⟩
    · exact accounted
    · rcases exceptBindError.mp late with late | ⟨j, encoded, late⟩
      · obtain ⟨e, unencoded, rfl⟩ := mapErrorError.mp late
        exact Or.inl (jsonFails compiled unencoded)
      · obtain ⟨text, ok⟩ := jsonTextOk compiled (mapErrorOk.mp encoded)
        rw [ok] at late
        cases late

theorem progressLowered {nesting lowering : Nat} {v : SExpr} :
    .lowered v ∈ progress nesting lowering source ↔ compile nesting lowering source = .ok v := by
  unfold progress compile parse
  cases tokenize source with
  | error e => exact ⟨fun inside => absurd inside List.not_mem_nil, fun same => (nomatch same)⟩
  | ok stream =>
    simp only [bind, Except.bind]
    cases stream.parse nesting source with
    | error e => simp
    | ok tree =>
      cases lowered : lower lowering tree with
      | error e => simp [lowered]
      | ok v' => simp [lowered, eq_comm]

theorem eventFails {event : Event} {crash : Crash} (failed : eventText limits event = .error crash) :
    ∃ v e, event = .lowered v ∧ v.toScript limits.script = .error e ∧ crash = .ofText e := by
  cases event with
  | tokenized chars tokens => cases failed
  | parsed form => cases failed
  | lowered v =>
    simp only [eventText] at failed
    split at failed
    · cases failed
    · rename_i e unwritten
      cases failed
      exact ⟨v, e, rfl, unwritten, rfl⟩

/- The only part of the log that can fail is the value that a source compiles to. -/
theorem logFails {opts : Options} {crash : Crash}
    (failed : stageLog limits opts source = .error crash) :
    crash = .exhausted ∧ Escape limits opts.emit opts.verbose source .exhausted ∧
      ∃ v, compile limits.nesting limits.lowering source = .ok v := by
  unfold stageLog at failed
  split at failed
  · rename_i logs
    rw [Bool.and_eq_true] at logs
    rcases exceptBindError.mp failed with failed | ⟨_, _, done⟩
    · obtain ⟨event, inside, failed⟩ := mapMError failed
      obtain ⟨v, e, rfl, unwritten, rfl⟩ := eventFails failed
      have compiled := progressLowered.mp inside
      obtain ⟨rfl, deep⟩ := scriptFails compiled unwritten
      exact ⟨rfl, .deepValue compiled deep (Or.inr logs), v, compiled⟩
    · cases done
  · cases failed

inductive Reported (limits : Limits) (opts : Options) (source : String) : Except Crash Report → Prop where
  | written {log output} (rendered : render limits opts.emit source = .ok output) :
      Reported limits opts source (.ok ⟨log, .ok (output ++ "\n")⟩)
  | refused {log text e} (failed : render limits opts.emit source = .error e) (reported : e.isReported = true) :
      Reported limits opts source (.ok ⟨log, .error text⟩)
  | escaped {crash} (escape : Escape limits opts.emit opts.verbose source crash) :
      Reported limits opts source (.error crash)

theorem reportEnds (limits : Limits) (opts : Options) (source : String) :
    Reported limits opts source (report limits opts source) := by
  unfold report
  cases log : stageLog limits opts source with
  | error crash =>
    obtain ⟨rfl, escape, _⟩ := logFails log
    exact .escaped escape
  | ok log =>
    simp only [bind, Except.bind]
    cases rendered : render limits opts.emit source with
    | ok output => exact .written rendered
    | error e =>
      rcases renderFails rendered with reported | ⟨crash, lost, escape⟩
      · obtain ⟨text, told⟩ := complaintReported reported
        simp only [told]
        exact .refused rendered reported
      · simp only [lost]
        exact .escaped (escape.loud _)

inductive Input (folder : Folder) (stdin : ByteArray) (opts : Options) (source : String) : Prop where
  | standard (dash : opts.input = "-") (text : decodeText stdin = .ok source)
  | file {path bytes} (named : opts.input ≠ "-") (found : folder.find opts.input = .file path bytes)
      (text : decodeText bytes = .ok source)

theorem Input.responds {folder : Folder} {stdin : ByteArray} {opts : Options} {source : String}
    (input : Input folder stdin opts source) :
    ∃ bytes, decodeText bytes = .ok source ∧
      runIn limits folder stdin opts = respond limits opts bytes folder Folder.write := by
  unfold runIn
  cases input with
  | standard dash text => exact ⟨stdin, text, if_pos dash⟩
  | file named found text => exact ⟨_, text, by rw [if_neg named, found]⟩

inductive Ends (limits : Limits) (folder : Folder) (opts : Options) (source : String) :
    Except Crash (Response × Folder) → Prop where
  | written {output response after} (rendered : render limits opts.emit source = .ok output)
      (exit : response.exit = 0) : Ends limits folder opts source (.ok (response, after))
  | refused {e response} (failed : render limits opts.emit source = .error e) (reported : e.isReported = true)
      (exit : response.exit = 1) : Ends limits folder opts source (.ok (response, folder))
  | unsaved {output o} (rendered : render limits opts.emit source = .ok output) (named : opts.output.isEmpty = false)
      (blocked : folder.write opts.output (output ++ "\n").toUTF8 = .error o) :
      Ends limits folder opts source (.error (.obstacle o))
  | escaped {crash} (escape : Escape limits opts.emit opts.verbose source crash) :
      Ends limits folder opts source (.error crash)

theorem respondEnds {opts : Options} {bytes : ByteArray} {source : String}
    (text : decodeText bytes = .ok source) (folder : Folder) :
    Ends limits folder opts source (respond limits opts bytes folder Folder.write) := by
  unfold respond
  simp only [text, bind, Except.bind]
  have ends := reportEnds limits opts source
  generalize report limits opts source = outcome at ends ⊢
  cases ends with
  | escaped escape => exact .escaped escape
  | refused failed reported => exact .refused failed reported rfl
  | written rendered =>
    cases named : opts.output.isEmpty with
    | true => exact .written rendered rfl
    | false =>
      simp only [Bool.false_eq_true, if_false]
      cases saved : folder.write opts.output _ with
      | error o => exact .unsaved rendered named saved
      | ok after => exact .written rendered rfl

theorem deepScript {source : String} {v : SExpr} (compiled : compile limits.nesting limits.lowering source = .ok v)
    (deep : limits.script < v.height) : v.toScript limits.script = .error .tooDeep := by
  cases written : v.toScript limits.script with
  | ok text =>
    obtain ⟨text, ok, _⟩ := exceptMapOk.mp written
    exact absurd (SExpr.scriptDescends.okIff.mp ⟨text, ok⟩).1 (Nat.not_le.mpr deep)
  | error e => rw [(scriptFails compiled written).1]

theorem renderUnparsed {emit : Emit} (parses : emit ≠ .tokens) {source : String} {e : CompileError}
    (unparsed : parse limits.nesting source = .error e) : render limits emit source = .error (.compile e) := by
  have uncompiled : compile limits.nesting limits.lowering source = .error e := exceptBindError.mpr (Or.inl unparsed)
  cases emit with
  | tokens => exact absurd rfl parses
  | ast => simp only [render, unparsed]; rfl
  | _ => simp only [render, uncompiled]; rfl

theorem reportLost {opts : Options} {source log : String} (logged : stageLog limits opts source = .ok log)
    {e : RenderError} (failed : render limits opts.emit source = .error e) {crash : Crash}
    (lost : complaint e = .error crash) : report limits opts source = .error crash := by
  unfold report
  simp only [logged, failed, lost, bind, Except.bind]

theorem Escape.ends {opts : Options} {source : String} {crash : Crash}
    (escape : Escape limits opts.emit opts.verbose source crash) : report limits opts source = .error crash := by
  cases logged : stageLog limits opts source with
  | error first =>
    obtain ⟨rfl, _, v, compiled⟩ := logFails logged
    have stops : report limits opts source = .error .exhausted := exceptBindError.mpr (Or.inl logged)
    cases escape with
    | longInteger long unread parses =>
      obtain ⟨tree, parsed, _⟩ := exceptBindOk.mp compiled
      rw [unread] at parsed
      cases parsed
    | deepTree => exact stops
    | deepValue => exact stops
  | ok log =>
    cases escape with
    | longInteger long unread parses => exact reportLost logged (renderUnparsed parses unread) rfl
    | deepTree parsed deep unlisted shown =>
      have failed : render limits .ast source = .error (.text .tooDeep) := by
        simp only [render, parsed]
        exact congrArg (Except.mapError RenderError.text) unlisted
      exact reportLost logged (shown ▸ failed) rfl
    | @deepValue v compiled deep shown =>
      have unwritten := deepScript compiled deep
      rcases shown with shown | logs
      · have failed : render limits .sexpr source = .error (.text .tooDeep) := by
          simp only [render, compiled]
          exact congrArg (Except.mapError RenderError.text) unwritten
        exact reportLost logged (shown ▸ failed) rfl
      · rw [stageLog, if_pos (by rw [logs.1, logs.2]; rfl)] at logged
        obtain ⟨texts, each, _⟩ := exceptBindOk.mp logged
        obtain ⟨text, told⟩ := mapMResult each (progressLowered.mpr compiled)
        simp only [eventText, unwritten] at told
        cases told

theorem unifyNewlinesSame {text : List Char} (free : '\r' ∉ text) : Text.unifyNewlines text = text := by
  fun_induction Text.unifyNewlines text <;> simp_all

theorem decodeWritten {source : String} (free : '\r' ∉ source.toList) :
    decodeText source.toUTF8 = .ok source := by
  have read : String.fromUTF8? source.toUTF8 = some source := dif_pos source.isValidUTF8
  rw [decodeText, read]
  simp only [unifyNewlinesSame free, String.ofList_toList]

theorem failsClosed (limits : Limits) (source : String) :
    (∀ emit e, render limits emit source = .error e →
      e.isReported = true ∨ ∃ crash, complaint e = .error crash ∧ Escape limits emit false source crash) ∧
    ∀ folder stdin opts, Input folder stdin opts source →
      Ends limits folder opts source (runIn limits folder stdin opts) ∧
      ∀ crash, Escape limits opts.emit opts.verbose source crash →
        runIn limits folder stdin opts = .error crash := by
  refine ⟨fun _ _ failed => renderFails failed, fun folder stdin opts input => ?_⟩
  obtain ⟨bytes, text, same⟩ := input.responds
  rw [same]
  refine ⟨respondEnds text folder, fun crash escape => ?_⟩
  unfold respond
  simp only [text, escape.ends, bind, Except.bind]

def longSource : String := String.ofList (List.replicate (Numeral.maxDigits + 1) '1')

theorem longSourceDigits : Numeral.Plain (List.replicate (Numeral.maxDigits + 1) '1') := by
  intro c member
  rw [List.eq_of_mem_replicate member]
  rfl

theorem longSourceUnread (depth : Nat) : ∃ found, parse (depth + 2) longSource =
    .error (.parse ⟨.numeral (.tooLong (Numeral.maxDigits + 1)), found, longSource⟩) := by
  have long : Numeral.maxDigits < (List.replicate (Numeral.maxDigits + 1) '1').length := by
    rw [List.length_replicate]
    exact Nat.lt_succ_self _
  have unread := Parse.parseTooLong longSourceDigits long depth
  rwa [List.length_replicate] at unread

def narrow : Limits := ⟨2, 1, 1, 1, 1, 1⟩

theorem longIntegerUnreported : ∃ e, render narrow .sexpr longSource = .error e ∧ e.isReported = false := by
  obtain ⟨found, unread⟩ := longSourceUnread 0
  exact ⟨_, renderUnparsed (by simp) unread, rfl⟩

def dashed : Options := { input := "-" }

theorem failsClosedLongInteger : ∃ e crash, render narrow .sexpr longSource = .error e ∧
    complaint e = .error crash ∧ Escape narrow dashed.emit dashed.verbose longSource crash ∧
    Input ⟨[]⟩ longSource.toUTF8 dashed longSource ∧
    Ends narrow ⟨[]⟩ dashed longSource (runIn narrow ⟨[]⟩ longSource.toUTF8 dashed) ∧
    runIn narrow ⟨[]⟩ longSource.toUTF8 dashed = .error crash := by
  obtain ⟨found, unread⟩ := longSourceUnread 0
  have parses : Emit.sexpr ≠ .tokens := by simp
  have failed : render narrow .sexpr longSource = _ := renderUnparsed parses unread
  have free : '\r' ∉ longSource.toList := fun inside => by
    rw [longSource, String.toList_ofList] at inside
    exact absurd (longSourceDigits _ inside) (by decide)
  have input : Input ⟨[]⟩ longSource.toUTF8 dashed longSource := .standard rfl (decodeWritten free)
  rcases (failsClosed narrow longSource).1 .sexpr _ failed with reported | ⟨crash, lost, escape⟩
  · cases reported
  · obtain ⟨ends, crashes⟩ := (failsClosed narrow longSource).2 ⟨[]⟩ longSource.toUTF8 dashed input
    exact ⟨_, crash, failed, lost, escape, input, ends, crashes crash escape⟩

end Cli

end Scriptlet
