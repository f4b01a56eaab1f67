import Scriptlet.Cli.Folder
import Scriptlet.Cli.Options

/-! A run of the command: read the input, write what was asked for, and report what went wrong. -/
namespace Scriptlet.Cli

inductive Crash where
  | notText
  | obstacle (o : Obstacle)
  | numeral (e : Numeral.Error)
  | foreign (text : String)
  | exhausted
  deriving DecidableEq, Repr

def Crash.ofText : SExpr.TextError → Crash
  | .foreign text => .foreign text
  | .numeral e => .numeral e
  | .tooDeep => .exhausted

def decodeText (bytes : ByteArray) : Except Crash String :=
  match String.fromUTF8? bytes with
  | some text => .ok (String.ofList (Text.unifyNewlines text.toList))
  | none => .error .notText

def logLine (level text : String) : String := level ++ " minijs.compiler: " ++ text ++ "\n"

def eventText (limits : Limits) : Event → Except Crash String
  | .tokenized chars tokens =>
    .ok ("tokenized " ++ toString chars ++ " chars into " ++ toString tokens ++ " tokens")
  | .parsed form => .ok ("parsed " ++ form)
  | .lowered v => match v.toScript limits.script with
    | .ok text => .ok ("lowered to " ++ text)
    | .error e => .error (.ofText e)

def stageLog (limits : Limits) (opts : Options) (source : String) : Except Crash String :=
  if opts.verbose && opts.emit.compiles then do
    let texts ← (progress limits.nesting limits.lowering source).mapM (eventText limits)
    .ok (String.join (texts.map (logLine "DEBUG")))
  else .ok ""

def complaint : RenderError → Except Crash String
  | .compile (.parse ⟨.numeral e, _, _⟩) => .error (.numeral e)
  | .compile (.parse ⟨.exhausted, _, _⟩) => .error .exhausted
  | .compile e => .ok e.diagnostic.render
  | .encode (.numeral e) => .error (.numeral e)
  | .encode e => .ok e.message
  | .text e => .error (.ofText e)

structure Report where
  log : String
  result : Except String String

def report (limits : Limits) (opts : Options) (source : String) : Except Crash Report := do
  let log ← stageLog limits opts source
  match render limits opts.emit source with
  | .ok output => .ok ⟨log, .ok (output ++ "\n")⟩
  | .error e => do
    let text ← complaint e
    .ok ⟨log, .error (text ++ "\n")⟩

structure Response where
  exit : Nat
  stdout : String := ""
  stderr : String := ""
  deriving DecidableEq, Repr

def notFound (input : String) : Response :=
  { exit := 1, stderr := "Error: input file " ++ normalisePath input ++ " not found\n" }

def savedLog (opts : Options) : String :=
  if opts.verbose then logLine "INFO" ("wrote " ++ opts.output) else ""

def respond {σ : Type} (limits : Limits) (opts : Options) (bytes : ByteArray) (world : σ)
    (save : σ → String → ByteArray → Except Obstacle σ) : Except Crash (Response × σ) := do
  let source ← decodeText bytes
  let report ← report limits opts source
  match report.result with
  | .error text => .ok ({ exit := 1, stderr := report.log ++ text }, world)
  | .ok output =>
    if opts.output.isEmpty then .ok ({ exit := 0, stdout := output, stderr := report.log }, world)
    else match save world opts.output output.toUTF8 with
      | .error o => .error (.obstacle o)
      | .ok world => .ok ({ exit := 0, stderr := report.log ++ savedLog opts }, world)

def runIn (limits : Limits) (folder : Folder) (stdin : ByteArray) (opts : Options) :
    Except Crash (Response × Folder) :=
  if opts.input = "-" then respond limits opts stdin folder Folder.write
  else match folder.find opts.input with
    | .missing => .ok (notFound opts.input, folder)
    | .directory => .error (.obstacle .isDirectory)
    | .blocked o => .error (.obstacle o)
    | .file _ bytes => respond limits opts bytes folder Folder.write

end Scriptlet.Cli
