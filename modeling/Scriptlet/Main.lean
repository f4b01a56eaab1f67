import Scriptlet.Cli.Run

/-! The command itself: what it takes from the system and gives back to it. -/
namespace Scriptlet.Cli

def usage : String :=
  "usage: [-h] [-o OUTPUT] [--emit sexpr|wire|json|tokens|ast] [-v] input"

def limits : Limits := ⟨400, 1000, 400, 400, 400, 400⟩

def readInput (path : String) : IO (Option ByteArray) := do
  try
    let bytes ← IO.FS.readBinFile (normalisePath path)
    pure (some bytes)
  catch
    | .noFileOrDirectory .. => pure none
    | e => throw e

def crashText : Crash → String
  | .notText => "the input is not valid text"
  | .obstacle .isDirectory => "is a directory"
  | .obstacle .noDirectory => "no such directory"
  | .obstacle .notDirectory => "not a directory"
  | .obstacle .nullCharacter => "embedded null byte"
  | .obstacle .nameTooLong => "the name is too long"
  | .numeral e => e.message
  | .foreign text => "not an S-expression value: " ++ text
  | .exhausted => "nested too deeply"

def runHere (opts : Options) : IO UInt32 := do
  let bytes? ← if opts.input = "-" then some <$> (← IO.getStdin).readBinToEnd else readInput opts.input
  match bytes? with
  | none =>
    let response := notFound opts.input
    IO.eprint response.stderr
    pure response.exit.toUInt32
  | some bytes =>
    match respond limits opts bytes none fun _ path content => .ok (some (path, content)) with
    | .error crash =>
      IO.eprintln (crashText crash)
      pure 1
    | .ok (response, file?) =>
      match file? with
      | some (path, content) => IO.FS.writeBinFile (normalisePath path) content
      | none => pure ()
      IO.eprint response.stderr
      IO.print response.stdout
      pure response.exit.toUInt32

end Scriptlet.Cli

open Scriptlet.Cli in
def main (words : List String) : IO UInt32 := do
  match Options.parse words with
  | .ok opts => runHere opts
  | .error .help =>
    IO.println usage
    pure 0
  | .error .invalid =>
    IO.eprintln usage
    pure 2
