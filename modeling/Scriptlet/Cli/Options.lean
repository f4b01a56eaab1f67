import Scriptlet.Compile

/-! The command line: one input, and options in any order. -/
namespace Scriptlet.Cli

structure Options where
  input : String
  output : String := ""
  emit : Emit := .sexpr
  verbose : Bool := false
  deriving DecidableEq, Repr

inductive Usage where
  | help
  | invalid
  deriving DecidableEq, Repr

inductive Flag where
  | help | output | emit | verbose
  deriving DecidableEq, Repr

def Flag.takesValue : Flag → Bool
  | .output | .emit => true
  | .help | .verbose => false

def longNames : List (List Char × Flag) :=
  [("--help".toList, .help), ("--output".toList, .output), ("--emit".toList, .emit),
   ("--verbose".toList, .verbose)]

def shortNames : List (List Char × Flag) :=
  [(['-', 'h'], .help), (['-', 'o'], .output), (['-', 'v'], .verbose)]

inductive Word where
  | plain
  | flag (flag : Flag) (short : Bool) (attached : Option (List Char))
  | ambiguous
  | unknown
  deriving DecidableEq, Repr

def isNegativeNumber (word : List Char) : Bool :=
  match (if word.getLast? = some '\n' then word.dropLast else word) with
  | '-' :: body =>
    let (whole, rest) := Numeral.digits body
    match rest with
    | [] => !whole.isEmpty
    | '.' :: more => !(Numeral.digits more).1.isEmpty && (Numeral.digits more).2.isEmpty
    | _ => false
  | _ => false

/-- What a word is. A long flag may be cut short as long as no other flag starts like it. -/
def classify (word : List Char) : Word :=
  match word with
  | '-' :: second :: tail =>
    let name := word.takeWhile (· ≠ '=')
    let attached := if word.contains '=' then some (word.drop (name.length + 1)) else none
    match (longNames ++ shortNames).lookup name with
    | some flag => .flag flag (second ≠ '-') attached
    | none =>
      let found :=
        if second = '-' then
          (longNames.filter fun entry => name.isPrefixOf entry.1).map fun entry =>
            Word.flag entry.2 false attached
        else (shortNames.filter fun entry => entry.1 = ['-', second]).map fun entry =>
          Word.flag entry.2 true (some tail)
      match found with
      | [word] => word
      | _ :: _ => .ambiguous
      | [] => if isNegativeNumber word || word.contains ' ' then .plain else .unknown
  | _ => .plain

inductive Setting where
  | flag (flag : Flag)
  | value (flag : Flag) (text : String)
  deriving DecidableEq, Repr

structure Settings where
  ready : List Setting
  waiting : Option Flag
  deriving DecidableEq, Repr

namespace Settings

def ofFlag (flag : Flag) : Settings :=
  if flag.takesValue then ⟨[], some flag⟩ else ⟨[.flag flag], none⟩

/-- A flag with something written onto it: its value, or after a short flag that has none, a cluster
of further letters. -/
def ofAttached (flag : Flag) (short : Bool) (attached : List Char) : Except Usage Settings :=
  if flag.takesValue then .ok ⟨[.value flag (String.ofList attached)], none⟩
  else if !short then .error .invalid
  else match attached with
    | [] => .error .invalid
    | c :: rest => match shortNames.lookup ['-', c] with
      | none => .error .invalid
      | some next => do
        let more ← if rest.isEmpty then .ok (ofFlag next) else ofAttached next true rest
        .ok ⟨.flag flag :: more.ready, more.waiting⟩

def ofWord (flag : Flag) (short : Bool) : Option (List Char) → Except Usage Settings
  | some attached => ofAttached flag short attached
  | none => .ok (ofFlag flag)

end Settings

structure State where
  options : Options := ⟨"", "", .sexpr, false⟩
  found : Bool := false
  surplus : Bool := false
  deriving DecidableEq, Repr

namespace State

/-- Gives a flag its value. A later value replaces an earlier one, and two dashes stand for none. -/
def setValue (s : State) (flag : Flag) (value : String) : Except Usage State :=
  match flag with
  | .output =>
    .ok { s with options := { s.options with output := if value = "--" then "" else value } }
  | .emit => match (if value = "--" then some .sexpr else Emit.ofName? value) with
    | some emit => .ok { s with options := { s.options with emit := emit } }
    | none => .error .invalid
  | _ => .error .invalid

def setFlag (s : State) : Flag → Except Usage State
  | .verbose => .ok { s with options := { s.options with verbose := true } }
  | .help => .error .help
  | _ => .error .invalid

def set (s : State) : Setting → Except Usage State
  | .flag flag => s.setFlag flag
  | .value flag text => s.setValue flag text

def setAll (s : State) (settings : List Setting) : Except Usage State := settings.foldlM set s

def setInput (s : State) (input : String) : State :=
  if s.found then { s with surplus := true }
  else { s with options := { s.options with input := input }, found := true }

end State

inductive Before where
  | input
  | waiting (ready : List Setting) (flag : Flag)
  | other
  deriving DecidableEq, Repr

/-- What is left after two dashes. Nothing there is a flag. Dashes that stand next to the input
belong to it, and others would need an input of their own. -/
def readRest (s : State) (before : Before) (rest : List String) : State :=
  if s.found ∧ before ≠ .input then { s with surplus := true } else rest.foldl State.setInput s

/-- Reads the words that are left, one after the other. A word takes effect as a whole, and one that
waits for a value does so together with it. A word that is left over is noted, and the words after it
still count. -/
def readWords (s : State) (before : Before) : List String → Except Usage State
  | [] => match before with
    | .waiting .. => .error .invalid
    | _ => .ok s
  | word :: rest => match before with
    | .waiting ready flag => do
      if word = "--" ∨ classify word.toList ≠ .plain then .error .invalid
      else
        let s ← s.setAll (ready ++ [.value flag word])
        readWords s .other rest
    | before => do
      if word = "--" then .ok (readRest s before rest)
      else match classify word.toList with
        | .plain => readWords (s.setInput word) .input rest
        | .flag flag short attached =>
          let settings ← Settings.ofWord flag short attached
          match settings.waiting with
          | some flag => readWords s (.waiting settings.ready flag) rest
          | none =>
            let s ← s.setAll settings.ready
            readWords s .other rest
        | _ => readWords { s with surplus := true } .other rest

def Options.parse (words : List String) : Except Usage Options := do
  if (words.takeWhile (· ≠ "--")).any fun word => classify word.toList = .ambiguous then
    .error .invalid
  else
    let s ← readWords {} .other words
    if s.found && !s.surplus then .ok s.options else .error .invalid

end Scriptlet.Cli
