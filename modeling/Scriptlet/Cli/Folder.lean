/-! Paths, and a folder of files as the command line sees it. -/
namespace Scriptlet.Cli

def pathParts (path : String) : List (List Char) :=
  (path.toList.splitOn '/').filter fun part => part ≠ [] ∧ part ≠ ['.']

/-- What a path starts from. Two slashes are kept; more are one. -/
def pathRoot (path : String) : List Char :=
  match path.toList with
  | '/' :: '/' :: '/' :: _ => ['/']
  | '/' :: '/' :: _ => ['/', '/']
  | '/' :: _ => ['/']
  | _ => []

def normalisePath (path : String) : String :=
  let body := ['/'].intercalate (pathParts path)
  let whole := pathRoot path ++ body
  if whole.isEmpty then "." else String.ofList whole

/-- A folder: the files in it, by their paths from the folder. A directory exists if a file lies in
it. -/
structure Folder where
  files : List (List (List Char) × ByteArray)

inductive Obstacle where
  | isDirectory
  | noDirectory
  | notDirectory
  | nullCharacter
  | nameTooLong
  deriving DecidableEq, Repr

inductive Entry where
  | missing
  | directory
  | file (path : List (List Char)) (content : ByteArray)
  | blocked (o : Obstacle)

def nameLimit : Nat := 255

def pathLimit : Nat := 4095

def isLongName (part : List Char) : Bool := nameLimit < (String.ofList part).utf8ByteSize

def isLongPath (path : String) : Bool := pathLimit < (normalisePath path).utf8ByteSize

namespace Folder

def get? (folder : Folder) (path : List (List Char)) : Option ByteArray :=
  (folder.files.find? fun file => file.1 = path).map Prod.snd

def isDirectory (folder : Folder) (path : List (List Char)) : Bool :=
  path.isEmpty || folder.files.any fun file => path.isPrefixOf file.1 && file.1 ≠ path

/-- Where a path leads, one part after the other, from a directory of the folder; `none` is a
directory outside. A step up leads to the directory that holds this one. -/
def walk (folder : Folder) : Option (List (List Char)) → List (List Char) → Entry
  | _, [] => .directory
  | none, part :: rest =>
    if part = ['.', '.'] then walk folder none rest
    else if isLongName part then .blocked .nameTooLong
    else .missing
  | some here, part :: rest =>
    if part = ['.', '.'] then walk folder (if here.isEmpty then none else some here.dropLast) rest
    else if isLongName part then .blocked .nameTooLong
    else
      let next := here ++ [part]
      if folder.isDirectory next then walk folder (some next) rest
      else match folder.get? next with
        | some content => if rest.isEmpty then .file next content else .missing
        | none => .missing

def origin (path : String) : Option (List (List Char)) :=
  if (pathRoot path).isEmpty then some [] else none

def find (folder : Folder) (path : String) : Entry :=
  if path.toList.contains '\x00' then .missing
  else if isLongPath path then .blocked .nameTooLong
  else walk folder (origin path) (pathParts path)

def put (folder : Folder) (path : List (List Char)) (content : ByteArray) : Folder :=
  ⟨(folder.files.filter fun file => file.1 ≠ path) ++ [(path, content)]⟩

def locate (folder : Folder) :
    Option (List (List Char)) → List (List Char) → Except Obstacle (List (List Char))
  | _, [] => .error .isDirectory
  | none, part :: rest =>
    if part = ['.', '.'] then locate folder none rest
    else if isLongName part then .error .nameTooLong
    else .error .noDirectory
  | some here, part :: rest =>
    if part = ['.', '.'] then locate folder (if here.isEmpty then none else some here.dropLast) rest
    else if isLongName part then .error .nameTooLong
    else
      let next := here ++ [part]
      if folder.isDirectory next then locate folder (some next) rest
      else if rest.isEmpty then .ok next
      else if (folder.get? next).isSome then .error .notDirectory
      else .error .noDirectory

def write (folder : Folder) (path : String) (content : ByteArray) : Except Obstacle Folder :=
  if path.toList.contains '\x00' then .error .nullCharacter
  else if isLongPath path then .error .nameTooLong
  else do
    let place ← folder.locate (origin path) (pathParts path)
    .ok (folder.put place content)

end Folder

end Scriptlet.Cli
