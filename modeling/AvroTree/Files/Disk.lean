import AvroTree.Files.Path

/-!
# Folders and files

A disk is a tree of folders with a working folder somewhere in it. A path is followed from the
working folder, or from the top if it starts with a slash, two dots leading back up.
-/

namespace AvroTree

/-- Why a file or a folder cannot be used. -/
inductive FileError where
  | notFound
  | alreadyExists
  | notFolder
  | isFolder
  | nameTooLong
  /-- The bytes of the file are no text. -/
  | notText
  | other (message : String)
deriving DecidableEq, Repr, Inhabited

namespace FileError

def message : FileError → String
  | .notFound => "No such file or directory (os error 2)"
  | .alreadyExists => "File exists (os error 17)"
  | .notFolder => "Not a directory (os error 20)"
  | .isFolder => "Is a directory (os error 21)"
  | .nameTooLong => "File name too long (os error 36)"
  | .notText => "stream did not contain valid UTF-8"
  | .other message => message

end FileError

inductive Entry where
  | folder (members : List (String × Entry))
  | file (content : ByteArray)
deriving Inhabited

namespace Entry

/-- What stands under names, the outermost first. -/
def get? : Entry → List String → Option Entry
  | e, [] => some e
  | .folder members, name :: names =>
    match members.lookup name with
    | some e => e.get? names
    | none => none
  | .file _, _ :: _ => none

/-- Puts an entry under names, in place of the one before. Folders on the way are made; a file on
the way stays. -/
def put (new : Entry) : Entry → List String → Entry
  | _, [] => new
  | .folder members, name :: names =>
    let inner := (members.lookup name).getD (.folder [])
    .folder ((name, put new inner names) :: members.filter fun (other, _) => other != name)
  | .file content, _ :: _ => .file content

end Entry

structure Disk where
  top : Entry := .folder []
  /-- The names that lead to the working folder, the outermost first. -/
  home : List String := []
deriving Inhabited

namespace Disk

/-- The most bytes a path can have. -/
def pathCeiling : Nat := 4095

/-- The most bytes a name can have. -/
def nameCeiling : Nat := 255

def entry? (d : Disk) (names : List String) : Option Entry :=
  d.top.get? names

/-- Puts an entry under names, in place of the one before. -/
def put (d : Disk) (names : List String) (e : Entry) : Disk :=
  { d with top := e.put d.top names }

/-- The names a path starts from. -/
def origin (d : Disk) (path : String) : List String :=
  if path.startsWith "/" then [] else d.home

/-- The names that a part leads to from a folder. -/
def step (names : List String) (part : String) : Except FileError (List String) :=
  if Path.isIdle part then .ok names
  else if part = ".." then .ok names.dropLast
  else if nameCeiling < part.utf8ByteSize then .error .nameTooLong
  else .ok (names ++ [part])

/-- Follows the parts of a path. Whatever stands before the last part has to be a folder. -/
def walk (d : Disk) : (names : List String) → List String → Except FileError (List String)
  | names, [] => .ok names
  | names, part :: rest =>
    match d.entry? names with
    | some (.folder _) => do d.walk (← step names part) rest
    | some (.file _) => .error .notFolder
    | none => .error .notFound

/-- Refuses a path that is too long as a whole. -/
def checkLength (path : String) : Except FileError Unit :=
  if pathCeiling < path.utf8ByteSize then .error .nameTooLong else .ok ()

/-- The names that a path leads to. -/
def locate (d : Disk) (path : String) : Except FileError (List String) := do
  checkLength path
  d.walk (d.origin path) (Path.parts path)

/-- The text of a file. -/
def read (d : Disk) (path : String) : Except FileError String := do
  match d.entry? (← d.locate path) with
  | some (.file content) =>
    match String.fromUTF8? content with
    | some text => return text
    | none => throw .notText
  | some (.folder _) => throw .isFolder
  | none => throw .notFound

/-- The names in a folder. -/
def list (d : Disk) (path : String) : Except FileError (List String) := do
  match d.entry? (← d.locate path) with
  | some (.folder members) => return members.map (·.1)
  | some (.file _) => throw .notFolder
  | none => throw .notFound

/-- Follows the parts of a path and makes the folders that are missing. -/
def makeAlong (d : Disk) : (names : List String) → List String → Except FileError Disk
  | _, [] => .ok d
  | names, part :: rest => do
    let names ← step names part
    match d.entry? names with
    | some (.folder _) => d.makeAlong names rest
    | some (.file _) => .error (if rest.isEmpty then .alreadyExists else .notFolder)
    | none => (d.put names (.folder [])).makeAlong names rest

/-- Makes a folder and the folders around it. -/
def makeFolders (d : Disk) (path : String) : Except FileError Disk := do
  checkLength path
  d.makeAlong (d.origin path) (Path.parts path)

/-- The names under which a file can be written. A path that ends in a slash names a folder, as
long as there is a folder to look for it in. -/
def target (d : Disk) (path : String) : Except FileError (List String) := do
  checkLength path
  let parts := Path.parts path
  let named := (parts.reverse.dropWhile (· == "")).reverse
  if named.length < parts.length then
    match d.entry? (← d.walk (d.origin path) named.dropLast) with
    | some (.folder _) => throw .isFolder
    | some (.file _) => throw .notFolder
    | none => throw .notFound
  else d.walk (d.origin path) parts

/-- Writes a file, which replaces the one before. -/
def write (d : Disk) (path content : String) : Except FileError Disk := do
  let names ← d.target path
  match d.entry? names with
  | some (.folder _) => throw .isFolder
  | _ => return d.put names (.file content.toUTF8)

end Disk

end AvroTree
