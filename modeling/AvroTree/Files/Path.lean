/-!
# Paths

A path is the text it is written as: names between slashes, where an empty name and a single dot
add nothing.
-/

namespace AvroTree

namespace Path

/-- The names between the slashes, empty ones and dots included. -/
def parts (path : String) : List String :=
  path.splitOn "/"

/-- Whether a part stays in the folder it is looked up in. -/
def isIdle (part : String) : Bool :=
  part == "" || part == "."

/-- The last name, unless it leads upwards. -/
def fileName? (path : String) : Option String :=
  match ((parts path).filter fun part => !isIdle part).getLast? with
  | some ".." => none
  | last => last

/-- A name cut at its last dot. A dot in front of everything belongs to the name. -/
def splitName (name : String) : String × Option String :=
  let tail := name.toList.reverse.takeWhile (· != '.')
  match name.toList.reverse.drop tail.length with
  | [] | [_] => (name, none)
  | _ :: stem => (String.ofList stem.reverse, some (String.ofList tail.reverse))

/-- What stands behind the last dot of a file's name. -/
def extension? (path : String) : Option String :=
  (fileName? path).bind fun name => (splitName name).2

/-- A file's name without its extension. -/
def stem? (path : String) : Option String :=
  (fileName? path).map fun name => (splitName name).1

def join (folder name : String) : String :=
  folder ++ "/" ++ name

/-- The characters of a path, last first, without the slashes and dots that add nothing at its
end. The slash that is the whole path stays. -/
def trimEnd : List Char → List Char
  | ['/'] => ['/']
  | '/' :: cs => trimEnd cs
  | '.' :: '/' :: cs => trimEnd ('/' :: cs)
  | cs => cs
termination_by cs => cs.length

/-- The path of the folder around it, empty for a single name. -/
def parent? (path : String) : Option String :=
  match trimEnd path.toList.reverse with
  | [] | ['/'] => none
  | cs => some (String.ofList (trimEnd (cs.dropWhile (· != '/'))).reverse)

end Path

end AvroTree
