import AvroTree.Files.Disk

/-!
# What a command may ask of its surroundings

Commands read and write files, look at the clock and take the time of their work. They do so only
through a host, so that they run on a disk in memory as well as on the machine.
-/

namespace AvroTree

/-- How a command ended and what it wrote. -/
structure Response where
  exit : Nat := 0
  out : String := ""
  err : String := ""
deriving DecidableEq, Repr, Inhabited

structure Host (m : Type → Type) where
  read : String → m (Except FileError String)
  /-- The names in a folder. -/
  list : String → m (Except FileError (List String))
  makeFolders : String → m (Except FileError Unit)
  write : String → String → m (Except FileError Unit)
  /-- The seconds since the first of January 1970. -/
  now : m Nat
  /-- The nanoseconds that a function takes on an argument. -/
  timed : {α β : Type} → (α → β) → α → m Nat

namespace Disk

/-- Keeps a change of the disk if it can be made. -/
def change (f : Disk → Except FileError Disk) : StateM Disk (Except FileError Unit) := do
  match f (← get) with
  | .ok d =>
    set d
    return .ok ()
  | .error e => return .error e

/-- A disk in memory, on which the clock stands still and work takes no time. -/
def host (now : Nat) : Host (StateM Disk) where
  read path := return (← get).read path
  list path := return (← get).list path
  makeFolders path := change fun d => d.makeFolders path
  write path content := change fun d => d.write path content
  now := return now
  timed _ _ := return 0

end Disk

end AvroTree
