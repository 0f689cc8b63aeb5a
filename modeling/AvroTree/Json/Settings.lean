import AvroTree.Json.Reader

/-!
# Settings documents

Settings are written as an object, in which every name is known and stands once, or as an array
that gives them in order. Those that are absent keep their defaults.
-/

namespace AvroTree

namespace Json

/-- The number of a literal that is a natural number below `bound`. -/
def natural? (bound : Nat) : Json → Option Nat
  | .number literal =>
    if literal.toList.all Char.isDigit then
      let n := literal.toList.foldl (fun n c => 10 * n + (c.toNat - '0'.toNat)) 0
      if n < bound then some n else none
    else none
  | _ => none

/-- Whether no name stands twice. -/
def distinct : List String → Bool
  | [] => true
  | x :: rest => !rest.contains x && distinct rest

/-- What a document gives for each of its settings, in the order of `names`. -/
def settings? (names : List String) : Json → Option (List (Option Json))
  | .object members =>
    let given := members.map (·.1)
    if distinct given && given.all names.contains then
      some (names.map fun name => members.lookup name)
    else none
  | .array items =>
    if items.length ≤ names.length then
      some (names.zipIdx.map fun (_, i) => items[i]?)
    else none
  | _ => none

/-- A setting with its default. -/
def setting? {α : Type} (default : α) (read : Json → Option α) : Option Json → Option α
  | none => some default
  | some j => read j

end Json

/-- One past the largest number a setting can hold. -/
def settingBound : Nat := 18446744073709551616

end AvroTree
