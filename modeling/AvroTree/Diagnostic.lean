import AvroTree.Json.Value
import AvroTree.Text.Point

/-!
# Diagnostics

What is wrong with a text or with a setting, and where. Lines and columns count from one.
-/

namespace AvroTree

namespace Diagnostic

inductive Category where
  /-- A stretch of text is no token. -/
  | lexical
  /-- A token stands where the grammar has none. -/
  | syntactic
  /-- The text is larger or nested deeper than allowed. -/
  | resourceLimit
deriving DecidableEq, Repr, Inhabited

namespace Category

def describe : Category → String
  | .lexical => "lexical error"
  | .syntactic => "syntax error"
  | .resourceLimit => "resource limit"

def key : Category → String
  | .lexical => "lexical"
  | .syntactic => "syntax"
  | .resourceLimit => "resource_limit"

end Category

end Diagnostic

structure Diagnostic where
  category : Diagnostic.Category := .syntactic
  message : String
  line : Option Nat := none
  column : Option Nat := none
  offset : Option Nat := none
deriving DecidableEq, Repr, Inhabited

namespace Diagnostic

/-- A complaint about no place in particular. -/
def general (message : String) : Diagnostic :=
  { message }

/-- A complaint about a line and a column. -/
def onLine (message : String) (line column : Nat) : Diagnostic :=
  { message, line, column }

/-- A complaint about a place in a text. -/
def located (category : Category) (message : String) (l : Location) : Diagnostic :=
  { category, message, line := some (l.point.row + 1), column := some (l.point.column + 1),
    offset := some l.byte }

def lexical (message : String) (l : Location) : Diagnostic :=
  located .lexical message l

def syntactic (message : String) (l : Location) : Diagnostic :=
  located .syntactic message l

def resourceLimit (message : String) (l : Location) : Diagnostic :=
  located .resourceLimit message l

def isResourceLimit (d : Diagnostic) : Bool :=
  d.category == .resourceLimit

/-- The point complained about, counting from zero. -/
def point? (d : Diagnostic) : Option Point :=
  match d.line, d.column with
  | some (l + 1), some (c + 1) => some ⟨l, c⟩
  | _, _ => none

/-- The message, followed by its line and column if it has them. -/
def render (d : Diagnostic) : String :=
  match d.line, d.column with
  | some l, some c => s!"{d.message} at {l}:{c}"
  | _, _ => d.message

def toJson (d : Diagnostic) : Json :=
  let number (n : Option Nat) := (n.map Json.ofNat).getD .null
  .object [("col", number d.column), ("kind", .string d.category.key), ("line", number d.line),
    ("msg", .string d.message), ("offset", number d.offset)]

end Diagnostic

end AvroTree
