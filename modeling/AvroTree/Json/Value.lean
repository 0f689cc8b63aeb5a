/-!
# JSON documents

A number is kept as it is written, so that reading one loses nothing. The members of an object are
kept in order.
-/

namespace AvroTree

inductive Json where
  | null
  | bool (b : Bool)
  | number (literal : String)
  | string (s : String)
  | array (items : List Json)
  | object (members : List (String × Json))
deriving Inhabited

namespace Json

def ofNat (n : Nat) : Json :=
  .number (toString n)

def ofInt (n : Int) : Json :=
  .number (toString n)

def strings (l : List String) : Json :=
  .array (l.map .string)

/-- A member that is left out when there is nothing to say. -/
def member? (name : String) : Option Json → List (String × Json)
  | some value => [(name, value)]
  | none => []

/-- A member that is present only when true. -/
def flag (name : String) (b : Bool) : List (String × Json) :=
  if b then [(name, .bool true)] else []

end Json

end AvroTree
