import AvroTree.Token.Kind

/-!
# Rules

A rule says which sequences of tokens a construct may be. Fields label what they hold and renamings
give it another node kind; neither changes the tokens.
-/

namespace AvroTree

inductive Rule where
  | seq (members : List Rule)
  | choice (members : List Rule)
  | many (inner : Rule)
  | many1 (inner : Rule)
  | optional (inner : Rule)
  | token (kind : Token.Kind)
  | symbol (name : String)
  | field (name : String) (inner : Rule)
  | renamed (inner : Rule) (name : String)
deriving Inhabited

namespace Rule

mutual

/-- A rule and all rules inside it, from the outside in and from left to right. -/
def parts : Rule → List Rule
  | .seq members => .seq members :: partsList members
  | .choice members => .choice members :: partsList members
  | .many inner => .many inner :: inner.parts
  | .many1 inner => .many1 inner :: inner.parts
  | .optional inner => .optional inner :: inner.parts
  | .token kind => [.token kind]
  | .symbol name => [.symbol name]
  | .field name inner => .field name inner :: inner.parts
  | .renamed inner name => .renamed inner name :: inner.parts

def partsList : List Rule → List Rule
  | [] => []
  | r :: rest => r.parts ++ partsList rest

end

/-- The rules that are referred to, as often as they are. -/
def symbols (r : Rule) : List String :=
  r.parts.filterMap fun
    | .symbol name => some name
    | _ => none

/-- The labels of the fields. -/
def labels (r : Rule) : List String :=
  r.parts.filterMap fun
    | .field name _ => some name
    | _ => none

/-- The renamings, each with what it renames. -/
def renamings (r : Rule) : List (Rule × String) :=
  r.parts.filterMap fun
    | .renamed inner name => some (inner, name)
    | _ => none

/-- The alternatives of every choice. -/
def choices (r : Rule) : List (List Rule) :=
  r.parts.filterMap fun
    | .choice members => some members
    | _ => none

/-- The token of a rule that is just a token. -/
def leaf? : Rule → Option Token.Kind
  | .token kind => some kind
  | _ => none

/-- The rule that an alternative stands for, seen through fields and renamings. -/
def target? : Rule → Option String
  | .symbol name => some name
  | .field _ inner => inner.target?
  | .renamed inner _ => inner.target?
  | _ => none

/-! ## Shorthands -/

def keyword (k : Keyword) : Rule :=
  .token (.keyword k)

def mark (p : Punct) : Rule :=
  .token (.punct p)

/-- One or more, with commas between them. -/
def commas1 (r : Rule) : Rule :=
  .seq [r, .many (.seq [mark .comma, r])]

/-- Any number, with commas between them. -/
def commas (r : Rule) : Rule :=
  .optional (commas1 r)

/-- Any number, with commas between them and maybe one more behind the last. -/
def commasTrailing (r : Rule) : Rule :=
  .optional (.seq [r, .many (.seq [mark .comma, r]), .optional (mark .comma)])

end Rule

end AvroTree
