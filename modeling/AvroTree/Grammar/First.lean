import AvroTree.Grammar.Basic
import AvroTree.Token.Set

/-!
# First sets

For every rule the tokens it can start with and whether it can be nothing at all. Both are the
smallest that agree with the rules, found by rounds from the empty table. A name that is defined
more than once may be any of its definitions.
-/

namespace AvroTree

namespace Grammar

structure First where
  tokens : TokenSet := .empty
  nullable : Bool := false
deriving DecidableEq, Repr, Inhabited

namespace First

/-- What either of two rules can start with. -/
def or (a b : First) : First :=
  ⟨a.tokens ∪ b.tokens, a.nullable || b.nullable⟩

/-- What one rule before another can start with. -/
def andThen (a b : First) : First :=
  if a.nullable then ⟨a.tokens ∪ b.tokens, b.nullable⟩ else a

end First

/-- What is known about each rule. -/
structure Table where
  entries : List (String × First)
deriving DecidableEq, Repr, Inhabited

namespace Table

def get (t : Table) (name : String) : First :=
  (t.entries.lookup name).getD {}

def first (t : Table) (name : String) : TokenSet :=
  (t.get name).tokens

def isNullable (t : Table) (name : String) : Bool :=
  (t.get name).nullable

def firstOf (t : Table) (names : List String) : TokenSet :=
  names.foldl (fun s name => s ∪ t.first name) .empty

mutual

/-- What a rule can start with, by what the table knows of others. -/
def ofRule (t : Table) : Rule → First
  | .token kind => ⟨.single kind, false⟩
  | .symbol name => t.get name
  | .seq members => t.ofSeq members
  | .choice members => t.ofChoice members
  | .many inner => ⟨(t.ofRule inner).tokens, true⟩
  | .optional inner => ⟨(t.ofRule inner).tokens, true⟩
  | .many1 inner => t.ofRule inner
  | .field _ inner => t.ofRule inner
  | .renamed inner _ => t.ofRule inner

def ofSeq (t : Table) : List Rule → First
  | [] => ⟨.empty, true⟩
  | r :: rest => (t.ofRule r).andThen (t.ofSeq rest)

def ofChoice (t : Table) : List Rule → First
  | [] => {}
  | r :: rest => (t.ofRule r).or (t.ofChoice rest)

end

/-- One round: every rule read by the table so far. -/
def refine (g : Grammar) (t : Table) : Table :=
  ⟨t.entries.map fun (name, old) => (name, old.or (t.ofChoice (g.bodies name)))⟩

/-- A table that knows nothing. -/
def blank (g : Grammar) : Table :=
  ⟨g.names.eraseDups.map fun name => (name, {})⟩

end Table

/-- The first sets of a grammar. A round that changes something adds a token or a nullable rule,
which bounds the number of rounds. -/
def compile (g : Grammar) : Table :=
  settle (Table.refine g) (g.rules.length * (Token.Kind.count + 1) + 1) (.blank g)

end Grammar

end AvroTree
