import AvroTree.Grammar.Rule

/-!
# Grammars

Named rules, with a table of precedences and a list of rules that are known to need more than one
token to choose. A rule whose name starts with an underscore makes no node of its own.
-/

namespace AvroTree

inductive Associativity where
  | none | left | right
deriving DecidableEq, Repr, Inhabited

def Associativity.key : Associativity → String
  | .none => "none"
  | .left => "left"
  | .right => "right"

/-- How tightly a rule binds, and what in a text shows it. -/
structure Precedence where
  rule : String
  level : Int
  associativity : Associativity
  construct : String
deriving DecidableEq, Repr, Inhabited

/-- A rule whose choice is settled otherwise than by one token, and how. -/
structure Conflict where
  rule : String
  reason : String
deriving DecidableEq, Repr, Inhabited

structure Grammar where
  name : String
  starts : List String
  rules : List (String × Rule)
  /-- The rules that may stand between any two tokens. -/
  extras : List String := []
  /-- The rule that keywords would be read as otherwise. -/
  word : Option String := none
  /-- The tokens that only a lexer can tell. -/
  externals : List Token.Kind := []
  precedences : List Precedence := []
  conflicts : List Conflict := []
deriving Inhabited

namespace Grammar

/-- The names of the rules, in order and as often as they are defined. -/
def names (g : Grammar) : List String :=
  g.rules.map (·.1)

/-- The first definition of a rule. -/
def rule? (g : Grammar) (name : String) : Option Rule :=
  g.rules.lookup name

/-- The last definition of a rule. -/
def lastRule? (g : Grammar) (name : String) : Option Rule :=
  g.rules.reverse.lookup name

/-- All definitions of a rule. -/
def bodies (g : Grammar) (name : String) : List Rule :=
  (g.rules.filter fun (n, _) => n == name).map (·.2)

def defines (g : Grammar) (name : String) : Bool :=
  g.names.contains name

def precedence? (g : Grammar) (rule : String) : Option Precedence :=
  g.precedences.find? fun p => p.rule == rule

/-- The level of a rule, zero when none is given. -/
def level (g : Grammar) (rule : String) : Int :=
  ((g.precedence? rule).map (·.level)).getD 0

def bindsTighter (g : Grammar) (a b : String) : Bool :=
  g.level b < g.level a

def isVisible (name : String) : Bool :=
  !(name.toList.head? == some '_')

/-- Puts a name into a sorted list without repetitions. -/
def insertName (x : String) : List String → List String
  | [] => [x]
  | y :: ys => if x = y then y :: ys else if x < y then x :: y :: ys else y :: insertName x ys

/-- The names of a list, sorted and without repetitions. -/
def sortNames (l : List String) : List String :=
  l.foldl (fun sorted x => insertName x sorted) []

/-- The names of the nodes that the grammar makes, sorted: visible rules and renamings. -/
def nodeKinds (g : Grammar) : List String :=
  sortNames ((g.names.filter isVisible) ++ g.rules.flatMap fun (_, r) => r.renamings.map (·.2))

/-- Repeats a step until it changes nothing, at most `n` times. -/
def settle {α : Type} [DecidableEq α] (step : α → α) : Nat → α → α
  | 0, x => x
  | n + 1, x => if step x = x then x else settle step n (step x)

/-- How often rules are referred to in all. -/
def symbolCount (g : Grammar) : Nat :=
  (g.rules.flatMap fun (_, r) => r.symbols).length

/-- Adds the names that are not in a list yet. -/
def addNames (known new : List String) : List String :=
  new.foldl (fun l x => if l.contains x then l else l ++ [x]) known

/-- The names that some names lead to by any number of steps. -/
def closure (g : Grammar) (next : String → List String) (start : List String) : List String :=
  settle (fun l => addNames l (l.flatMap next)) (g.symbolCount + 1) (addNames [] start)

/-- What makes the nodes of a kind: its rules and what is renamed to it. -/
def sources (g : Grammar) (kind : String) : List Rule :=
  g.rules.flatMap fun (name, r) =>
    (if name == kind then [r] else [])
      ++ (r.renamings.filter fun (_, target) => target == kind).map (·.1)

/-- The labels that children of a node of a kind may carry, sorted. Rules that make no node of
their own are looked into. -/
def fields (g : Grammar) (kind : String) : List String :=
  let sources := g.sources kind
  let hidden (r : Rule) := r.symbols.filter fun name => !isVisible name
  let next (name : String) := ((g.rule? name).map hidden).getD []
  let inlined := (g.closure next (sources.flatMap hidden)).filterMap g.rule?
  sortNames ((sources ++ inlined).flatMap Rule.labels)

end Grammar

end AvroTree
