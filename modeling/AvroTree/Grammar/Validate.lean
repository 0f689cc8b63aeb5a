import AvroTree.Grammar.Overlap
import AvroTree.Tree.NodeKind

/-!
# Sound grammars

A grammar is sound when every name it uses has one rule, every rule can be reached and come to an
end, its nodes are the known node kinds and no choice is left open. All problems are reported.
-/

namespace AvroTree

namespace Grammar

inductive Problem where
  | duplicateRule (name : String)
  | missingStart (name : String)
  | undefinedSymbol (rule symbol : String)
  | unreachable (name : String)
  | unproductive (name : String)
  | unknownNodeKind (rule name : String)
  | uncoveredNodeKind (name : String)
  | unknownPrecedenceRule (name : String)
  | unknownConflictRule (name : String)
  | unresolvedOverlap (rule first second tokens : String)
deriving DecidableEq, Repr

namespace Problem

def key : Problem → String
  | .duplicateRule _ => "duplicate_rule"
  | .missingStart _ => "missing_start"
  | .undefinedSymbol _ _ => "undefined_symbol"
  | .unreachable _ => "unreachable"
  | .unproductive _ => "unproductive"
  | .unknownNodeKind _ _ => "unknown_node_kind"
  | .uncoveredNodeKind _ => "uncovered_node_kind"
  | .unknownPrecedenceRule _ => "unknown_precedence_rule"
  | .unknownConflictRule _ => "unknown_conflict_rule"
  | .unresolvedOverlap _ _ _ _ => "unresolved_overlap"

def message : Problem → String
  | .duplicateRule name => s!"rule `{name}` is defined more than once"
  | .missingStart name => s!"start rule `{name}` is not defined"
  | .undefinedSymbol rule symbol => s!"rule `{rule}` refers to undefined symbol `{symbol}`"
  | .unreachable name => s!"rule `{name}` is unreachable from the start rules and extras"
  | .unproductive name => s!"rule `{name}` cannot derive any finite token sequence"
  | .unknownNodeKind rule name =>
    s!"rule `{rule}` produces `{name}`, which is not a known node kind"
  | .uncoveredNodeKind name => s!"node kind `{name}` is never produced by the grammar"
  | .unknownPrecedenceRule name => s!"precedence entry names undefined rule `{name}`"
  | .unknownConflictRule name => s!"conflict entry names undefined rule `{name}`"
  | .unresolvedOverlap rule first second tokens =>
    s!"in `{rule}`, `{first}` and `{second}` both start with {tokens}"

end Problem

/-- The names of a list that have occurred in it before. -/
def repeats (seen : List String) : List String → List String
  | [] => []
  | x :: rest =>
    if seen.contains x then x :: repeats seen rest else repeats (x :: seen) rest

/-- The names that are used without being referred to by a rule. -/
def roots (g : Grammar) : List String :=
  g.starts ++ g.extras ++ g.word.toList

/-- The names that the roots lead to. -/
def reachable (g : Grammar) : List String :=
  g.closure (fun name => ((g.lastRule? name).map Rule.symbols).getD []) g.roots

mutual

/-- Whether a rule can come to an end when the rules in `done` can. -/
def derives (done : List String) : Rule → Bool
  | .token _ => true
  | .many _ => true
  | .optional _ => true
  | .symbol name => done.contains name
  | .seq members => allDerive done members
  | .choice members => anyDerives done members
  | .many1 inner => derives done inner
  | .field _ inner => derives done inner
  | .renamed inner _ => derives done inner

def allDerive (done : List String) : List Rule → Bool
  | [] => true
  | r :: rest => derives done r && allDerive done rest

def anyDerives (done : List String) : List Rule → Bool
  | [] => false
  | r :: rest => derives done r || anyDerives done rest

end

/-- The rules that can come to an end. -/
def productive (g : Grammar) : List String :=
  let step (done : List String) :=
    addNames done ((g.rules.filter fun (_, r) => derives done r).map (·.1))
  settle step (g.rules.length + 1) []

/-- The rule that first makes nodes of a name. -/
def producer (g : Grammar) (kind : String) : String :=
  let makes := fun (name, (r : Rule)) => name == kind || r.renamings.any fun (_, t) => t == kind
  ((g.rules.find? makes).map (·.1)).getD kind

def nameProblems (g : Grammar) : List Problem :=
  (repeats [] g.names).map .duplicateRule
    ++ (g.starts.filter (!g.defines ·)).map .missingStart
    ++ ((g.extras ++ g.word.toList).filter (!g.defines ·)).map (.undefinedSymbol g.name)
    ++ g.rules.flatMap fun (name, r) =>
      (r.symbols.filter (!g.defines ·)).map (.undefinedSymbol name)

def kindProblems (g : Grammar) : List Problem :=
  let unknown := g.nodeKinds.filter fun name => (NodeKind.ofName? name).isNone
  let uncovered := NodeKind.all.filter fun k => k != .error && !g.nodeKinds.contains k.name
  unknown.map (fun name => .unknownNodeKind (g.producer name) name)
    ++ uncovered.map fun k => .uncoveredNodeKind k.name

def overlapProblems (g : Grammar) : List Problem :=
  ((g.overlaps g.compile).filter fun o => o.resolution == .unresolved).map fun o =>
    .unresolvedOverlap o.rule o.first o.second o.tokens.describe

/-- Everything that is wrong with a grammar. -/
def problems (g : Grammar) : List Problem :=
  let reachable := g.reachable
  let productive := g.productive
  g.nameProblems
    ++ (g.names.filter (!reachable.contains ·)).map .unreachable
    ++ (g.names.filter (!productive.contains ·)).map .unproductive
    ++ g.kindProblems
    ++ ((g.precedences.map (·.rule)).filter (!g.defines ·)).map .unknownPrecedenceRule
    ++ ((g.conflicts.map (·.rule)).filter (!g.defines ·)).map .unknownConflictRule
    ++ g.overlapProblems

end Grammar

end AvroTree
