import AvroTree.Grammar.First

/-!
# Overlapping alternatives

Two alternatives of a choice overlap when they can start with the same token. Different precedence
levels settle an overlap, and so does a declared conflict of the rule it is in.
-/

namespace AvroTree

namespace Grammar

inductive Resolution where
  | precedence | declared | unresolved
deriving DecidableEq, Repr, Inhabited

def Resolution.key : Resolution → String
  | .precedence => "precedence"
  | .declared => "declared"
  | .unresolved => "unresolved"

structure Overlap where
  rule : String
  first : String
  second : String
  tokens : TokenSet
  resolution : Resolution
deriving DecidableEq, Repr, Inhabited

/-- How an alternative is spoken of: by its renaming, by the rule it stands for or by its place. -/
def alternativeLabel (r : Rule) (index : Nat) : String :=
  match r with
  | .renamed _ name => name
  | _ => r.target?.getD s!"alternative #{index + 1}"

/-- The level of the rule that an alternative stands for. -/
def alternativeLevel (g : Grammar) (r : Rule) : Int :=
  (r.target?.map g.level).getD 0

def resolve (g : Grammar) (rule : String) (a b : Rule) : Resolution :=
  if g.alternativeLevel a ≠ g.alternativeLevel b then .precedence
  else if g.conflicts.any fun c => c.rule == rule then .declared
  else .unresolved

/-- The overlaps of the alternative at place `i` with the ones behind it. -/
def overlapsWith (g : Grammar) (t : Table) (rule : String) (i : Nat) (a : Rule)
    (later : List (Rule × Nat)) : List Overlap :=
  later.filterMap fun (b, j) =>
    let tokens := (t.ofRule a).tokens ∩ (t.ofRule b).tokens
    if tokens.isEmpty then none
    else some ⟨rule, alternativeLabel a i, alternativeLabel b j, tokens, g.resolve rule a b⟩

/-- The overlaps among numbered alternatives. -/
def overlapsAmong (g : Grammar) (t : Table) (rule : String) : List (Rule × Nat) → List Overlap
  | [] => []
  | (a, i) :: later => g.overlapsWith t rule i a later ++ g.overlapsAmong t rule later

/-- The overlaps of all choices of all rules. -/
def overlaps (g : Grammar) (t : Table) : List Overlap :=
  g.rules.flatMap fun (name, r) =>
    r.choices.flatMap fun members => g.overlapsAmong t name members.zipIdx

end Grammar

end AvroTree
