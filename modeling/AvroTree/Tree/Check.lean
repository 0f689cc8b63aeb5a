import AvroTree.Diagnostic
import AvroTree.Tree.Node

/-!
# Well-positioned trees

Children cover their parent from end to end, in order and without overlap.
-/

namespace AvroTree

namespace Node

/-- The first child that starts before its neighbour ends. -/
def overlap? : List Node → Option Node
  | a :: b :: rest =>
    if b.span.start.byte < a.span.stop.byte then some b else overlap? (b :: rest)
  | _ => none

/-- Whether the children reach from one end of the parent to the other. -/
def spans (n : Node) : Bool :=
  match n.children.head?, n.children.getLast? with
  | some first, some last =>
    first.span.start.byte == n.span.start.byte && last.span.stop.byte == n.span.stop.byte
  | _, _ => true

/-- Looks at one node and its children. -/
def checkHere (n : Node) : Except Diagnostic Unit :=
  if n.spans then
    match overlap? n.children with
    | some c => .error (.syntactic s!"children of {n.kind.name} overlap" c.span.start)
    | none => .ok ()
  else .error (.syntactic s!"children of {n.kind.name} do not span it" n.span.start)

mutual

/-- Finds the first node, in order of descent, whose children are out of place. -/
def check : Node → Except Diagnostic Unit
  | ⟨kind, span, field, children, isExtra, isMissing⟩ => do
    checkHere ⟨kind, span, field, children, isExtra, isMissing⟩
    checkAll children

def checkAll : List Node → Except Diagnostic Unit
  | [] => .ok ()
  | n :: rest => do
    n.check
    checkAll rest

end

end Node

end AvroTree
