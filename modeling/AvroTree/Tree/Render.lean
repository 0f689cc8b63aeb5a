import AvroTree.Diagnostic
import AvroTree.Json.Value
import AvroTree.Tree.Node

/-!
# Trees as text

The short form is an s-expression of the named nodes with their labels; the long form is a JSON
document with every node and its span.
-/

namespace AvroTree

def Point.toJson (p : Point) : Json :=
  .object [("column", .ofNat p.column), ("row", .ofNat p.row)]

def Span.toJson (s : Span) : Json :=
  .object [("end", s.stop.point.toJson), ("end_byte", .ofNat s.stop.byte),
    ("start", s.start.point.toJson), ("start_byte", .ofNat s.start.byte)]

namespace Node

/-- A missing node by its name, in quotes when it is anonymous. -/
def sexpMissing (kind : NodeKind) : String :=
  if kind.isNamed then s!"(MISSING {kind.name})" else s!"(MISSING \"{kind.name}\")"

mutual

def sexp : Node → String
  | ⟨kind, _, _, children, _, isMissing⟩ =>
    if isMissing then sexpMissing kind else "(" ++ kind.name ++ sexpList children ++ ")"

/-- The children that are shown, each behind a blank and its label. -/
def sexpList : List Node → String
  | [] => ""
  | n :: rest =>
    if n.isNamed || n.isMissing then
      let label := match n.field with
        | some f => f ++ ": "
        | none => ""
      " " ++ label ++ n.sexp ++ sexpList rest
    else sexpList rest

end

mutual

def toJson : Node → Json
  | ⟨kind, span, field, children, isExtra, isMissing⟩ =>
    let listed := if children.isEmpty then none else some (.array (listToJson children))
    .object (Json.member? "children" listed
      ++ Json.member? "field" (field.map .string)
      ++ Json.flag "is_extra" isExtra
      ++ Json.flag "is_missing" isMissing
      ++ [("kind", .string kind.name), ("range", span.toJson)])

def listToJson : List Node → List Json
  | [] => []
  | n :: rest => n.toJson :: listToJson rest

end

end Node

end AvroTree
