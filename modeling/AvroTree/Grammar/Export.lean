import AvroTree.Grammar.Basic
import AvroTree.Json.Value

/-!
# Grammars as documents

The JSON form that grammar tools exchange. The last definition of a rule is the one that is
written.
-/

namespace AvroTree

/-- The name under which a token of the lexer is listed. -/
def Token.Kind.externalName : Token.Kind → String
  | .identifier => "_identifier"
  | .string => "_string"
  | .number => "_number"
  | .jsonSpan => "_json_span"
  | .atName => "_annotation_marker"
  | .comment => "_comment"
  | .docComment => "_doc_comment"
  | .eof => "_eof"
  | .error _ => "_error"
  | .keyword k => k.spelling
  | .punct p => p.spelling

namespace Rule

def symbolJson (name : String) : Json :=
  .object [("name", .string name), ("type", .string "SYMBOL")]

def literalJson (value : String) : Json :=
  .object [("type", .string "STRING"), ("value", .string value)]

def tokenJson : Token.Kind → Json
  | .keyword k => literalJson k.spelling
  | .punct p => literalJson p.spelling
  | kind => symbolJson kind.externalName

mutual

def toJson : Rule → Json
  | .seq members => .object [("members", .array (listJson members)), ("type", .string "SEQ")]
  | .choice members => .object [("members", .array (listJson members)), ("type", .string "CHOICE")]
  | .many inner => .object [("content", inner.toJson), ("type", .string "REPEAT")]
  | .many1 inner => .object [("content", inner.toJson), ("type", .string "REPEAT1")]
  | .optional inner =>
    .object [("members", .array [inner.toJson, .object [("type", .string "BLANK")]]),
      ("type", .string "CHOICE")]
  | .token kind => tokenJson kind
  | .symbol name => symbolJson name
  | .field name inner =>
    .object [("content", inner.toJson), ("name", .string name), ("type", .string "FIELD")]
  | .renamed inner name =>
    .object [("content", inner.toJson), ("named", .bool true), ("type", .string "ALIAS"),
      ("value", .string name)]

def listJson : List Rule → List Json
  | [] => []
  | r :: rest => r.toJson :: listJson rest

end

end Rule

def Precedence.toJson (p : Precedence) : Json :=
  .object [("assoc", .string p.associativity.key), ("construct", .string p.construct),
    ("level", .ofInt p.level), ("rule", .string p.rule)]

def Grammar.toJson (g : Grammar) : Json :=
  let rules := (sortNames g.names).filterMap fun name =>
    (g.lastRule? name).map fun r => (name, r.toJson)
  .object [
    ("conflicts", .array (g.conflicts.map fun c => .strings [c.rule])),
    ("externals", .array (g.externals.map fun k => Rule.symbolJson k.externalName)),
    ("extras", .array (g.extras.map Rule.symbolJson)),
    ("name", .string g.name),
    ("precedences", .array (g.precedences.map Precedence.toJson)),
    ("rules", .object rules),
    ("supertypes", .array []),
    ("word", (g.word.map .string).getD .null)]

end AvroTree
