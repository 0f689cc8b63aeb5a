import AvroTree.Grammar.First

/-!
# The grammar of Avro

The rules of the interface language start at `program`, those of JSON schemas at `schema`. The
precedences and conflicts say how a reader settles the overlaps of the rules; nothing here reads
them.
-/

namespace AvroTree

namespace Grammar

open Rule (keyword mark commas commas1 commasTrailing)

private def sym (name : String) : Rule :=
  .symbol name

private def annotationsRule : Rule :=
  .many (sym "annotation")

/-- A default behind an equals sign. -/
private def defaultRule : Rule :=
  .optional (.seq [mark .equals, .field "default" (sym "json_value")])

private def nameField : Rule :=
  .field "name" (sym "identifier")

def idlRules : List (String × Rule) :=
  [("program", .many (sym "_declaration")),
   ("_declaration", .choice
     [sym "namespace_statement", sym "schema_declaration", sym "protocol_declaration",
      sym "import_declaration", sym "record_declaration", sym "error_declaration",
      sym "enum_declaration", sym "fixed_declaration", sym "message_declaration"]),
   ("namespace_statement", .seq [keyword .nameSpace, nameField, mark .semicolon]),
   ("schema_declaration", .seq [keyword .schema, .field "type" (sym "_type"), mark .semicolon]),
   ("protocol_declaration", .seq
     [annotationsRule, keyword .protocol, nameField, .field "body" (sym "protocol_body")]),
   ("protocol_body", .seq [mark .lBrace, .many (sym "_protocol_member"), mark .rBrace]),
   ("_protocol_member", .choice
     [sym "import_declaration", sym "record_declaration", sym "error_declaration",
      sym "enum_declaration", sym "fixed_declaration", sym "message_declaration"]),
   ("import_declaration", .seq
     [keyword .importFile, .field "kind" (sym "import_kind"), .field "path" (sym "string"),
      mark .semicolon]),
   ("import_kind", .choice [keyword .protocol, keyword .schema, .token .identifier]),
   ("record_declaration", .seq
     [annotationsRule, keyword .record, nameField, .field "body" (sym "record_body")]),
   ("error_declaration", .seq
     [annotationsRule, keyword .error, nameField, .field "body" (sym "record_body")]),
   ("record_body", .seq [mark .lBrace, .many (sym "field_declaration"), mark .rBrace]),
   ("field_declaration", .seq
     [.field "type" (sym "_type"), sym "_variable", .many (.seq [mark .comma, sym "_variable"]),
      mark .semicolon]),
   ("_variable", .seq [annotationsRule, nameField, defaultRule]),
   ("enum_declaration", .seq
     [annotationsRule, keyword .enum, nameField, .field "body" (sym "enum_body"),
      .optional (.field "default" (sym "enum_default"))]),
   ("enum_body", .seq [mark .lBrace, commasTrailing (sym "enum_symbol"), mark .rBrace]),
   ("enum_symbol", .token .identifier),
   ("enum_default", .seq
     [mark .equals, .field "value" (sym "identifier"), mark .semicolon]),
   ("fixed_declaration", .seq
     [annotationsRule, keyword .fixed, nameField, mark .lParen, .field "size" (sym "number"),
      mark .rParen, mark .semicolon]),
   ("message_declaration", .seq
     [annotationsRule, .field "return" (sym "_return_type"), nameField,
      .field "parameters" (sym "parameter_list"),
      .optional (.choice [sym "throws_clause", sym "oneway"]), mark .semicolon]),
   ("_return_type", .choice [sym "void_type", sym "_type"]),
   ("void_type", keyword .void),
   ("oneway", keyword .oneway),
   ("parameter_list", .seq [mark .lParen, commas (sym "parameter"), mark .rParen]),
   ("parameter", .seq [.field "type" (sym "_type"), nameField, defaultRule]),
   ("throws_clause", .seq [keyword .throws, commas1 (sym "type_reference")]),
   ("annotation", .seq
     [.field "name" (sym "annotation_name"), mark .lParen, .field "value" (sym "json_value"),
      mark .rParen]),
   ("annotation_name", .token .atName),
   ("_type", .choice [sym "_annotated_type", sym "_unannotated_type"]),
   ("_annotated_type", .seq [sym "annotation", sym "_type"]),
   ("_unannotated_type", .choice [sym "nullable_type", sym "_base_type"]),
   ("nullable_type", .seq [sym "_base_type", mark .question]),
   ("_base_type", .choice
     [sym "primitive_type", sym "logical_type", sym "decimal_type", sym "array_type",
      sym "map_type", sym "union_type", sym "type_reference"]),
   ("primitive_type", .choice (Keyword.primitives.map keyword)),
   ("logical_type", .choice (Keyword.logicals.map keyword)),
   ("decimal_type", .seq
     [keyword .decimal, mark .lParen, .field "precision" (sym "number"),
      .optional (.seq [mark .comma, .field "scale" (sym "number")]), mark .rParen]),
   ("array_type", .seq
     [keyword .array, mark .lAngle, .field "items" (sym "_type"), mark .rAngle]),
   ("map_type", .seq
     [keyword .map, mark .lAngle, .field "values" (sym "_type"), mark .rAngle]),
   ("union_type", .seq [keyword .union, mark .lBrace, commas (sym "_type"), mark .rBrace]),
   ("type_reference", .token .identifier)]

private def object : Rule :=
  sym "_json_object"

def schemaRules : List (String × Rule) :=
  [("schema", sym "_schema_value"),
   ("_schema_value", .choice
     [.renamed (sym "string") "primitive_type", .renamed (sym "string") "type_reference",
      .renamed object "record_declaration", .renamed object "error_declaration",
      .renamed object "enum_declaration", .renamed object "fixed_declaration",
      .renamed object "array_type", .renamed object "map_type", .renamed object "logical_type",
      .renamed object "primitive_type", .renamed object "protocol_declaration",
      .renamed object "json_object", .renamed (sym "_json_array") "union_type"]),
   ("_json_object", .seq [mark .lBrace, commasTrailing (sym "json_pair"), mark .rBrace]),
   ("_json_array", .seq [mark .lBracket, commasTrailing (sym "_schema_value"), mark .rBracket]),
   ("json_pair", .seq
     [.field "key" (sym "string"), mark .colon, .field "value" (sym "_json_member_value")]),
   ("_json_member_value", .choice
     [sym "_schema_value", sym "field_list", sym "symbol_list", sym "type_list",
      sym "json_value"]),
   ("field_list", .seq
     [mark .lBracket, commasTrailing (.renamed object "field_declaration"), mark .rBracket]),
   ("symbol_list", .seq
     [mark .lBracket, commasTrailing (.renamed (sym "string") "enum_symbol"), mark .rBracket]),
   ("type_list", .seq [mark .lBracket, commasTrailing (sym "_schema_value"), mark .rBracket])]

def leafRules : List (String × Rule) :=
  [("identifier", .token .identifier),
   ("string", .token .string),
   ("number", .token .number),
   ("json_value", .token .jsonSpan),
   ("comment", .token .comment),
   ("doc_comment", .token .docComment)]

/-- The precedence of a declaration that annotations may stand in front of. -/
private def memberPrecedence (rule : String) : Precedence :=
  ⟨rule, 9, .none,
    "annotations in front of a protocol member belong to that member: "
      ++ "`@aliases([\"Old\"]) record R \x7b\x7d` annotates R, not the declaration before it"⟩

def avroPrecedences : List Precedence :=
  [⟨"annotation", 8, .none,
     "`int @order(\"ignore\") x = 1;` the annotation binds to the variable "
       ++ "`x` before the `= 1` default is considered"⟩,
   ⟨"nullable_type", 7, .left,
     "`@java-class(\"X\") string?` the `?` applies to `string` only; the "
       ++ "annotation wraps the nullable type from outside"⟩,
   ⟨"_annotated_type", 6, .right,
     "`@a(1) @b(2) T` annotations nest to the right over the type they prefix"⟩,
   ⟨"_variable", 0, .right,
     "`string s = \"a\";` the default assignment binds loosest and to the right"⟩,
   ⟨"parameter", 0, .right,
     "`void ping(int n = 1)` parameter defaults bind like field defaults"⟩,
   ⟨"enum_body", -1, .none,
     "`enum E \x7b A, B, \x7d` a `,` followed by `\x7d` closes the symbol list "
       ++ "instead of expecting another symbol"⟩,
   ⟨"_json_object", -1, .none,
     "`\x7b\"name\": \"A\",\x7d` a `,` followed by `\x7d` closes the object instead of "
       ++ "expecting another member"⟩,
   ⟨"_json_array", -1, .none,
     "`[\"null\", \"int\",]` a `,` followed by `]` closes the union"⟩,
   memberPrecedence "protocol_declaration",
   memberPrecedence "record_declaration",
   memberPrecedence "error_declaration",
   memberPrecedence "enum_declaration",
   memberPrecedence "fixed_declaration",
   memberPrecedence "message_declaration"]

def avroConflicts : List Conflict :=
  [⟨"_declaration",
     "every annotatable declaration starts with `@name(...)`; the parser reads "
       ++ "the annotations first and dispatches on the keyword after them"⟩,
   ⟨"_protocol_member",
     "as for top-level declarations, annotations precede the keyword or the "
       ++ "return type of a message"⟩,
   ⟨"_schema_value",
     "JSON schema kinds share `\x7b` and string openers; the parser classifies an "
       ++ "object by its \"type\" member and a string by its content"⟩,
   ⟨"_json_member_value",
     "arrays under \"fields\", \"symbols\" and \"types\" are lists, elsewhere "
       ++ "an array is a union; the member key decides"⟩]

def avro : Grammar where
  name := "avro"
  starts := ["program", "schema"]
  rules := idlRules ++ schemaRules ++ leafRules
  extras := ["comment", "doc_comment"]
  word := some "identifier"
  externals :=
    [.identifier, .string, .number, .jsonSpan, .atName, .comment, .docComment,
     .error .unexpectedCharacter]
  precedences := avroPrecedences
  conflicts := avroConflicts

/-- What the rules of Avro can start with. -/
def avroTable : Table :=
  avro.compile

end Grammar

end AvroTree
