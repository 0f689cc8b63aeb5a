import AvroTree.Token.Kind

/-!
# Kinds of tree nodes

Tools look for nodes by the names given here. A mark or a keyword that only holds a construct
together is an anonymous node, named after its token.
-/

namespace AvroTree

inductive NodeKind where
  | program
  | schema
  | namespaceStatement
  | schemaDeclaration
  | protocolDeclaration
  | protocolBody
  | importDeclaration
  | importKind
  | recordDeclaration
  | errorDeclaration
  | recordBody
  | fieldDeclaration
  | enumDeclaration
  | enumBody
  | enumSymbol
  | enumDefault
  | fixedDeclaration
  | messageDeclaration
  | parameterList
  | parameter
  | throwsClause
  | oneway
  | voidType
  | annotationUse
  | primitiveType
  | logicalType
  | decimalType
  | arrayType
  | mapType
  | unionType
  | nullableType
  | typeReference
  | jsonObject
  | jsonPair
  | fieldList
  | symbolList
  | typeList
  | jsonValue
  | identifier
  | string
  | number
  | annotationName
  | comment
  | docComment
  /-- A stretch of text that fits nowhere in the grammar. -/
  | error
  /-- An anonymous token. -/
  | token (kind : Token.Kind)
deriving DecidableEq, Repr, Inhabited

namespace NodeKind

/-- Every named kind. -/
def all : List NodeKind :=
  [.program, .schema, .namespaceStatement, .schemaDeclaration, .protocolDeclaration,
   .protocolBody, .importDeclaration, .importKind, .recordDeclaration, .errorDeclaration,
   .recordBody, .fieldDeclaration, .enumDeclaration, .enumBody, .enumSymbol, .enumDefault,
   .fixedDeclaration, .messageDeclaration, .parameterList, .parameter, .throwsClause, .oneway,
   .voidType, .annotationUse, .primitiveType, .logicalType, .decimalType, .arrayType, .mapType,
   .unionType, .nullableType, .typeReference, .jsonObject, .jsonPair, .fieldList, .symbolList,
   .typeList, .jsonValue, .identifier, .string, .number, .annotationName, .comment, .docComment,
   .error]

def tokenName : Token.Kind → String
  | .keyword k => k.spelling
  | .punct p => p.spelling
  | .identifier => "identifier"
  | .string => "string"
  | .number => "number"
  | .jsonSpan => "json_value"
  | .atName => "annotation_name"
  | .comment => "comment"
  | .docComment => "doc_comment"
  | .eof => "end"
  | .error _ => "ERROR"

def name : NodeKind → String
  | .program => "program"
  | .schema => "schema"
  | .namespaceStatement => "namespace_statement"
  | .schemaDeclaration => "schema_declaration"
  | .protocolDeclaration => "protocol_declaration"
  | .protocolBody => "protocol_body"
  | .importDeclaration => "import_declaration"
  | .importKind => "import_kind"
  | .recordDeclaration => "record_declaration"
  | .errorDeclaration => "error_declaration"
  | .recordBody => "record_body"
  | .fieldDeclaration => "field_declaration"
  | .enumDeclaration => "enum_declaration"
  | .enumBody => "enum_body"
  | .enumSymbol => "enum_symbol"
  | .enumDefault => "enum_default"
  | .fixedDeclaration => "fixed_declaration"
  | .messageDeclaration => "message_declaration"
  | .parameterList => "parameter_list"
  | .parameter => "parameter"
  | .throwsClause => "throws_clause"
  | .oneway => "oneway"
  | .voidType => "void_type"
  | .annotationUse => "annotation"
  | .primitiveType => "primitive_type"
  | .logicalType => "logical_type"
  | .decimalType => "decimal_type"
  | .arrayType => "array_type"
  | .mapType => "map_type"
  | .unionType => "union_type"
  | .nullableType => "nullable_type"
  | .typeReference => "type_reference"
  | .jsonObject => "json_object"
  | .jsonPair => "json_pair"
  | .fieldList => "field_list"
  | .symbolList => "symbol_list"
  | .typeList => "type_list"
  | .jsonValue => "json_value"
  | .identifier => "identifier"
  | .string => "string"
  | .number => "number"
  | .annotationName => "annotation_name"
  | .comment => "comment"
  | .docComment => "doc_comment"
  | .error => "ERROR"
  | .token kind => tokenName kind

def ofName? (s : String) : Option NodeKind :=
  all.find? fun k => k.name == s

def isNamed : NodeKind → Bool
  | .token _ => false
  | _ => true

/-- The kind of leaf a token makes where no rule asks for a more special one. -/
def ofToken : Token.Kind → NodeKind
  | .identifier => .identifier
  | .string => .string
  | .number => .number
  | .jsonSpan => .jsonValue
  | .atName => .annotationName
  | .comment => .comment
  | .docComment => .docComment
  | .error _ => .error
  | kind => .token kind

end NodeKind

end AvroTree
