import AvroTree.Grammar.Avro
import AvroTree.Parse.Parser

/-!
# JSON schemas

A schema is a string, an object or an array of schemas. What an object declares is known only when
its members have been read: a member `"type": "record"` makes it a record, a member `"protocol"` a
protocol, and so on. Members that hold schemas or lists of them are taken apart, all others stay
whole.
-/

namespace AvroTree

namespace Parse

def First.schemaValue : TokenSet := Grammar.avroTable.first "_schema_value"

namespace Schema

open AvroTree.Parse.Parser

/-- The members that are labelled with their names. -/
def knownKeys : List String :=
  ["name", "namespace", "type", "fields", "symbols", "items", "values", "size", "default", "doc",
   "aliases", "logicalType", "precision", "scale", "types", "protocol", "messages", "order"]

/-- A text without the double quotes around it, if it has them. -/
def unquote (cs : List Char) : List Char :=
  match cs with
  | '"' :: rest => if rest.getLast? = some '"' then rest.dropLast else cs
  | _ => cs

/-- The text of a span without quotes. -/
def unquoted (source : List Char) (span : Span) : String :=
  String.ofList (unquote ((Text.slice? source span.start.byte span.stop.byte).getD []))

/-- The text of the next token, which has been peeked at, without quotes. -/
def unquotedAhead : Parser String := do
  return String.ofList (unquote (← get).textAhead)

def isPrimitiveName (name : String) : Bool :=
  ((Keyword.ofSpelling? name).map Keyword.isPrimitive).getD false

/-- What a schema that is just a name stands for. -/
def nameKind (name : String) : NodeKind :=
  if isPrimitiveName name then .primitiveType
  else if ["record", "error", "enum", "fixed", "array", "map", "protocol"].contains name then
    .jsonValue
  else .typeReference

/-- The declared type of an object, if it is written as a plain value. -/
def typeName? (source : List Char) (members : List Node) : Option String := do
  let pair ← members.find? fun m => m.field == some "type"
  let value ← pair.childNamed? "value"
  if value.kind = .jsonValue ∨ value.kind = .primitiveType then
    return unquoted source value.span
  else none

/-- What an object declares. -/
def objectKind (source : List Char) (members : List Node) : NodeKind :=
  let has (key : String) := members.any fun m => m.kind == .jsonPair && m.field == some key
  if has "protocol" then .protocolDeclaration
  else if has "logicalType" then .logicalType
  else
    match typeName? source members with
    | some "record" => .recordDeclaration
    | some "error" => .errorDeclaration
    | some "enum" => .enumDeclaration
    | some "fixed" => .fixedDeclaration
    | some "array" => .arrayType
    | some "map" => .mapType
    | some name => if isPrimitiveName name then .primitiveType else .jsonObject
    | none => .jsonObject

/-- Elements in square brackets. -/
def brackets (kind : NodeKind) (first : TokenSet) (element : TokenSet → Parser (List Node))
    (sync : TokenSet) : Parser Node := do
  let opening ← bump (.token (.punct .lBracket))
  let items ← list sync ⟨.rBracket, first, true⟩ element
  branch kind (opening ++ items)

/-- The readers for what may stand inside a pair of brackets. -/
structure Level where
  /-- Reads a schema. -/
  value : TokenSet → Parser Node
  /-- Reads an object of a kind, or of the kind its members make it. -/
  object : Option NodeKind → TokenSet → Parser Node

/-- Goes one level deeper, if there is one left. -/
def deeper {α : Type} (inner : Option Level) (k : Level → Parser α) : Parser α := do
  match inner with
  | some level => k level
  | none => tooDeep (← here)

/-- A schema. Its first token has been checked. -/
def value (inner : Option Level) (sync : TokenSet) : Parser Node := do
  let t ← peek First.schemaValue
  match t.kind with
  | .punct .lBrace => deeper inner fun level => level.object none sync
  | .punct .lBracket =>
    deeper inner fun level =>
      brackets .unionType First.schemaValue (fun sync => do return [← level.value sync]) sync
  | _ => leaf (nameKind (← unquotedAhead))

/-- A value that is kept whole. -/
def wholeMember (sync : TokenSet) : Parser (List Node) :=
  expect sync .jsonSpan (some "value")

/-- A member that should be a schema. -/
def schemaMember (inner : Option Level) (sync : TokenSet) : Parser (List Node) := do
  if First.schemaValue.contains (← peek First.schemaValue).kind then
    let extras ← flush
    return extras ++ [(← value inner sync).label (some "value")]
  else
    wholeMember sync

/-- A member that should be a list. -/
def listMember (inner : Option Level) (kind : NodeKind) (first : TokenSet)
    (element : Level → TokenSet → Parser (List Node)) (sync : TokenSet) : Parser (List Node) := do
  if ← nextIs (.punct .lBracket) then
    let extras ← flush
    let items ← deeper inner fun level => brackets kind first (element level) sync
    return extras ++ [items.label (some "value")]
  else
    wholeMember sync

/-- The value of the member called `key`. -/
def member (inner : Option Level) (key : String) (sync : TokenSet) : Parser (List Node) :=
  match key with
  | "type" | "items" | "values" => schemaMember inner sync
  | "fields" =>
    listMember inner .fieldList (.single (.punct .lBrace))
      (fun level sync => do return [← level.object (some .fieldDeclaration) sync]) sync
  | "symbols" => listMember inner .symbolList (.single .string) (fun _ _ => bump .enumSymbol) sync
  | "types" =>
    listMember inner .typeList First.schemaValue
      (fun level sync => do return [← level.value sync]) sync
  | _ => wholeMember sync

/-- A key and its value. Its first token has been checked. -/
def pair (inner : Option Level) (sync : TokenSet) : Parser Node := do
  let extras ← flush
  let name ← unquotedAhead
  let key ← leaf .string
  let colon ← expect sync (.punct .colon)
  let value ← member inner name sync
  let node ← branch .jsonPair (extras ++ key.label (some "key") :: colon ++ value)
  return node.label (knownKeys.find? (· == name))

/-- An object. Its first token has been checked. -/
def object (inner : Option Level) (kind : Option NodeKind) (sync : TokenSet) : Parser Node := do
  let opening ← bump (.token (.punct .lBrace))
  let members ← list sync ⟨.rBrace, .single .string, true⟩ fun sync => do
    return [← pair inner sync]
  let children := opening ++ members
  branch (kind.getD (objectKind (← get).source children)) children

/-- The readers for what may nest `levels` deep. -/
def level : (levels : Nat) → Level
  | 0 => ⟨value none, object none⟩
  | levels + 1 => ⟨value (some (level levels)), object (some (level levels))⟩

/-- Skips what stands behind the schema. -/
def trailing : Parser (List Node) :=
  gather fun nodes => do
    if (← peek (.single .eof)).kind = .eof then return (false, nodes)
    else return (true, nodes ++ (← skip (.single .eof)))

/-- A whole file. -/
def file : Parser Node := do
  let sync := TokenSet.single .eof
  let (found, skipped) ← recoverTo sync First.schemaValue
  let schema ←
    if found then do
      let extras ← flush
      pure (extras ++ [← (level (← get).maxDepth).value sync])
    else do pure [← missing .jsonObject "schema"]
  let rest ← trailing
  let extras ← flush
  branch .schema (skipped ++ schema ++ rest ++ extras)

end Schema

end Parse

end AvroTree
