import AvroTree.Grammar.Avro
import AvroTree.Parse.Parser

/-!
# The interface language

The constructs of the interface language from types up to whole files. Types are the only ones that
hold themselves, so they are read with the number of levels that are left.
-/

namespace AvroTree

namespace Parse

namespace First

/-! ## What constructs start with -/

def declaration : TokenSet := Grammar.avroTable.first "_declaration"

def protocolMember : TokenSet := Grammar.avroTable.first "_protocol_member"

def returnType : TokenSet := Grammar.avroTable.first "_return_type"

def importKind : TokenSet := Grammar.avroTable.first "import_kind"

def fieldDeclaration : TokenSet := Grammar.avroTable.first "field_declaration"

def parameter : TokenSet := Grammar.avroTable.first "parameter"

def type : TokenSet := Grammar.avroTable.first "_type"

def baseType : TokenSet := Grammar.avroTable.first "_base_type"

end First

namespace Idl

open AvroTree.Parse.Parser

private def markSet (p : Punct) : TokenSet :=
  .single (.punct p)

/-! ## Annotations and types -/

/-- An annotation: its mark and a JSON value in parentheses. -/
def annotationUse (sync : TokenSet) : Parser Node := do
  let name ← bump .annotationName (some "name")
  let inner := sync ∪ markSet .rParen
  let opening ← expect inner (.punct .lParen)
  let value ← expect inner .jsonSpan (some "value")
  let closing ← expect sync (.punct .rParen)
  branch .annotationUse (name ++ opening ++ value ++ closing)

/-- The annotations in front of something. -/
def annotations (sync : TokenSet) : Parser (List Node) :=
  gather fun nodes => do
    if ← nextIs .atName then
      let extras ← flush
      return (true, (nodes ++ extras).push (← annotationUse sync))
    else
      return (false, nodes)

/-- Reads the type inside another, labelled with a field. -/
abbrev TypeReader := TokenSet → Option String → Parser (List Node)

def decimalType (sync : TokenSet) : Parser Node := do
  let word ← leaf (.token (.keyword .decimal))
  let inner := sync ∪ markSet .rParen
  let opening ← expect inner (.punct .lParen)
  let precision ← expect inner .number (some "precision")
  let scale ←
    if ← nextIs (.punct .comma) then do
      let comma ← bump (.token (.punct .comma))
      pure (comma ++ (← expect inner .number (some "scale")))
    else pure []
  let closing ← expect sync (.punct .rParen)
  branch .decimalType (word :: opening ++ precision ++ scale ++ closing)

/-- An array or a map: a keyword and a type in angles. -/
def container (type : TypeReader) (kind : NodeKind) (field : String) (word : Keyword)
    (sync : TokenSet) : Parser Node := do
  let word ← leaf (.token (.keyword word))
  let inner := sync ∪ markSet .rAngle
  let opening ← expect inner (.punct .lAngle)
  let item ← type inner (some field)
  let closing ← expect sync (.punct .rAngle)
  branch kind (word :: opening ++ item ++ closing)

def unionType (type : TypeReader) (sync : TokenSet) : Parser Node := do
  let word ← leaf (.token (.keyword .union))
  let (opened, opening) ← expect? sync (.punct .lBrace)
  let members ←
    if opened then list sync ⟨.rBrace, First.type, false⟩ fun sync => type sync none
    else pure []
  branch .unionType (word :: opening ++ members)

/-- A type without annotations and question mark. -/
def baseType (type : TypeReader) (sync : TokenSet) : Parser Node := do
  match (← peek First.baseType).kind with
  | .keyword .decimal => decimalType sync
  | .keyword .array => container type .arrayType "items" .array sync
  | .keyword .map => container type .mapType "values" .map sync
  | .keyword .union => unionType type sync
  | .keyword k =>
    if k.isPrimitive then leaf .primitiveType
    else if k.isLogical then leaf .logicalType
    else leaf .typeReference
  | _ => leaf .typeReference

/-- A type that may be marked to allow null. -/
def nullableType (type : TypeReader) (sync : TokenSet) : Parser Node := do
  let base ← baseType type sync
  if ← nextIs (.punct .question) then
    let question ← bump (.token (.punct .question))
    branch .nullableType (base :: question)
  else
    return base

/-- A type behind its annotations, read by `unannotated`; what is no type is missing one. -/
def annotatedType (unannotated : TokenSet → Parser Node) : TypeReader := fun sync field => do
  let (started, skipped) ← recoverTo sync First.type
  if started then
    let notes ← annotations sync
    let (found, more) ← recoverTo sync First.baseType
    if found then
      let extras ← flush
      let type ← unannotated sync
      return skipped ++ notes ++ more ++ extras ++ [type.label field]
    else
      return skipped ++ notes ++ more ++ [(← missing .typeReference "type").label field]
  else
    return skipped ++ [(← missing .typeReference "type").label field]

/-- A type that may hold types `levels` deep. -/
def typeAt : (levels : Nat) → TypeReader
  | 0 => annotatedType fun _ => do tooDeep (← here)
  | levels + 1 => annotatedType (nullableType (typeAt levels))

/-- A type as deep as the settings allow. -/
def type : TypeReader := fun sync field => do
  typeAt (← get).maxDepth sync field

/-! ## Fields and messages -/

def defaultValue (sync : TokenSet) : Parser (List Node) := do
  if ← nextIs (.punct .equals) then
    let equals ← bump (.token (.punct .equals))
    return equals ++ (← expect sync .jsonSpan (some "default"))
  else
    return []

/-- A name with its annotations and its default. -/
def namedVariable (sync : TokenSet) : Parser (List Node) := do
  let notes ← annotations sync
  let name ← expect sync .identifier (some "name")
  return notes ++ name ++ (← defaultValue sync)

def fieldDeclaration (sync : TokenSet) : Parser Node := do
  let type ← type sync (some "type")
  let inner := sync ∪ .ofList [.punct .comma, .punct .semicolon]
  let first ← namedVariable inner
  let more ← gather fun nodes => do
    if ← nextIs (.punct .comma) then
      let comma ← bump (.token (.punct .comma))
      return (true, nodes ++ comma ++ (← namedVariable inner))
    else
      return (false, nodes)
  let closing ← expect sync (.punct .semicolon)
  branch .fieldDeclaration (type ++ first ++ more ++ closing)

def parameter (sync : TokenSet) : Parser Node := do
  let type ← type sync (some "type")
  let name ← expect sync .identifier (some "name")
  let value ← defaultValue sync
  branch .parameter (type ++ name ++ value)

def parameterList (sync : TokenSet) : Parser Node := do
  let (opened, opening) ← expect? sync (.punct .lParen)
  let parameters ←
    if opened then
      list sync ⟨.rParen, First.parameter, false⟩ fun sync => do return [← parameter sync]
    else pure []
  branch .parameterList (opening ++ parameters)

/-- The errors that a message may end in. -/
def throwsClause (sync : TokenSet) : Parser Node := do
  let word ← bump (.token (.keyword .throws))
  let inner := sync ∪ markSet .comma
  let names ← gather fun nodes => do
    let (_, name) ← expectAs? inner .identifier .typeReference none
    if ← nextIs (.punct .comma) then
      return (true, nodes ++ name ++ (← bump (.token (.punct .comma))))
    else
      return (false, nodes ++ name)
  branch .throwsClause (word ++ names)

def message (sync : TokenSet) : Parser (List Node) := do
  let result ←
    if ← nextIs (.keyword .void) then bump .voidType (some "return")
    else type sync (some "return")
  let name ← expect sync .identifier (some "name")
  let parameters := (← parameterList sync).label (some "parameters")
  let t ← peek (.ofList [.keyword .throws, .keyword .oneway, .punct .semicolon])
  let clause ←
    match t.kind with
    | .keyword .throws => do
      let extras ← flush
      pure (extras ++ [← throwsClause sync])
    | .keyword .oneway => bump .oneway
    | _ => pure []
  let closing ← expect sync (.punct .semicolon)
  return result ++ name ++ [parameters] ++ clause ++ closing

/-! ## Declarations -/

/-- How the body of a record or protocol is read. -/
structure BodyForm where
  kind : NodeKind
  /-- The tokens an element starts with. -/
  first : TokenSet
  /-- More tokens at which the body can go on. -/
  alsoSync : TokenSet

/-- The tokens at which a body can go on. -/
def BodyForm.continues (f : BodyForm) : TokenSet :=
  f.first.insert (.punct .rBrace) ∪ f.alsoSync

/-- Reads one element of a body or its closing brace. -/
def bodyStep (sync : TokenSet) (form : BodyForm) (element : Parser Node) (nodes : Array Node) :
    Parser (Bool × Array Node) := do
  let stop := form.continues ∪ sync
  let t ← peek stop
  if t.kind = .punct .rBrace then
    return (false, nodes ++ (← bump (.token (.punct .rBrace))))
  else if form.first.contains t.kind then
    let extras ← flush
    let before := (← get).cursor.place.byte
    let item ← element
    let skipped ← if (← get).cursor.place.byte = before then skip stop else pure []
    return (true, (nodes ++ extras).push item ++ skipped)
  else if t.kind = .eof ∨ sync.contains t.kind then
    return (false, nodes.push (← missing (.token (.punct .rBrace)) "`\x7d`"))
  else
    return (true, nodes ++ (← skip stop))

/-- Elements in braces. Without the opening brace the body is left out, unless an element
follows. -/
def body (sync : TokenSet) (form : BodyForm) (element : TokenSet → Parser Node) : Parser Node := do
  let (opened, opening) ← expect? sync (.punct .lBrace)
  let present ←
    if opened then pure true
    else do pure (form.first.contains (← peek (form.first ∪ sync)).kind)
  if present then
    branch form.kind (← gather (bodyStep sync form (element (sync ∪ form.continues))) opening)
  else
    branch form.kind opening

def enumBody (sync : TokenSet) : Parser Node := do
  let (opened, opening) ← expect? sync (.punct .lBrace)
  let symbols ←
    if opened then
      list sync ⟨.rBrace, .single .identifier, true⟩ fun _ => bump .enumSymbol
    else pure []
  branch .enumBody (opening ++ symbols)

def enumDefault (sync : TokenSet) : Parser Node := do
  let equals ← bump (.token (.punct .equals))
  let value ← expect sync .identifier (some "value")
  let closing ← expect sync (.punct .semicolon)
  branch .enumDefault (equals ++ value ++ closing)

/-- What a declaration turns out to be, by the token behind its annotations. A protocol holds no
protocols, no namespaces and no main schema. -/
def headKind? (top : Bool) : Token.Kind → Option NodeKind
  | .keyword .nameSpace => if top then some .namespaceStatement else none
  | .keyword .schema => if top then some .schemaDeclaration else none
  | .keyword .protocol => if top then some .protocolDeclaration else none
  | .keyword .importFile => some .importDeclaration
  | .keyword .record => some .recordDeclaration
  | .keyword .error => some .errorDeclaration
  | .keyword .enum => some .enumDeclaration
  | .keyword .fixed => some .fixedDeclaration
  | kind => if First.returnType.contains kind then some .messageDeclaration else none

/-- Whether annotations may stand in front of a declaration. -/
def annotatable : NodeKind → Bool
  | .namespaceStatement | .schemaDeclaration | .importDeclaration => false
  | _ => true

/-- The annotations in front of a declaration that takes none become an error. -/
def settleAnnotations (kind : NodeKind) (notes : List Node) : Parser (List Node) := do
  if annotatable kind || notes.isEmpty then
    return notes
  else
    let wrapped ← branch .error notes
    complain (.syntactic s!"{kind.name} cannot be annotated" wrapped.span.start)
    return [wrapped]

def importRest (sync : TokenSet) : Parser (List Node) := do
  let (found, skipped) ← recoverTo sync First.importKind
  let kind ←
    if found then bump .importKind (some "kind")
    else do pure [(← missing .importKind "import kind").label (some "kind")]
  let path ← expect sync .string (some "path")
  let closing ← expect sync (.punct .semicolon)
  return skipped ++ kind ++ path ++ closing

def recordRest (sync : TokenSet) : Parser (List Node) := do
  let name ← expect sync .identifier (some "name")
  let form : BodyForm := ⟨.recordBody, First.fieldDeclaration, markSet .semicolon⟩
  let body ← body sync form fieldDeclaration
  return name ++ [body.label (some "body")]

def enumRest (sync : TokenSet) : Parser (List Node) := do
  let name ← expect sync .identifier (some "name")
  let body ← enumBody sync
  let default ←
    if ← nextIs (.punct .equals) then do
      let extras ← flush
      pure (extras ++ [(← enumDefault sync).label (some "default")])
    else pure []
  return name ++ [body.label (some "body")] ++ default

def fixedRest (sync : TokenSet) : Parser (List Node) := do
  let name ← expect sync .identifier (some "name")
  let inner := sync ∪ markSet .semicolon
  let opening ← expect inner (.punct .lParen)
  let size ← expect inner .number (some "size")
  let closing ← expect inner (.punct .rParen)
  return name ++ opening ++ size ++ closing ++ (← expect sync (.punct .semicolon))

/-- What follows the keyword of a declaration. `protocolRest` reads what follows `protocol`. -/
def declarationRest (protocolRest : TokenSet → Parser (List Node)) (kind : NodeKind)
    (sync : TokenSet) : Parser (List Node) := do
  match kind with
  | .namespaceStatement =>
    let name ← expect sync .identifier (some "name")
    return name ++ (← expect sync (.punct .semicolon))
  | .schemaDeclaration =>
    let type ← type sync (some "type")
    return type ++ (← expect sync (.punct .semicolon))
  | .protocolDeclaration => protocolRest sync
  | .importDeclaration => importRest sync
  | .enumDeclaration => enumRest sync
  | .fixedDeclaration => fixedRest sync
  | _ => recordRest sync

/-- One declaration with its annotations. Annotations with nothing behind them are an error. -/
def declarationWith (top : Bool) (protocolRest : TokenSet → Parser (List Node))
    (sync : TokenSet) : Parser Node := do
  let notes ← annotations sync
  let heads := if top then First.declaration else First.protocolMember
  let t ← peek (heads ∪ sync)
  match headKind? top t.kind with
  | none =>
    let place ← here
    complain (.syntactic "annotations must be followed by a declaration" place)
    return .branch .error notes place
  | some kind =>
    let notes ← settleAnnotations kind notes
    let rest ←
      if kind = .messageDeclaration then message sync
      else do
        let word ← bump (.token t.kind)
        pure (word ++ (← declarationRest protocolRest kind sync))
    branch kind (notes ++ rest)

/-- A declaration inside a protocol. -/
def protocolMember (sync : TokenSet) : Parser Node :=
  declarationWith false (fun _ => pure []) sync

def protocolRest (sync : TokenSet) : Parser (List Node) := do
  let name ← expect sync .identifier (some "name")
  let body ← body sync ⟨.protocolBody, First.protocolMember, .empty⟩ protocolMember
  return name ++ [body.label (some "body")]

/-- A declaration of a file. -/
def declaration (sync : TokenSet) : Parser Node :=
  declarationWith true protocolRest sync

/-- Reads one declaration of a file, or what stands in place of one. -/
def programStep (nodes : Array Node) : Parser (Bool × Array Node) := do
  let t ← peek First.declaration
  if t.kind = .eof then
    return (false, nodes)
  else if First.declaration.contains t.kind then
    let extras ← flush
    let before := (← get).cursor.place.byte
    let node ← declaration (.single .eof ∪ First.declaration)
    let skipped ←
      if (← get).cursor.place.byte = before then skip First.declaration else pure []
    return (true, (nodes ++ extras).push node ++ skipped)
  else
    return (true, nodes ++ (← skip First.declaration))

/-- A whole file. -/
def program : Parser Node := do
  let declarations ← gather programStep
  let extras ← flush
  branch .program (declarations ++ extras)

end Idl

end Parse

end AvroTree
