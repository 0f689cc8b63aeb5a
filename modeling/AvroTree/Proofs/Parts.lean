import AvroTree.Parse.Schema
import AvroTree.Proofs.Elements

/-!
# Parts of constructs

In the middle of a construct one thing or another may be read, and what comes behind it is the same.
Here such a middle is a parser by itself, and the construct is a row of parsers one behind the other
(`message_eq` and the like).
-/

namespace AvroTree

namespace Parse

open AvroTree.Parse.Parser

variable {α β : Type}

theorem Parser.ite_bind {c : Prop} [Decidable c] (p q : Parser α) (f : α → Parser β) :
    (if c then p else q) >>= f = if c then p >>= f else q >>= f :=
  apply_ite (· >>= f) c p q

/-! ## The interface language -/

namespace Idl

/-- Reads an annotation, if one comes next. -/
def annotationStep (sync : TokenSet) (nodes : Array Node) : Parser (Bool × Array Node) := do
  if ← nextIs .atName then
    let extras ← flush
    return (true, (nodes ++ extras).push (← annotationUse sync))
  else
    return (false, nodes)

theorem annotations_eq (sync : TokenSet) : annotations sync = gather (annotationStep sync) :=
  rfl

/-- The scale of a decimal type, which may be left out. -/
def decimalScale (inner : TokenSet) : Parser (List Node) := do
  if ← nextIs (.punct .comma) then
    let comma ← bump (.token (.punct .comma))
    return comma ++ (← expect inner .number (some "scale"))
  else
    return []

theorem decimalType_eq (sync : TokenSet) : decimalType sync = (do
    let word ← leaf (.token (.keyword .decimal))
    let inner := sync ∪ .single (.punct .rParen)
    let opening ← expect inner (.punct .lParen)
    let precision ← expect inner .number (some "precision")
    let scale ← decimalScale inner
    let closing ← expect sync (.punct .rParen)
    branch .decimalType (word :: opening ++ precision ++ scale ++ closing)) := by
  simp only [decimalType, decimalScale, bind_assoc, pure_bind, ite_bind]
  rfl

/-- The members of a union behind its opening brace. -/
def unionMembers (type : TypeReader) (sync : TokenSet) (opened : Bool) : Parser (List Node) :=
  if opened then list sync ⟨.rBrace, First.type, false⟩ fun sync => type sync none else pure []

theorem unionType_eq (type : TypeReader) (sync : TokenSet) : unionType type sync = (do
    let word ← leaf (.token (.keyword .union))
    let (opened, opening) ← expect? sync (.punct .lBrace)
    let members ← unionMembers type sync opened
    branch .unionType (word :: opening ++ members)) := by
  simp only [unionType, unionMembers, ite_bind]

/-- Reads a comma and the variable behind it, if there is one. -/
def variableStep (inner : TokenSet) (nodes : Array Node) : Parser (Bool × Array Node) := do
  if ← nextIs (.punct .comma) then
    let comma ← bump (.token (.punct .comma))
    return (true, nodes ++ comma ++ (← namedVariable inner))
  else
    return (false, nodes)

theorem fieldDeclaration_eq (sync : TokenSet) : fieldDeclaration sync = (do
    let type ← type sync (some "type")
    let inner := sync ∪ .ofList [.punct .comma, .punct .semicolon]
    let first ← namedVariable inner
    let more ← gather (variableStep inner)
    let closing ← expect sync (.punct .semicolon)
    branch .fieldDeclaration (type ++ first ++ more ++ closing)) :=
  rfl

/-- The parameters of a message behind their opening mark. -/
def parameters (sync : TokenSet) (opened : Bool) : Parser (List Node) :=
  if opened then
    list sync ⟨.rParen, First.parameter, false⟩ fun sync => do return [← parameter sync]
  else pure []

theorem parameterList_eq (sync : TokenSet) : parameterList sync = (do
    let (opened, opening) ← expect? sync (.punct .lParen)
    let parameters ← parameters sync opened
    branch .parameterList (opening ++ parameters)) := by
  simp only [parameterList, parameters, ite_bind]

/-- Reads the name of an error and the comma behind it, if there is one. -/
def throwsStep (inner : TokenSet) (nodes : Array Node) : Parser (Bool × Array Node) := do
  let (_, name) ← expectAs? inner .identifier .typeReference none
  if ← nextIs (.punct .comma) then
    return (true, nodes ++ name ++ (← bump (.token (.punct .comma))))
  else
    return (false, nodes ++ name)

theorem throwsClause_eq (sync : TokenSet) : throwsClause sync = (do
    let word ← bump (.token (.keyword .throws))
    let names ← gather (throwsStep (sync ∪ .single (.punct .comma)))
    branch .throwsClause (word ++ names)) :=
  rfl

def messageResult (sync : TokenSet) : Parser (List Node) := do
  if ← nextIs (.keyword .void) then bump .voidType (some "return")
  else type sync (some "return")

/-- What may stand between the parameters of a message and its end. -/
def messageClause (sync : TokenSet) : Parser (List Node) := do
  let t ← peek (.ofList [.keyword .throws, .keyword .oneway, .punct .semicolon])
  match t.kind with
  | .keyword .throws => do
    let extras ← flush
    return extras ++ [← throwsClause sync]
  | .keyword .oneway => bump .oneway
  | _ => return []

theorem message_eq (sync : TokenSet) : message sync = (do
    let result ← messageResult sync
    let name ← expect sync .identifier (some "name")
    let parameters ← parameterList sync
    let clause ← messageClause sync
    let closing ← expect sync (.punct .semicolon)
    return result ++ name ++ [parameters.label (some "parameters")] ++ clause ++ closing) := by
  simp only [message, messageResult, messageClause, bind_assoc, ite_bind]
  refine bind_congr fun isVoid => ?_
  split
  all_goals
    refine bind_congr fun result => bind_congr fun name => bind_congr fun parameters =>
      bind_congr fun t => ?_
    split
    all_goals simp [*]

/-- Whether there is a body: one that is not opened is there when an element comes next. -/
def bodyPresent (sync : TokenSet) (form : BodyForm) (opened : Bool) : Parser Bool := do
  if opened then
    return true
  else
    return form.first.contains (← peek (form.first ∪ sync)).kind

/-- The nodes of a body from its opening brace on. -/
def bodyNodes (sync : TokenSet) (form : BodyForm) (element : TokenSet → Parser Node)
    (opening : List Node) (present : Bool) : Parser (List Node) :=
  if present then gather (bodyStep sync form (element (sync ∪ form.continues))) opening
  else pure opening

theorem body_eq (sync : TokenSet) (form : BodyForm) (element : TokenSet → Parser Node) :
    body sync form element = (do
      let (opened, opening) ← expect? sync (.punct .lBrace)
      let present ← bodyPresent sync form opened
      branch form.kind (← bodyNodes sync form element opening present)) := by
  simp only [body, bodyPresent, bodyNodes, bind_assoc, pure_bind, ite_bind]

/-- The symbols of an enum behind their opening brace. -/
def enumSymbols (sync : TokenSet) (opened : Bool) : Parser (List Node) :=
  if opened then list sync ⟨.rBrace, .single .identifier, true⟩ fun _ => bump .enumSymbol
  else pure []

theorem enumBody_eq (sync : TokenSet) : enumBody sync = (do
    let (opened, opening) ← expect? sync (.punct .lBrace)
    let symbols ← enumSymbols sync opened
    branch .enumBody (opening ++ symbols)) := by
  simp only [enumBody, enumSymbols, ite_bind]

/-- The default of an enum, which may be left out. -/
def optionalDefault (sync : TokenSet) : Parser (List Node) := do
  if ← nextIs (.punct .equals) then
    let extras ← flush
    return extras ++ [(← enumDefault sync).label (some "default")]
  else
    return []

theorem enumRest_eq (sync : TokenSet) : enumRest sync = (do
    let name ← expect sync .identifier (some "name")
    let body ← enumBody sync
    let default ← optionalDefault sync
    return name ++ [body.label (some "body")] ++ default) := by
  simp only [enumRest, optionalDefault, bind_assoc, pure_bind, ite_bind]

/-- The word for what is imported, if it has been found. -/
def importKind (found : Bool) : Parser (List Node) := do
  if found then
    bump .importKind (some "kind")
  else
    return [(← missing .importKind "import kind").label (some "kind")]

theorem importRest_eq (sync : TokenSet) : importRest sync = (do
    let (found, skipped) ← recoverTo sync First.importKind
    let kind ← importKind found
    let path ← expect sync .string (some "path")
    let closing ← expect sync (.punct .semicolon)
    return skipped ++ kind ++ path ++ closing) := by
  simp only [importRest, importKind, bind_assoc, pure_bind, ite_bind]

/-- What stands behind the annotations of a declaration in front of the token `word`. -/
def bareDeclaration (protocolRest : TokenSet → Parser (List Node)) (kind : NodeKind)
    (word : Token.Kind) (sync : TokenSet) : Parser (List Node) := do
  if kind = .messageDeclaration then
    message sync
  else
    let word ← bump (.token word)
    return word ++ (← declarationRest protocolRest kind sync)

theorem declarationWith_eq (top : Bool) (protocolRest : TokenSet → Parser (List Node))
    (sync : TokenSet) : declarationWith top protocolRest sync = (do
      let notes ← annotations sync
      let heads := if top then First.declaration else First.protocolMember
      let t ← peek (heads ∪ sync)
      match headKind? top t.kind with
      | none =>
        let place ← here
        complain (.syntactic "annotations must be followed by a declaration" place)
        return .branch .error notes place
      | some kind =>
        let notes ← settleAnnotations kind notes
        let rest ← bareDeclaration protocolRest kind t.kind sync
        branch kind (notes ++ rest)) := by
  unfold declarationWith bareDeclaration
  refine bind_congr fun notes => bind_congr fun t => ?_
  cases headKind? top t.kind with
  | none => rfl
  | some kind => simp only [bind_assoc, pure_bind, ite_bind]

end Idl

/-! ## Schemas -/

namespace Schema

/-- Skips what stands behind the schema of a file, up to its end. -/
def trailingStep (nodes : Array Node) : Parser (Bool × Array Node) := do
  if (← peek (.single .eof)).kind = .eof then
    return (false, nodes)
  else
    return (true, nodes ++ (← skip (.single .eof)))

theorem trailing_eq : trailing = gather trailingStep :=
  rfl

/-- The schema of a file, which may be as deep as the settings allow. -/
def whole : Parser Node := do
  (level (← get).maxDepth).value (.single .eof)

/-- The schema of a file, if the start of one has been found. -/
def fileSchema (found : Bool) : Parser (List Node) := do
  if found then
    let extras ← flush
    return extras ++ [← whole]
  else
    return [← missing .jsonObject "schema"]

theorem file_eq : file = (do
    let (found, skipped) ← recoverTo (.single .eof) First.schemaValue
    let schema ← fileSchema found
    let rest ← trailing
    let extras ← flush
    branch .schema (skipped ++ schema ++ rest ++ extras)) := by
  simp only [file, fileSchema, whole, bind_assoc, pure_bind, ite_bind]

end Schema

end Parse

end AvroTree
