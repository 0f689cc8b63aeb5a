import AvroTree.Proofs.Lockstep
import AvroTree.Proofs.Parts

/-!
# What parsers are built of

Every parser is put together from a few moves: looking at the next token, handing over comments,
taking a token, complaining, and asking about the session (`Built`). Whatever holds of the moves and
is kept by putting parsers one after the other then holds of whole files. Types and the levels of a
schema end where the text is too deep, so this is left to be said by whoever asks.
-/

namespace AvroTree

namespace Parse

theorem Session.textAhead_view (s : Session) : s.view.textAhead = s.textAhead := by
  cases h : s.lookahead with
  | none => simp [textAhead, view, h]
  | some la => simp [textAhead, view, h, Lookahead.view, Cursor.beginScan]

namespace Parser

/-- Parsers made of moves and of parsers in `T`. -/
inductive Built (T : (α : Type) → Parser α → Prop) : {α : Type} → Parser α → Prop
  | given {α : Type} {p : Parser α} (h : T α p) : Built T p
  | pure {α : Type} (a : α) : Built T (pure a)
  | bind {α β : Type} {p : Parser α} {f : α → Parser β} (hp : Built T p)
      (hf : ∀ a, Built T (f a)) : Built T (p >>= f)
  | ask {α γ : Type} (g : Session → γ) (hg : ∀ s, g s.view = g s) {k : γ → Parser α}
      (hk : ∀ c, Built T (k c)) : Built T (do k (g (← get)))
  | peek (valid : TokenSet) : Built T (peek valid)
  | flush : Built T flush
  | leaf (kind : NodeKind) : Built T (leaf kind)
  | complain (d : Diagnostic) : Built T (complain d)

variable {T : (α : Type) → Parser α → Prop} {α β γ : Type}

theorem Built.ite {c : Prop} [Decidable c] {p q : Parser α} (hp : Built T p) (hq : Built T q) :
    Built T (if c then p else q) := by
  split
  · exact hp
  · exact hq

theorem nextIs_built (kind : Token.Kind) : Built T (nextIs kind) :=
  .bind (.peek _) fun _ => .pure _

theorem here_built : Built T here :=
  .ask Session.frontier (fun _ => rfl) .pure

theorem bump_built (kind : NodeKind) (field : Option String) : Built T (bump kind field) :=
  .bind .flush fun _ => .bind (.leaf _) fun _ => .pure _

theorem missing_built (kind : NodeKind) (what : String) : Built T (missing kind what) :=
  .bind here_built fun _ => .bind (.complain _) fun _ => .pure _

theorem branch_built (kind : NodeKind) (children : List Node) : Built T (branch kind children) :=
  .bind here_built fun _ => .pure _

theorem iterate_built {step : α → Parser (Bool × α)} (h : ∀ a, Built T (step a)) :
    ∀ (n : Nat) (a : α), Built T (iterate step n a)
  | 0, a => .pure a
  | n + 1, a => .bind (h a) fun r => by
    obtain ⟨go, a⟩ := r
    cases go
    · exact .pure a
    · exact iterate_built h n a

theorem loop_built {step : α → Parser (Bool × α)} (h : ∀ a, Built T (step a)) (a : α) :
    Built T (loop step a) :=
  .ask Session.remaining (fun _ => rfl) fun n => iterate_built h (n + 1) a

theorem gather_built {step : Array Node → Parser (Bool × Array Node)} (h : ∀ a, Built T (step a))
    (first : List Node) : Built T (gather step first) :=
  .bind (loop_built h _) fun _ => .pure _

theorem skipStep_built (stop : TokenSet) (a : Skipped) : Built T (skipStep stop a) := by
  refine .bind (.peek _) fun t => .ite (.pure _) ?_
  exact .bind (bump_built _ _) fun _ => .pure _

theorem wrapUp_built (extras : List Node) (a : Skipped) (t : Token) :
    Built T (wrapUp extras a t) := by
  have wrap : Built T (do return extras ++ [← branch .error a.nodes.toList]) :=
    .bind (branch_built _ _) fun _ => .pure _
  exact .ite (.pure _) (.ite (.bind (.complain _) fun _ => wrap) wrap)

theorem skip_built (stop : TokenSet) : Built T (skip stop) := by
  rw [skip_eq]
  refine .bind .flush fun extras => .bind (loop_built (skipStep_built stop) _) fun a => ?_
  cases a.first with
  | none => exact .pure _
  | some t => exact wrapUp_built _ _ _

theorem recoverTo_built (sync first : TokenSet) : Built T (recoverTo sync first) := by
  refine .bind (.peek _) fun t => .ite (.pure _) (.ite (.pure _) ?_)
  exact .bind (skip_built _) fun _ => .bind (.peek _) fun _ => .pure _

theorem expectAs?_built (sync : TokenSet) (want : Token.Kind) (kind : NodeKind)
    (field : Option String) : Built T (expectAs? sync want kind field) := by
  refine .bind (recoverTo_built _ _) fun r => ?_
  obtain ⟨found, skipped⟩ := r
  refine .ite (.bind .flush fun _ => .bind (.leaf _) fun _ => .pure _) ?_
  exact .bind (missing_built _ _) fun _ => .pure _

theorem expect?_built (sync : TokenSet) (want : Token.Kind) (field : Option String) :
    Built T (expect? sync want field) :=
  expectAs?_built sync want _ field

theorem expect_built (sync : TokenSet) (want : Token.Kind) (field : Option String) :
    Built T (expect sync want field) :=
  .bind (expect?_built sync want field) fun _ => .pure _

theorem rejectComma_built (a : Items) : Built T a.rejectComma := by
  rw [Items.rejectComma]
  split
  · exact .pure _
  · exact .bind (.complain _) fun _ => .pure _

theorem progress_built {element : Parser α} (h : Built T element) (stop : TokenSet)
    {k : α → List Node → Parser β} (hk : ∀ a l, Built T (k a l)) :
    Built T (progress stop element k) := by
  have byte {γ : Type} {k : Nat → Parser γ} (hk : ∀ n, Built T (k n)) :
      Built T (do k (← get).cursor.place.byte) :=
    .ask (fun s => s.cursor.place.byte)
      (fun _ => rfl) hk
  refine byte (k := fun before => do
    let item ← element
    let skipped ← if (← get).cursor.place.byte = before then skip stop else pure []
    k item skipped) fun before => .bind h fun item => ?_
  refine byte (k := fun now => if now = before then skip stop >>= k item else pure [] >>= k item)
    fun now => ?_
  exact .ite (.bind (skip_built _) (hk item)) (.bind (.pure _) (hk item))

theorem addItem_built {element : Parser Node} (h : Built T element) (stop : TokenSet)
    (nodes : Array Node) : Built T (addItem stop element nodes) :=
  .bind .flush fun _ => progress_built h _ fun _ _ => .pure _

theorem listClose_built (form : ListForm) (a : Items) (nodes : Array Node) :
    Built T (listClose form a nodes) :=
  .bind (bump_built _ _) fun _ => .pure _

theorem listItem_built {element : Parser (List Node)} (h : Built T element) (stop : TokenSet)
    (a : Items) (comma : List Node) : Built T (listItem stop element a comma) := by
  rw [listItem_eq]
  exact .bind .flush fun _ => progress_built h _ fun _ _ => .pure _

theorem listStep_built (sync : TokenSet) (form : ListForm) {element : Parser (List Node)}
    (h : Built T element) (a : Items) : Built T (listStep sync form element a) := by
  rw [listStep_eq]
  refine .bind (.peek _) fun t => .ite ?_ (.ite ?_ (.ite ?_ (.ite ?_ ?_)))
  · exact .ite (.bind (rejectComma_built a) (listClose_built form a)) (listClose_built form a _)
  · exact .ite (listItem_built h _ a _) (.bind (missing_built _ _) fun _ => listItem_built h _ a _)
  · exact .bind (bump_built _ _) fun _ => .pure _
  · exact .bind (missing_built _ _) fun _ => .pure _
  · exact .bind (skip_built _) fun _ => .pure _

theorem list_built (sync : TokenSet) (form : ListForm) {element : TokenSet → Parser (List Node)}
    (h : ∀ sync, Built T (element sync)) : Built T (list sync form element) :=
  .bind (loop_built (listStep_built sync form (h _)) _) fun _ => .pure _

end Parser

open AvroTree.Parse.Parser

variable {T : (α : Type) → Parser α → Prop}

/-! ## The interface language -/

namespace Idl

theorem annotationUse_built (sync : TokenSet) : Built T (annotationUse sync) :=
  .bind (bump_built _ _) fun _ => .bind (expect_built _ _ _) fun _ =>
    .bind (expect_built _ _ _) fun _ => .bind (expect_built _ _ _) fun _ => branch_built _ _

theorem annotationStep_built (sync : TokenSet) (nodes : Array Node) :
    Built T (annotationStep sync nodes) :=
  .bind (nextIs_built _) fun _ => .ite
    (.bind .flush fun _ => .bind (annotationUse_built sync) fun _ => .pure _) (.pure _)

theorem annotations_built (sync : TokenSet) : Built T (annotations sync) := by
  rw [annotations_eq]
  exact gather_built (annotationStep_built sync) _

theorem decimalScale_built (inner : TokenSet) : Built T (decimalScale inner) :=
  .bind (nextIs_built _) fun _ => .ite
    (.bind (bump_built _ _) fun _ => .bind (expect_built _ _ _) fun _ => .pure _) (.pure _)

theorem decimalType_built (sync : TokenSet) : Built T (decimalType sync) := by
  rw [decimalType_eq]
  exact .bind (.leaf _) fun _ => .bind (expect_built _ _ _) fun _ =>
    .bind (expect_built _ _ _) fun _ => .bind (decimalScale_built _) fun _ =>
      .bind (expect_built _ _ _) fun _ => branch_built _ _

/-- Readers of types that are built whatever stands around the type. -/
def BuiltType (T : (α : Type) → Parser α → Prop) (type : TypeReader) : Prop :=
  ∀ sync field, Built T (type sync field)

variable {type : TypeReader}

/-- An array or a map is a word and what is built of the type in it. -/
theorem container_opens (h : BuiltType T type) (kind : NodeKind) (field : String) (word : Keyword)
    (sync : TokenSet) : ∃ f, container type kind field word sync
      = (leaf (.token (.keyword word)) >>= f) ∧ ∀ n, Built T (f n) :=
  ⟨_, rfl, fun _ => .bind (expect_built _ _ _) fun _ => .bind (h _ _) fun _ =>
    .bind (expect_built _ _ _) fun _ => branch_built _ _⟩

theorem unionMembers_built (h : BuiltType T type) (sync : TokenSet) (opened : Bool) :
    Built T (unionMembers type sync opened) :=
  .ite (list_built _ _ fun _ => h _ _) (.pure _)

/-- A union is a word and what is built of the types in it. -/
theorem unionType_opens (h : BuiltType T type) (sync : TokenSet) : ∃ f, unionType type sync
      = (leaf (.token (.keyword .union)) >>= f) ∧ ∀ n, Built T (f n) := by
  rw [unionType_eq]
  exact ⟨_, rfl, fun _ => .bind (expect?_built _ _ _) fun _ =>
    .bind (unionMembers_built h _ _) fun _ => branch_built _ _⟩

theorem opens_built {p : Parser Node} {kind : NodeKind}
    (h : ∃ f, p = (leaf kind >>= f) ∧ ∀ n, Built T (f n)) : Built T p := by
  obtain ⟨f, rfl, hf⟩ := h
  exact .bind (.leaf _) hf

theorem plainType_built (k : Keyword) : Built T (
    if k.isPrimitive then leaf .primitiveType
    else if k.isLogical then leaf .logicalType
    else leaf .typeReference) :=
  .ite (.leaf _) (.ite (.leaf _) (.leaf _))

theorem baseType_built (h : BuiltType T type) (sync : TokenSet) : Built T (baseType type sync) := by
  refine .bind (.peek _) fun t => ?_
  split
  · exact decimalType_built sync
  · exact opens_built (container_opens h _ _ _ sync)
  · exact opens_built (container_opens h _ _ _ sync)
  · exact opens_built (unionType_opens h sync)
  · exact plainType_built _
  · exact .leaf _

theorem nullableType_built {sync : TokenSet} (h : Built T (baseType type sync)) :
    Built T (nullableType type sync) :=
  .bind h fun _ => .bind (nextIs_built _) fun _ =>
    .ite (.bind (bump_built _ _) fun _ => branch_built _ _) (.pure _)

theorem annotatedType_built {unannotated : TokenSet → Parser Node}
    (h : ∀ sync, Built T (unannotated sync)) : BuiltType T (annotatedType unannotated) := by
  intro sync field
  refine .bind (recoverTo_built _ _) fun _ => .ite ?_ ?_
  · refine .bind (annotations_built _) fun _ => .bind (recoverTo_built _ _) fun _ => .ite ?_ ?_
    · exact .bind .flush fun _ => .bind (h sync) fun _ => .pure _
    · exact .bind (missing_built _ _) fun _ => .pure _
  · exact .bind (missing_built _ _) fun _ => .pure _

theorem typeAt_built (hdeep : ∀ place, Built T (tooDeep place : Parser Node)) :
    ∀ levels : Nat, BuiltType T (typeAt levels)
  | 0 => annotatedType_built fun _ => .bind here_built fun _ => hdeep _
  | levels + 1 => annotatedType_built fun sync =>
    nullableType_built (baseType_built (typeAt_built hdeep levels) sync)

theorem type_built (hdeep : ∀ place, Built T (tooDeep place : Parser Node)) :
    BuiltType T Idl.type := fun sync field =>
  .ask Session.maxDepth (fun _ => rfl)
    (k := fun n => typeAt n sync field) fun n => typeAt_built hdeep n sync field

theorem defaultValue_built (sync : TokenSet) : Built T (defaultValue sync) :=
  .bind (nextIs_built _) fun _ => .ite
    (.bind (bump_built _ _) fun _ => .bind (expect_built _ _ _) fun _ => .pure _) (.pure _)

theorem namedVariable_built (sync : TokenSet) : Built T (namedVariable sync) :=
  .bind (annotations_built _) fun _ => .bind (expect_built _ _ _) fun _ =>
    .bind (defaultValue_built _) fun _ => .pure _

theorem variableStep_built (inner : TokenSet) (nodes : Array Node) :
    Built T (variableStep inner nodes) :=
  .bind (nextIs_built _) fun _ => .ite
    (.bind (bump_built _ _) fun _ => .bind (namedVariable_built _) fun _ => .pure _) (.pure _)

theorem fieldDeclaration_built (htype : BuiltType T Idl.type) (sync : TokenSet) :
    Built T (fieldDeclaration sync) :=
  .bind (htype _ _) fun _ => .bind (namedVariable_built _) fun _ =>
    .bind (gather_built (variableStep_built _) _) fun _ => .bind (expect_built _ _ _) fun _ =>
      branch_built _ _

theorem parameter_built (htype : BuiltType T Idl.type) (sync : TokenSet) :
    Built T (parameter sync) :=
  .bind (htype _ _) fun _ => .bind (expect_built _ _ _) fun _ =>
    .bind (defaultValue_built _) fun _ => branch_built _ _

theorem parameters_built (htype : BuiltType T Idl.type) (sync : TokenSet) (opened : Bool) :
    Built T (parameters sync opened) :=
  .ite (list_built _ _ fun _ => .bind (parameter_built htype _) fun _ => .pure _) (.pure _)

theorem parameterList_built (htype : BuiltType T Idl.type) (sync : TokenSet) :
    Built T (parameterList sync) := by
  rw [parameterList_eq]
  exact .bind (expect?_built _ _ _) fun _ => .bind (parameters_built htype _ _) fun _ =>
    branch_built _ _

theorem throwsStep_built (inner : TokenSet) (nodes : Array Node) :
    Built T (throwsStep inner nodes) :=
  .bind (expectAs?_built _ _ _ _) fun _ => .bind (nextIs_built _) fun _ =>
    .ite (.bind (bump_built _ _) fun _ => .pure _) (.pure _)

theorem throwsClause_built (sync : TokenSet) : Built T (throwsClause sync) :=
  .bind (bump_built _ _) fun _ => .bind (gather_built (throwsStep_built _) _) fun _ =>
    branch_built _ _

theorem messageResult_built (htype : BuiltType T Idl.type) (sync : TokenSet) :
    Built T (messageResult sync) :=
  .bind (nextIs_built _) fun _ => .ite (bump_built _ _) (htype _ _)

theorem messageClause_built (sync : TokenSet) : Built T (messageClause sync) := by
  refine .bind (.peek _) fun t => ?_
  split
  · exact .bind .flush fun _ => .bind (throwsClause_built _) fun _ => .pure _
  · exact bump_built _ _
  · exact .pure _

theorem message_built (htype : BuiltType T Idl.type) (sync : TokenSet) :
    Built T (message sync) := by
  rw [message_eq]
  exact .bind (messageResult_built htype _) fun _ => .bind (expect_built _ _ _) fun _ =>
    .bind (parameterList_built htype _) fun _ => .bind (messageClause_built _) fun _ =>
      .bind (expect_built _ _ _) fun _ => .pure _

theorem bodyStep_built (sync : TokenSet) (form : BodyForm) {element : Parser Node}
    (h : Built T element) (nodes : Array Node) : Built T (bodyStep sync form element nodes) := by
  rw [bodyStep_eq]
  refine .bind (.peek _) fun t => .ite ?_ (.ite ?_ (.ite ?_ ?_))
  · exact .bind (bump_built _ _) fun _ => .pure _
  · exact addItem_built h _ nodes
  · exact .bind (missing_built _ _) fun _ => .pure _
  · exact .bind (skip_built _) fun _ => .pure _

theorem bodyPresent_built (sync : TokenSet) (form : BodyForm) (opened : Bool) :
    Built T (bodyPresent sync form opened) :=
  .ite (.pure _) (.bind (.peek _) fun _ => .pure _)

theorem body_built (sync : TokenSet) (form : BodyForm) {element : TokenSet → Parser Node}
    (h : ∀ sync, Built T (element sync)) : Built T (body sync form element) := by
  rw [body_eq]
  exact .bind (expect?_built _ _ _) fun _ => .bind (bodyPresent_built _ _ _) fun _ =>
    .bind (.ite (gather_built (bodyStep_built sync form (h _)) _) (.pure _)) fun _ =>
      branch_built _ _

theorem enumSymbols_built (sync : TokenSet) (opened : Bool) : Built T (enumSymbols sync opened) :=
  .ite (list_built _ _ fun _ => bump_built _ _) (.pure _)

theorem enumBody_built (sync : TokenSet) : Built T (enumBody sync) := by
  rw [enumBody_eq]
  exact .bind (expect?_built _ _ _) fun _ => .bind (enumSymbols_built _ _) fun _ =>
    branch_built _ _

theorem enumDefault_built (sync : TokenSet) : Built T (enumDefault sync) :=
  .bind (bump_built _ _) fun _ => .bind (expect_built _ _ _) fun _ =>
    .bind (expect_built _ _ _) fun _ => branch_built _ _

theorem settleAnnotations_built (kind : NodeKind) (notes : List Node) :
    Built T (settleAnnotations kind notes) :=
  .ite (.pure _) (.bind (branch_built _ _) fun _ => .bind (.complain _) fun _ => .pure _)

theorem importKind_built (found : Bool) : Built T (importKind found) :=
  .ite (bump_built _ _) (.bind (missing_built _ _) fun _ => .pure _)

theorem importRest_built (sync : TokenSet) : Built T (importRest sync) := by
  rw [importRest_eq]
  exact .bind (recoverTo_built _ _) fun _ => .bind (importKind_built _) fun _ =>
    .bind (expect_built _ _ _) fun _ => .bind (expect_built _ _ _) fun _ => .pure _

theorem recordRest_built (htype : BuiltType T Idl.type) (sync : TokenSet) :
    Built T (recordRest sync) :=
  .bind (expect_built _ _ _) fun _ => .bind (body_built _ _ (fieldDeclaration_built htype)) fun _ =>
    .pure _

theorem optionalDefault_built (sync : TokenSet) : Built T (optionalDefault sync) :=
  .bind (nextIs_built _) fun _ => .ite
    (.bind .flush fun _ => .bind (enumDefault_built _) fun _ => .pure _) (.pure _)

theorem enumRest_built (sync : TokenSet) : Built T (enumRest sync) := by
  rw [enumRest_eq]
  exact .bind (expect_built _ _ _) fun _ => .bind (enumBody_built _) fun _ =>
    .bind (optionalDefault_built _) fun _ => .pure _

theorem fixedRest_built (sync : TokenSet) : Built T (fixedRest sync) :=
  .bind (expect_built _ _ _) fun _ => .bind (expect_built _ _ _) fun _ =>
    .bind (expect_built _ _ _) fun _ => .bind (expect_built _ _ _) fun _ =>
      .bind (expect_built _ _ _) fun _ => .pure _

theorem declarationRest_built (htype : BuiltType T Idl.type)
    {protocolRest : TokenSet → Parser (List Node)}
    (h : ∀ sync, Built T (protocolRest sync)) (kind : NodeKind) (sync : TokenSet) :
    Built T (declarationRest protocolRest kind sync) := by
  rw [declarationRest.eq_def]
  split
  · exact .bind (expect_built _ _ _) fun _ => .bind (expect_built _ _ _) fun _ => .pure _
  · exact .bind (htype _ _) fun _ => .bind (expect_built _ _ _) fun _ => .pure _
  · exact h sync
  · exact importRest_built sync
  · exact enumRest_built sync
  · exact fixedRest_built sync
  · exact recordRest_built htype sync

theorem bareDeclaration_built (htype : BuiltType T Idl.type)
    {protocolRest : TokenSet → Parser (List Node)} (h : ∀ sync, Built T (protocolRest sync))
    (kind : NodeKind) (word : Token.Kind) (sync : TokenSet) :
    Built T (bareDeclaration protocolRest kind word sync) :=
  .ite (message_built htype _) (.bind (bump_built _ _) fun _ =>
    .bind (declarationRest_built htype h _ _) fun _ => .pure _)

theorem declarationWith_built (htype : BuiltType T Idl.type) (top : Bool)
    {protocolRest : TokenSet → Parser (List Node)}
    (h : ∀ sync, Built T (protocolRest sync)) (sync : TokenSet) :
    Built T (declarationWith top protocolRest sync) := by
  rw [declarationWith_eq]
  refine .bind (annotations_built _) fun notes => .bind (.peek _) fun t => ?_
  split
  · exact .bind here_built fun _ => .bind (.complain _) fun _ => .pure _
  · exact .bind (settleAnnotations_built _ _) fun _ =>
      .bind (bareDeclaration_built htype h _ _ _) fun _ => branch_built _ _

theorem protocolMember_built (htype : BuiltType T Idl.type) (sync : TokenSet) :
    Built T (protocolMember sync) :=
  declarationWith_built htype false (fun _ => .pure _) sync

theorem protocolRest_built (htype : BuiltType T Idl.type) (sync : TokenSet) :
    Built T (protocolRest sync) :=
  .bind (expect_built _ _ _) fun _ => .bind (body_built _ _ (protocolMember_built htype)) fun _ =>
    .pure _

theorem programStep_built (htype : BuiltType T Idl.type) (nodes : Array Node) :
    Built T (programStep nodes) := by
  rw [programStep_eq]
  refine .bind (.peek _) fun t => .ite (.pure _) (.ite ?_ ?_)
  · exact addItem_built (declarationWith_built htype true (protocolRest_built htype) _) _ nodes
  · exact .bind (skip_built _) fun _ => .pure _

theorem program_built (htype : BuiltType T Idl.type) : Built T program :=
  .bind (gather_built (programStep_built htype) _) fun _ => .bind .flush fun _ => branch_built _ _

end Idl

/-! ## Schemas -/

namespace Schema

theorem unquotedAhead_built : Built T unquotedAhead :=
  .ask Session.textAhead Session.textAhead_view
    (k := fun cs => Pure.pure (String.ofList (unquote cs))) fun _ => .pure _

/-- Brackets are an opening mark and what is built of their elements. -/
theorem brackets_opens (kind : NodeKind) (first : TokenSet)
    {element : TokenSet → Parser (List Node)} (h : ∀ sync, Built T (element sync))
    (sync : TokenSet) : ∃ f, brackets kind first element sync
      = (bump (.token (.punct .lBracket)) >>= f) ∧ ∀ opening, Built T (f opening) :=
  ⟨_, rfl, fun _ => .bind (list_built _ _ h) fun _ => branch_built _ _⟩

theorem brackets_built (kind : NodeKind) (first : TokenSet)
    {element : TokenSet → Parser (List Node)} (h : ∀ sync, Built T (element sync))
    (sync : TokenSet) : Built T (brackets kind first element sync) := by
  obtain ⟨f, hf, hbuilt⟩ := brackets_opens kind first h sync
  rw [hf]
  exact .bind (bump_built _ _) hbuilt

theorem wholeMember_built (sync : TokenSet) : Built T (wholeMember sync) :=
  expect_built _ _ _

variable {inner : Option Level}

theorem schemaMember_built (h : ∀ sync, Built T (value inner sync)) (sync : TokenSet) :
    Built T (schemaMember inner sync) :=
  .bind (.peek _) fun _ => .ite
    (.bind .flush fun _ => .bind (h sync) fun _ => .pure _) (wholeMember_built sync)

theorem pair_built (h : ∀ key sync, Built T (member inner key sync)) (sync : TokenSet) :
    Built T (pair inner sync) :=
  .bind .flush fun _ => .bind unquotedAhead_built fun _ => .bind (.leaf _) fun _ =>
    .bind (expect_built _ _ _) fun _ => .bind (h _ _) fun _ =>
      .bind (branch_built _ _) fun _ => .pure _

/-- An object is an opening mark and what is built of its members. -/
theorem object_opens (h : ∀ key sync, Built T (member inner key sync)) (kind : Option NodeKind)
    (sync : TokenSet) : ∃ f, object inner kind sync
      = (bump (.token (.punct .lBrace)) >>= f) ∧ ∀ opening, Built T (f opening) := by
  refine ⟨_, rfl, fun opening => ?_⟩
  refine .bind (list_built _ _ fun _ => .bind (pair_built h _) fun _ => .pure _) fun members => ?_
  exact .ask Session.source (fun _ => rfl)
    (k := fun source => branch (kind.getD (objectKind source (opening ++ members)))
      (opening ++ members)) fun _ => branch_built _ _

/-- Readers for one level that are built whatever stands around. -/
structure Level.Built (T : (α : Type) → Parser α → Prop) (level : Level) : Prop where
  value : ∀ sync, Parser.Built T (level.value sync)
  object : ∀ kind sync, Parser.Built T (level.object kind sync)

section Levels

variable (hdeep : ∀ place, Built T (tooDeep place : Parser Node))
include hdeep

theorem deeper_built (h : ∀ level ∈ inner, level.Built T) {k : Level → Parser Node}
    (hk : ∀ level, level.Built T → Built T (k level)) : Built T (deeper inner k) := by
  cases inner with
  | none => exact .bind here_built fun _ => hdeep _
  | some level => exact hk level (h level rfl)

theorem value_built (h : ∀ level ∈ inner, level.Built T) (sync : TokenSet) :
    Built T (value inner sync) := by
  refine .bind (.peek _) fun t => ?_
  split
  · exact deeper_built hdeep h fun level hl => hl.object none sync
  · exact deeper_built hdeep h fun level hl => brackets_built _ _
      (fun _ => .bind (hl.value _) fun _ => .pure _) sync
  · exact .bind unquotedAhead_built fun _ => .leaf _

theorem listMember_built (h : ∀ level ∈ inner, level.Built T) (kind : NodeKind) (first : TokenSet)
    {element : Level → TokenSet → Parser (List Node)}
    (he : ∀ level, level.Built T → ∀ sync, Built T (element level sync)) (sync : TokenSet) :
    Built T (listMember inner kind first element sync) :=
  .bind (nextIs_built _) fun _ => .ite
    (.bind .flush fun _ => .bind
      (deeper_built hdeep h fun level hl => brackets_built _ _ (he level hl) sync) fun _ => .pure _)
    (wholeMember_built sync)

theorem member_built (h : ∀ level ∈ inner, level.Built T) (key : String) (sync : TokenSet) :
    Built T (member inner key sync) := by
  rw [member.eq_def]
  split
  · exact schemaMember_built (value_built hdeep h) sync
  · exact schemaMember_built (value_built hdeep h) sync
  · exact schemaMember_built (value_built hdeep h) sync
  · exact listMember_built hdeep h _ _ (fun level hl _ => .bind (hl.object _ _) fun _ => .pure _)
      sync
  · exact listMember_built hdeep h _ _ (fun _ _ _ => bump_built _ _) sync
  · exact listMember_built hdeep h _ _ (fun level hl _ => .bind (hl.value _) fun _ => .pure _) sync
  · exact wholeMember_built sync

theorem object_built (h : ∀ level ∈ inner, level.Built T) (kind : Option NodeKind)
    (sync : TokenSet) : Built T (object inner kind sync) := by
  obtain ⟨f, hf, hbuilt⟩ := object_opens (member_built hdeep h) kind sync
  rw [hf]
  exact .bind (bump_built _ _) hbuilt

theorem level_built : ∀ levels : Nat, (level levels).Built T
  | 0 => ⟨value_built hdeep (by simp), object_built hdeep (by simp)⟩
  | levels + 1 =>
    have h : ∀ l ∈ some (level levels), l.Built T := fun _ hl =>
      Option.some.inj hl ▸ level_built levels
    ⟨value_built hdeep h, object_built hdeep h⟩

end Levels

theorem trailingStep_built (nodes : Array Node) : Built T (trailingStep nodes) :=
  .bind (.peek _) fun _ => .ite (.pure _) (.bind (skip_built _) fun _ => .pure _)

theorem trailing_built : Built T trailing := by
  rw [trailing_eq]
  exact gather_built trailingStep_built _

theorem whole_built (hdeep : ∀ place, Built T (tooDeep place : Parser Node)) : Built T whole :=
  .ask Session.maxDepth (fun _ => rfl) (k := fun n => (level n).value (.single .eof)) fun n =>
    (level_built hdeep n).value _

theorem fileSchema_built (h : Built T whole) (found : Bool) : Built T (fileSchema found) :=
  .ite (.bind .flush fun _ => .bind h fun _ => .pure _) (.bind (missing_built _ _) fun _ => .pure _)

theorem file_built (h : Built T whole) : Built T file := by
  rw [file_eq]
  exact .bind (recoverTo_built _ _) fun _ => .bind (fileSchema_built h _) fun _ =>
    .bind trailing_built fun _ => .bind .flush fun _ => branch_built _ _

end Schema

end Parse

end AvroTree
