import AvroTree.Proofs.Limits
import AvroTree.Proofs.Parts
import AvroTree.Proofs.Shaping
import AvroTree.Proofs.Soundness

/-!
# Trees are low and labelled as the grammar says

Only types, and the members of a schema, hold constructs of their own kind, and they do so no deeper
than the settings allow. A type that may hold others adds at most two nodes to a path, one for
itself and one for a question mark, and an object adds itself, a member and a list. With the
constructs around them this bounds every path of a tree (`parse_paths`).

The readers of the interface language label what they read with a few labels each (`Idl.labels`),
which are those that the grammar has for the node (`parse_labels`).
-/

namespace AvroTree

namespace Parse

open AvroTree.Parse.Parser
open Node (Row Fresh Stub)

variable {levels depth : Nat} {may : Labelling} {parent : NodeKind}

/-! ## The interface language -/

namespace Idl

/-- The labels under which the readers keep the children of a node. -/
def labels : List (NodeKind × String) :=
  [(.namespaceStatement, "name"), (.schemaDeclaration, "type"),
   (.protocolDeclaration, "name"), (.protocolDeclaration, "body"),
   (.importDeclaration, "kind"), (.importDeclaration, "path"),
   (.recordDeclaration, "name"), (.recordDeclaration, "body"),
   (.errorDeclaration, "name"), (.errorDeclaration, "body"),
   (.fieldDeclaration, "type"), (.fieldDeclaration, "name"), (.fieldDeclaration, "default"),
   (.enumDeclaration, "name"), (.enumDeclaration, "body"), (.enumDeclaration, "default"),
   (.enumDefault, "value"), (.fixedDeclaration, "name"), (.fixedDeclaration, "size"),
   (.messageDeclaration, "return"), (.messageDeclaration, "name"),
   (.messageDeclaration, "parameters"),
   (.parameter, "type"), (.parameter, "name"), (.parameter, "default"),
   (.annotationUse, "name"), (.annotationUse, "value"),
   (.decimalType, "precision"), (.decimalType, "scale"),
   (.arrayType, "items"), (.mapType, "values")]

/-- A labelling that allows what the readers label. -/
def Allows (may : Labelling) : Prop :=
  ∀ kind f, (kind, f) ∈ labels → may kind f

theorem Allows.label (hmay : Allows may) {f : String} (h : (parent, f) ∈ labels) :
    ∀ g ∈ some f, may parent g := by
  intro g hg
  cases hg
  exact hmay parent f h

variable (hmay : Allows may)
include hmay

theorem annotationUse_gives (sync : TokenSet) :
    Gives levels (Fresh may (depth + 3)) (annotationUse sync) :=
  (bump_gives _ (hmay.label (by decide))).bind fun _ hname => (expect_gives _ _ unlabelled).bind
    fun _ hopening => (expect_gives _ _ (hmay.label (by decide))).bind fun _ hvalue =>
      (expect_gives _ _ unlabelled).bind fun _ hclosing =>
        branch_gives (((hname.append hopening).append hvalue).append hclosing)

theorem annotationStep_gives (sync : TokenSet) {nodes : Array Node}
    (hnodes : ∀ n ∈ nodes.toList, n.Fresh may (depth + 3)) :
    Gives levels (fun r => ∀ n ∈ r.2.toList, n.Fresh may (depth + 3))
      (annotationStep sync nodes) := by
  refine (nextIs_gives _).bind fun _ _ => .ite ?_ (.pure hnodes)
  refine flush_gives.bind fun _ hextras => .bind (P := Fresh may (depth + 3))
    (annotationUse_gives hmay sync) fun n hn => .pure ?_
  rw [Array.toList_push, Array.toList_appendList]
  exact List.forall_mem_append.2 ⟨List.forall_mem_append.2
    ⟨hnodes, fun m hm => (hextras m hm).fresh⟩, List.forall_mem_singleton.2 hn⟩

/-- Annotations may stand under anything. -/
theorem annotations_gives (sync : TokenSet) :
    Gives levels (fun ns => ∀ n ∈ ns, n.Fresh may (depth + 3)) (annotations sync) :=
  gather_gives (fun _ => annotationStep_gives hmay sync) nofun

theorem decimalScale_gives (inner : TokenSet) :
    Gives levels (Row may .decimalType (depth + 2)) (decimalScale inner) :=
  (nextIs_gives _).bind fun _ _ => .ite
    ((bump_gives _ unlabelled).bind fun _ hcomma => (expect_gives _ _ (hmay.label (by decide))).bind
      fun _ hscale => .pure (hcomma.append hscale))
    (.pure .nil)

theorem decimalType_gives (sync : TokenSet) :
    Gives levels (Fresh may (depth + 3)) (decimalType sync) := by
  rw [decimalType_eq]
  exact (leaf_gives _).bind fun _ hword => (expect_gives _ _ unlabelled).bind fun _ hopening =>
    (expect_gives _ _ (hmay.label (by decide))).bind fun _ hprecision =>
      (decimalScale_gives hmay _).bind fun _ hscale => (expect_gives _ _ unlabelled).bind
        fun _ hclosing => branch_gives
          ((((hopening.cons hword.fresh.suits).append hprecision).append hscale).append hclosing)

omit hmay in
/-- Readers of types that build no higher than `depth` over what every type may hold. -/
def TypeGives (levels : Nat) (may : Labelling) (depth : Nat) (type : TypeReader) : Prop :=
  ∀ (sync : TokenSet) {field : Option String} {parent : NodeKind}, (∀ f ∈ field, may parent f) →
    Gives levels (Row may parent (depth + 3)) (type sync field)

section Types

variable {type : TypeReader}

omit hmay in
theorem container_gives (h : TypeGives levels may depth type) {kind : NodeKind} {field : String}
    (hf : ∀ f ∈ some field, may kind f) (word : Keyword) (sync : TokenSet) :
    Gives levels (Fresh may (depth + 4)) (container type kind field word sync) :=
  (leaf_gives _).bind fun _ hword => (expect_gives _ _ unlabelled).bind fun _ hopening =>
    (h _ hf).bind fun _ hitem => (expect_gives _ _ unlabelled).bind fun _ hclosing =>
      branch_gives (((hopening.cons hword.fresh.suits).append hitem).append hclosing)

omit hmay in
theorem unionType_gives (h : TypeGives levels may depth type) (sync : TokenSet) :
    Gives levels (Fresh may (depth + 4)) (unionType type sync) := by
  rw [unionType_eq]
  have hmembers (opened : Bool) :
      Gives levels (Row may .unionType (depth + 3)) (unionMembers type sync opened) :=
    .ite (list_gives _ _ fun _ => h _ (by simp)) (.pure .nil)
  exact (leaf_gives _).bind fun _ hword => (expect?_gives _ _ unlabelled).bind fun _ hopening =>
    (hmembers _).bind fun _ hmembers =>
      branch_gives ((hopening.cons hword.fresh.suits).append hmembers)

theorem baseType_gives (h : TypeGives levels may depth type) (sync : TokenSet) :
    Gives levels (Fresh may (depth + 4)) (baseType type sync) := by
  have plain (kind : NodeKind) : Gives levels (Fresh may (depth + 4)) (leaf kind) :=
    (leaf_gives kind).mono fun _ hn => hn.fresh
  refine (peek_gives _).bind fun t _ => ?_
  split
  · exact decimalType_gives hmay sync
  · exact container_gives h (hmay.label (by decide)) _ sync
  · exact container_gives h (hmay.label (by decide)) _ sync
  · exact unionType_gives h sync
  · exact .ite (plain _) (.ite (plain _) (plain _))
  · exact plain _

theorem nullableType_gives (h : TypeGives levels may depth type) (sync : TokenSet) :
    Gives levels (Fresh may (depth + 5)) (nullableType type sync) :=
  (baseType_gives hmay h sync).bind fun _ hbase => (nextIs_gives _).bind fun _ _ => .ite
    ((bump_gives _ unlabelled).bind fun _ hquestion => branch_gives (hquestion.cons hbase.suits))
    (.pure (hbase.mono (Nat.le_succ _)))

theorem annotatedType_gives {unannotated : TokenSet → Parser Node}
    (h : ∀ sync, Gives levels (Fresh may (depth + 3)) (unannotated sync)) :
    TypeGives levels may depth (annotatedType unannotated) := by
  intro sync field parent hf
  have behind {ns : List Node} (hns : Row may parent (depth + 3) ns) {n : Node}
      (hn : n.Fresh may (depth + 3)) : Row may parent (depth + 3) (ns ++ [n.label field]) :=
    hns.append (.one (hn.label hf))
  exact (recoverTo_gives _ _).bind fun _ hskipped => .ite
    ((annotations_gives hmay _).bind fun _ hnotes => (recoverTo_gives _ _).bind fun _ hmore => .ite
      (flush_gives.bind fun _ hextras => (h sync).bind fun _ hn => .pure (behind
        (((hskipped.append (Fresh.row hnotes)).append hmore).append (Stub.row hextras)) hn))
      ((missing_gives _ _).bind fun _ hn => .pure (behind
        ((hskipped.append (Fresh.row hnotes)).append hmore) hn.fresh)))
    ((missing_gives _ _).bind fun _ hn => .pure (behind hskipped hn.fresh))

/-- Every level adds a node for the type and one for its question mark. -/
theorem typeAt_gives : ∀ n : Nat, TypeGives levels may (2 * n) (typeAt n)
  | 0 => annotatedType_gives hmay fun _ => here_gives.bind fun _ _ => tooDeep_gives _
  | n + 1 => annotatedType_gives hmay (nullableType_gives hmay (typeAt_gives n))

theorem type_gives : TypeGives levels may (2 * levels) Idl.type := fun sync field _ hf =>
  .ask (g := Session.maxDepth) (k := fun n => typeAt n sync field) fun s hs => by
    rw [hs.maxDepth]
    exact typeAt_gives hmay levels sync hf

end Types

/-! ### Fields and messages -/

omit hmay in
theorem defaultValue_gives (hf : may parent "default") (sync : TokenSet) :
    Gives levels (Row may parent (depth + 2)) (defaultValue sync) :=
  (nextIs_gives _).bind fun _ _ => .ite
    ((bump_gives _ unlabelled).bind fun _ hequals => (expect_gives _ _ (by simpa using hf)).bind
      fun _ hvalue => .pure (hequals.append hvalue))
    (.pure .nil)

theorem namedVariable_gives (sync : TokenSet) :
    Gives levels (Row may .fieldDeclaration (depth + 3)) (namedVariable sync) :=
  (annotations_gives hmay _).bind fun _ hnotes =>
    (expect_gives _ _ (hmay.label (by decide))).bind fun _ hname =>
      (defaultValue_gives (hmay _ _ (by decide)) _).bind fun _ hvalue =>
        .pure (((Fresh.row hnotes).append hname).append hvalue)

theorem variableStep_gives (inner : TokenSet) {nodes : Array Node}
    (hnodes : Row may .fieldDeclaration (depth + 3) nodes.toList) :
    Gives levels (fun r => Row may .fieldDeclaration (depth + 3) r.2.toList)
      (variableStep inner nodes) :=
  (nextIs_gives _).bind fun _ _ => .ite
    ((bump_gives _ unlabelled).bind fun _ hcomma => (namedVariable_gives hmay _).bind fun _ hname =>
      .pure ((hnodes.extend hcomma).extend hname))
    (.pure hnodes)

theorem fieldDeclaration_gives (sync : TokenSet) :
    Gives levels (Fresh may (2 * levels + 4)) (fieldDeclaration sync) :=
  (type_gives hmay _ (hmay.label (by decide))).bind fun _ htype =>
    (namedVariable_gives hmay _).bind fun _ hfirst =>
      (gather_gives (fun _ => variableStep_gives hmay _) .nil).bind fun _ hmore =>
        (expect_gives _ _ unlabelled).bind fun _ hclosing =>
          branch_gives (((htype.append hfirst).append hmore).append hclosing)

theorem parameter_gives (sync : TokenSet) :
    Gives levels (Fresh may (2 * levels + 4)) (parameter sync) :=
  (type_gives hmay _ (hmay.label (by decide))).bind fun _ htype =>
    (expect_gives _ _ (hmay.label (by decide))).bind fun _ hname =>
      (defaultValue_gives (hmay _ _ (by decide)) _).bind fun _ hvalue =>
        branch_gives ((htype.append hname).append hvalue)

theorem parameterList_gives (sync : TokenSet) :
    Gives levels (Fresh may (2 * levels + 5)) (parameterList sync) := by
  rw [parameterList_eq]
  have hparameters (opened : Bool) :
      Gives levels (Row may .parameterList (2 * levels + 4)) (parameters sync opened) :=
    .ite (list_gives _ _ fun sync => (parameter_gives hmay sync).bind fun _ hn =>
      .pure (.one hn.suits)) (.pure .nil)
  exact (expect?_gives _ _ unlabelled).bind fun _ hopening => (hparameters _).bind
    fun _ hmembers => branch_gives (hopening.append hmembers)

omit hmay in
theorem throwsStep_gives (inner : TokenSet) {nodes : Array Node}
    (hnodes : Row may parent (depth + 2) nodes.toList) :
    Gives levels (fun r => Row may parent (depth + 2) r.2.toList) (throwsStep inner nodes) :=
  (expectAs?_gives _ _ _ unlabelled).bind fun _ hname => (nextIs_gives _).bind fun _ _ => .ite
    ((bump_gives _ unlabelled).bind fun _ hcomma => .pure ((hnodes.extend hname).extend hcomma))
    (.pure (hnodes.extend hname))

omit hmay in
theorem throwsClause_gives (sync : TokenSet) :
    Gives levels (Fresh may (depth + 3)) (throwsClause sync) :=
  (bump_gives _ unlabelled).bind fun _ hword =>
    (gather_gives (fun _ => throwsStep_gives _) .nil).bind fun _ hnames =>
      branch_gives (hword.append hnames)

theorem messageResult_gives (sync : TokenSet) :
    Gives levels (Row may .messageDeclaration (2 * levels + 3)) (messageResult sync) :=
  (nextIs_gives _).bind fun _ _ => .ite (bump_gives _ (hmay.label (by decide)))
    (type_gives hmay _ (hmay.label (by decide)))

omit hmay in
theorem messageClause_gives (sync : TokenSet) :
    Gives levels (Row may parent (depth + 3)) (messageClause sync) := by
  refine (peek_gives _).bind fun t _ => ?_
  split
  · exact flush_gives.bind fun _ hextras => (throwsClause_gives _).bind fun _ hn =>
      .pure ((Stub.row hextras).append (.one hn.suits))
  · exact bump_gives _ unlabelled
  · exact .pure .nil

theorem message_gives (sync : TokenSet) :
    Gives levels (Row may .messageDeclaration (2 * levels + 5)) (message sync) := by
  rw [message_eq]
  exact (messageResult_gives hmay _).bind fun _ hresult =>
    (expect_gives _ _ (hmay.label (by decide))).bind fun _ hname =>
      (parameterList_gives hmay _).bind fun _ hlist => (messageClause_gives _).bind fun _ hclause =>
        (expect_gives _ _ unlabelled).bind fun _ hclosing =>
          .pure (((((hresult.mono (Nat.le_add_right _ 2)).append hname).append
            (.one (hlist.label (hmay.label (by decide))))).append hclause).append hclosing)

/-! ### Declarations -/

section Bodies

variable {element : TokenSet → Parser Node} {form : BodyForm}

omit hmay in
theorem bodyStep_gives {sync : TokenSet} {element : Parser Node} {nodes : Array Node}
    (h : Gives levels (Fresh may (depth + 2)) element)
    (hnodes : Row may form.kind (depth + 2) nodes.toList) :
    Gives levels (fun r => Row may form.kind (depth + 2) r.2.toList)
      (bodyStep sync form element nodes) := by
  rw [bodyStep_eq]
  refine (peek_gives _).bind fun t _ => .ite ?_ (.ite ?_ (.ite ?_ ?_))
  · exact (bump_gives _ unlabelled).bind fun _ hclose => .pure (hnodes.extend hclose)
  · exact addItem_gives h hnodes
  · exact (missing_gives _ _).bind fun _ hn => .pure (hnodes.push hn.fresh.suits)
  · exact (skip_gives _).bind fun _ hskipped => .pure (hnodes.extend hskipped)

omit hmay in
theorem body_gives (h : ∀ sync, Gives levels (Fresh may (depth + 2)) (element sync))
    (sync : TokenSet) : Gives levels (Fresh may (depth + 3)) (body sync form element) := by
  rw [body_eq]
  have hpresent (opened : Bool) : Gives levels (fun _ => True) (bodyPresent sync form opened) :=
    .ite (.pure trivial) ((peek_gives _).bind fun _ _ => .pure trivial)
  have hnodes {opening : List Node} (hopening : Row may form.kind (depth + 2) opening)
      (present : Bool) : Gives levels (Row may form.kind (depth + 2))
        (bodyNodes sync form element opening present) :=
    .ite (gather_gives (fun _ => bodyStep_gives (h _)) hopening) (.pure hopening)
  exact (expect?_gives _ _ unlabelled).bind fun _ hopening => (hpresent _).bind fun _ _ =>
    (hnodes hopening _).bind fun _ => branch_gives

end Bodies

omit hmay in
theorem enumBody_gives (sync : TokenSet) :
    Gives levels (Fresh may (depth + 3)) (enumBody sync) := by
  rw [enumBody_eq]
  have hsymbols (opened : Bool) :
      Gives levels (Row may .enumBody (depth + 2)) (enumSymbols sync opened) :=
    .ite (list_gives _ _ fun _ => bump_gives _ (by simp)) (.pure .nil)
  exact (expect?_gives _ _ unlabelled).bind fun _ hopening => (hsymbols _).bind fun _ hsymbols =>
    branch_gives (hopening.append hsymbols)

theorem enumDefault_gives (sync : TokenSet) :
    Gives levels (Fresh may (depth + 3)) (enumDefault sync) :=
  (bump_gives _ unlabelled).bind fun _ hequals =>
    (expect_gives _ _ (hmay.label (by decide))).bind fun _ hvalue =>
      (expect_gives _ _ unlabelled).bind fun _ hclosing =>
        branch_gives ((hequals.append hvalue).append hclosing)

theorem importRest_gives (sync : TokenSet) :
    Gives levels (Row may .importDeclaration (depth + 2)) (importRest sync) := by
  rw [importRest_eq]
  have hkind (found : Bool) :
      Gives levels (Row may .importDeclaration (depth + 2)) (importKind found) :=
    .ite (bump_gives _ (hmay.label (by decide))) ((missing_gives _ _).bind fun _ hn =>
      .pure (.one (hn.fresh.label (hmay.label (by decide)))))
  exact (recoverTo_gives _ _).bind fun _ hskipped => (hkind _).bind fun _ hkind =>
    (expect_gives _ _ (hmay.label (by decide))).bind fun _ hpath =>
      (expect_gives _ _ unlabelled).bind fun _ hclosing =>
        .pure (((hskipped.append hkind).append hpath).append hclosing)

/-- A name and a body behind it. -/
theorem recordRest_gives {kind : NodeKind} (hname : (kind, "name") ∈ labels)
    (hbody : (kind, "body") ∈ labels) (sync : TokenSet) :
    Gives levels (Row may kind (2 * levels + 5)) (recordRest sync) :=
  (expect_gives _ _ (hmay.label hname)).bind fun _ hn =>
    (body_gives (fieldDeclaration_gives hmay) _).bind fun _ hb =>
      .pure (hn.append (.one (hb.label (hmay.label hbody))))

theorem enumRest_gives (sync : TokenSet) :
    Gives levels (Row may .enumDeclaration (depth + 3)) (enumRest sync) := by
  rw [enumRest_eq]
  have hdefault : Gives levels (Row may .enumDeclaration (depth + 3)) (optionalDefault sync) :=
    (nextIs_gives _).bind fun _ _ => .ite
      (flush_gives.bind fun _ hextras => (enumDefault_gives hmay _).bind fun _ hn =>
        .pure ((Stub.row hextras).append (.one (hn.label (hmay.label (by decide))))))
      (.pure .nil)
  exact (expect_gives _ _ (hmay.label (by decide))).bind fun _ hname =>
    (enumBody_gives _).bind fun _ hbody => hdefault.bind fun _ hdefault =>
      .pure ((hname.append (.one (hbody.label (hmay.label (by decide))))).append hdefault)

theorem fixedRest_gives (sync : TokenSet) :
    Gives levels (Row may .fixedDeclaration (depth + 2)) (fixedRest sync) :=
  (expect_gives _ _ (hmay.label (by decide))).bind fun _ hname =>
    (expect_gives _ _ unlabelled).bind fun _ hopening =>
      (expect_gives _ _ (hmay.label (by decide))).bind fun _ hsize =>
        (expect_gives _ _ unlabelled).bind fun _ hclosing =>
          (expect_gives _ _ unlabelled).bind fun _ hlast =>
            .pure ((((hname.append hopening).append hsize).append hclosing).append hlast)

omit hmay in
/-- The annotations in front of a declaration stay a row when they become an error. -/
theorem settleAnnotations_gives {notes : List Node} (h : ∀ n ∈ notes, n.Fresh may (depth + 3))
    (kind : NodeKind) : Gives levels (Row may kind (depth + 4)) (settleAnnotations kind notes) :=
  .ite (.pure ((Fresh.row h).mono (Nat.le_succ _)))
    ((branch_gives (Fresh.row h)).bind fun _ hn => (complain_gives _).bind fun _ _ =>
      .pure (.one hn.suits))

theorem declarationRest_gives {protocolRest : TokenSet → Parser (List Node)}
    (hdepth : 2 * levels ≤ depth)
    (h : ∀ sync, Gives levels (Row may .protocolDeclaration (depth + 5)) (protocolRest sync))
    {top : Bool} {t : Token.Kind} {kind : NodeKind} (hkind : headKind? top t = some kind)
    (hmessage : kind ≠ .messageDeclaration) (sync : TokenSet) :
    Gives levels (Row may kind (depth + 5)) (declarationRest protocolRest kind sync) := by
  rw [declarationRest.eq_def]
  split
  · exact (expect_gives _ _ (hmay.label (by decide))).bind fun _ hname =>
      (expect_gives _ _ unlabelled).bind fun _ hclosing => .pure (hname.append hclosing)
  · exact (type_gives hmay _ (hmay.label (by decide))).bind fun _ htype =>
      (expect_gives _ _ unlabelled).bind fun _ hclosing =>
        .pure ((htype.append hclosing).mono (by omega))
  · exact h sync
  · exact importRest_gives hmay sync
  · exact enumRest_gives hmay sync
  · exact fixedRest_gives hmay sync
  · -- Only records and errors are left.
    have hlabels : (kind, "name") ∈ labels ∧ (kind, "body") ∈ labels := by
      rcases headKind?_cases hkind with ⟨-, ⟨-, rfl⟩ | ⟨-, rfl⟩ | ⟨-, rfl⟩⟩
        | (⟨-, rfl⟩ | ⟨-, rfl⟩ | ⟨-, rfl⟩ | ⟨-, rfl⟩ | ⟨-, rfl⟩) | rfl <;>
        first | contradiction | decide
    exact (recordRest_gives hmay hlabels.1 hlabels.2 sync).mono fun _ hns => hns.mono (by omega)

theorem bareDeclaration_gives {protocolRest : TokenSet → Parser (List Node)}
    (hdepth : 2 * levels ≤ depth)
    (h : ∀ sync, Gives levels (Row may .protocolDeclaration (depth + 5)) (protocolRest sync))
    {top : Bool} {t : Token.Kind} {kind : NodeKind} (hkind : headKind? top t = some kind)
    (sync : TokenSet) :
    Gives levels (Row may kind (depth + 5)) (bareDeclaration protocolRest kind t sync) := by
  unfold bareDeclaration
  split
  · rename_i hmessage
    subst hmessage
    exact (message_gives hmay sync).mono fun _ hrest => hrest.mono (by omega)
  · rename_i hmessage
    exact (bump_gives _ unlabelled).bind fun _ hword =>
      (declarationRest_gives hmay hdepth h hkind hmessage sync).bind fun _ hrest =>
        .pure (hword.append hrest)

theorem declarationWith_gives (top : Bool) {protocolRest : TokenSet → Parser (List Node)}
    (hdepth : 2 * levels ≤ depth)
    (h : ∀ sync, Gives levels (Row may .protocolDeclaration (depth + 5)) (protocolRest sync))
    (sync : TokenSet) :
    Gives levels (Fresh may (depth + 6)) (declarationWith top protocolRest sync) := by
  rw [declarationWith_eq]
  refine .bind (P := fun ns => ∀ n ∈ ns, n.Fresh may (depth + 3)) (annotations_gives hmay sync)
    fun notes hnotes => (peek_gives _).bind fun t _ => ?_
  split
  · exact here_gives.bind fun _ _ => (complain_gives _).bind fun _ _ =>
      .pure ((Fresh.branch (Fresh.row hnotes) _).mono (by omega))
  · rename_i kind hkind
    exact (settleAnnotations_gives hnotes kind).bind fun _ hnotes =>
      (bareDeclaration_gives hmay hdepth h hkind sync).bind fun _ hrest =>
        branch_gives ((hnotes.mono (Nat.le_succ _)).append hrest)

theorem protocolMember_gives (sync : TokenSet) :
    Gives levels (Fresh may (2 * levels + 6)) (protocolMember sync) :=
  declarationWith_gives hmay false le_rfl (fun _ => .pure .nil) sync

theorem protocolRest_gives (sync : TokenSet) :
    Gives levels (Row may .protocolDeclaration (2 * levels + 7)) (protocolRest sync) :=
  (expect_gives _ _ (hmay.label (by decide))).bind fun _ hname =>
    (body_gives (protocolMember_gives hmay) _).bind fun _ hbody =>
      .pure (hname.append (.one (hbody.label (hmay.label (by decide)))))

theorem declaration_gives (sync : TokenSet) :
    Gives levels (Fresh may (2 * levels + 8)) (declaration sync) :=
  declarationWith_gives hmay true (Nat.le_add_right _ 2) (protocolRest_gives hmay) sync

theorem programStep_gives {nodes : Array Node}
    (hnodes : Row may .program (2 * levels + 8) nodes.toList) :
    Gives levels (fun r => Row may .program (2 * levels + 8) r.2.toList) (programStep nodes) := by
  rw [programStep_eq]
  refine (peek_gives _).bind fun t _ => .ite (.pure hnodes) (.ite ?_ ?_)
  · exact addItem_gives (declaration_gives hmay _) hnodes
  · exact (skip_gives _).bind fun _ hskipped => .pure (hnodes.extend hskipped)

theorem program_gives : Gives levels (Fresh may (2 * levels + 9)) program :=
  (gather_gives (P := Row may .program (2 * levels + 8)) (fun _ => programStep_gives hmay)
    .nil).bind fun _ hdeclarations => flush_gives.bind fun _ hextras =>
      branch_gives (hdeclarations.append (Stub.row hextras))

end Idl

/-! ## Schemas -/

namespace Schema

variable {inner : Option Level}

theorem unquotedAhead_gives : Gives levels (fun _ => True) unquotedAhead :=
  .ask (g := Session.textAhead) (k := fun cs => pure (String.ofList (unquote cs)))
    fun _ _ => .pure trivial

theorem brackets_gives (kind : NodeKind) (first : TokenSet)
    {element : TokenSet → Parser (List Node)}
    (h : ∀ sync, Gives levels (Row may kind (depth + 2)) (element sync)) (sync : TokenSet) :
    Gives levels (Fresh may (depth + 3)) (brackets kind first element sync) :=
  (bump_gives _ unlabelled).bind fun _ hopening => (list_gives _ _ h).bind fun _ hitems =>
    branch_gives (hopening.append hitems)

/-- Readers that build no higher than `depth` over the tokens of an error. -/
structure Level.Gives (levels : Nat) (may : Labelling) (depth : Nat) (l : Level) : Prop where
  value : ∀ sync, Parser.Gives levels (Fresh may (depth + 2)) (l.value sync)
  object : ∀ kind sync, Parser.Gives levels (Fresh may (depth + 2)) (l.object kind sync)

theorem deeper_gives {P : Node → Prop} {k : Level → Parser Node}
    (h : ∀ l ∈ inner, Gives levels P (k l)) : Gives levels P (deeper inner k) := by
  cases inner with
  | none => exact here_gives.bind fun _ _ => tooDeep_gives _
  | some l => exact h l rfl

variable (h : ∀ l ∈ inner, l.Gives levels may depth)
include h

theorem value_gives (sync : TokenSet) :
    Gives levels (Fresh may (depth + 3)) (value inner sync) := by
  refine (peek_gives _).bind fun t _ => ?_
  split
  · exact deeper_gives fun l hl => ((h l hl).object none sync).mono fun _ hn =>
      hn.mono (Nat.le_succ _)
  · exact deeper_gives fun l hl => brackets_gives _ _
      (fun sync => ((h l hl).value sync).bind fun _ hn => .pure (.one hn.suits)) sync
  · exact unquotedAhead_gives.bind fun _ _ => (leaf_gives _).mono fun _ hn => hn.fresh

variable (hany : ∀ kind f, may kind f)
include hany

omit h in
theorem wholeMember_gives (sync : TokenSet) :
    Gives levels (Row may parent (depth + 2)) (wholeMember sync) :=
  expect_gives _ _ fun f _ => hany parent f

theorem schemaMember_gives (sync : TokenSet) :
    Gives levels (Row may .jsonPair (depth + 3)) (schemaMember inner sync) :=
  (peek_gives _).bind fun _ _ => .ite
    (flush_gives.bind fun _ hextras => (value_gives h sync).bind fun _ hn =>
      .pure ((Stub.row hextras).append (.one (hn.label fun f _ => hany _ f))))
    (wholeMember_gives hany sync)

omit h in
theorem listMember_gives (kind : NodeKind) (first : TokenSet)
    {element : Level → TokenSet → Parser (List Node)}
    (h : ∀ l ∈ inner, ∀ sync, Gives levels (Row may kind (depth + 2)) (element l sync))
    (sync : TokenSet) :
    Gives levels (Row may .jsonPair (depth + 3)) (listMember inner kind first element sync) :=
  (nextIs_gives _).bind fun _ _ => .ite
    (flush_gives.bind fun _ hextras =>
      (deeper_gives fun l hl => brackets_gives _ _ (h l hl) sync).bind fun _ hn =>
        .pure ((Stub.row hextras).append (.one (hn.label fun f _ => hany _ f))))
    (wholeMember_gives hany sync)

theorem member_gives (key : String) (sync : TokenSet) :
    Gives levels (Row may .jsonPair (depth + 3)) (member inner key sync) := by
  rw [member.eq_def]
  split
  · exact schemaMember_gives h hany sync
  · exact schemaMember_gives h hany sync
  · exact schemaMember_gives h hany sync
  · exact listMember_gives hany _ _
      (fun l hl sync => ((h l hl).object _ sync).bind fun _ hn => .pure (.one hn.suits)) sync
  · exact listMember_gives hany _ _ (fun _ _ _ => bump_gives _ (by simp)) sync
  · exact listMember_gives hany _ _
      (fun l hl sync => ((h l hl).value sync).bind fun _ hn => .pure (.one hn.suits)) sync
  · exact wholeMember_gives hany sync

theorem pair_gives (sync : TokenSet) :
    Gives levels (Row may .jsonObject (depth + 4)) (do return [← pair inner sync]) :=
  Gives.bind (P := fun n => n.Suits may .jsonObject (depth + 4))
    (flush_gives.bind fun _ hextras => unquotedAhead_gives.bind fun _ _ =>
      (leaf_gives _).bind fun _ hkey => (expect_gives _ _ unlabelled).bind fun _ hcolon =>
        (member_gives h hany _ sync).bind fun _ hvalue =>
          (branch_gives (((Stub.row hextras).append
            (hcolon.cons (hkey.fresh.label fun f _ => hany _ f))).append hvalue)).bind
              fun _ hn => .pure (hn.label fun f _ => hany _ f))
    fun _ hn => .pure (.one hn)

theorem object_gives (kind : Option NodeKind) (sync : TokenSet) :
    Gives levels (Fresh may (depth + 5)) (object inner kind sync) :=
  Gives.bind (P := Row may .jsonObject (depth + 4)) (bump_gives _ unlabelled)
    fun opening hopening =>
    (list_gives _ _ fun sync => pair_gives h hany sync).bind fun members hmembers =>
      .ask (g := Session.source) (k := fun source =>
        branch (kind.getD (objectKind source (opening ++ members))) (opening ++ members))
        fun _ _ => branch_gives ((hopening.append hmembers).under (hany _))

omit h in
/-- Every level adds an object, a member of it and a list that is the member's value. -/
theorem level_gives : ∀ n : Nat, (level n).Gives levels may (3 * n + 3)
  | 0 =>
    have h : ∀ l ∈ (none : Option Level), l.Gives levels may 0 := by simp
    ⟨fun sync => (value_gives h sync).mono fun _ hn => hn.mono (by omega), object_gives h hany⟩
  | n + 1 =>
    have h : ∀ l ∈ some (level n), l.Gives levels may (3 * n + 3) := fun _ hl =>
      Option.some.inj hl ▸ level_gives n
    ⟨fun sync => (value_gives h sync).mono fun _ hn => hn.mono (by omega), object_gives h hany⟩

omit h hany in
theorem trailingStep_gives {nodes : Array Node}
    (hnodes : Row may .schema (depth + 2) nodes.toList) :
    Gives levels (fun r => Row may .schema (depth + 2) r.2.toList) (trailingStep nodes) :=
  (peek_gives _).bind fun _ _ => .ite (.pure hnodes)
    ((skip_gives _).bind fun _ hskipped => .pure (hnodes.extend hskipped))

omit h in
theorem whole_gives : Gives levels (Fresh may (3 * levels + 5)) whole :=
  .ask (g := Session.maxDepth) (k := fun n => (level n).value (.single .eof)) fun s hs => by
    rw [hs.maxDepth]
    exact (level_gives hany levels).value _

omit h in
theorem file_gives : Gives levels (Fresh may (3 * levels + 6)) file := by
  rw [file_eq]
  have hschema (found : Bool) :
      Gives levels (Row may .schema (3 * levels + 5)) (fileSchema found) :=
    .ite (flush_gives.bind fun _ hextras => (whole_gives hany).bind fun _ hn =>
      .pure ((Stub.row hextras).append (.one hn.suits)))
      ((missing_gives _ _).bind fun _ hn => .pure (.one hn.fresh.suits))
  exact (recoverTo_gives _ _).bind fun _ hskipped => (hschema _).bind fun _ hschema =>
    (gather_gives (fun _ => trailingStep_gives) .nil).bind fun _ hrest =>
      flush_gives.bind fun _ hextras =>
        branch_gives (((hskipped.append hschema).append hrest).append (Stub.row hextras))

end Schema

/-! ## Whole texts -/

/-- Whatever a text is read as, the labels being left aside. -/
theorem rootOf_gives (hany : ∀ kind f, may kind f) (mode : Mode) :
    Gives levels (Fresh may (3 * levels + 10)) (rootOf mode) :=
  .ite ((Schema.file_gives hany).mono fun _ hn => hn.mono (by omega))
    ((Idl.program_gives fun kind f _ => hany kind f).mono fun _ hn => hn.mono (by omega))

theorem start_leafy (text : String) (mode : Mode) (previous : Option Previous) :
    (Session.start text levels mode previous).Leafy levels :=
  ⟨rfl, nofun⟩

/-- The grammar knows every label that the readers give. -/
theorem Idl.allows_fields : Idl.Allows fun kind f => f ∈ Grammar.avro.fields kind.name := by
  have hlabels : ∀ l ∈ Idl.labels, l.2 ∈ Grammar.avro.fields l.1.name := by decide +kernel
  exact fun kind f h => hlabels (kind, f) h

end Parse

open Parse

/-- No path from the root of a tree down to a leaf is long, whatever is wrong with the text. -/
theorem parse_paths {config : Config} {text : String} {tree : Tree}
    (h : parse config text = .ok tree) :
    ∀ p, tree.root.Path p → p.length ≤ 3 * config.maxDepth + 10 := by
  intro p hp
  obtain ⟨s, hs, -⟩ := parse_ok h
  obtain ⟨hroot, -⟩ := @rootOf_gives _ (fun _ _ => True) (fun _ _ => trivial) _ _ _ _
    (start_leafy _ _ _) hs
  exact hroot.shaped.length_le hp

/-- A type in a type in a field, the braces left open. -/
theorem parse_paths_unclosed :
    ∃ tree p, parse { maxDepth := 3 } "record R \x7b array<union \x7bint?, string" = .ok tree
      ∧ tree.root.Path p ∧ p.length ≤ 19 := by
  obtain ⟨tree, h⟩ := @parse_of_shallow { maxDepth := 3 }
    "record R \x7b array<union \x7bint?, string" rfl (by decide) (by decide) (by decide)
  obtain ⟨p, hp⟩ := tree.root.exists_path
  exact ⟨tree, p, h, hp, parse_paths h p hp⟩

/-- In the interface language a child is kept under a label that the grammar has for its parent. So
an error, for which it has none, keeps no child under a label. -/
theorem parse_labels {config : Config} {text : String} {tree : Tree}
    (h : parse config text = .ok tree) (hmode : tree.mode = .idl) :
    ∀ d ∈ tree.root.descendants, ∀ c ∈ d.children, ∀ f, c.field = some f →
      f ∈ Grammar.avro.fields d.kind.name := by
  intro d hd c hc f hf
  obtain ⟨s, hs, htree⟩ := parse_ok h
  have hidl : modeFor config text = .idl := by
    rw [← hmode, htree]
    rfl
  rw [hidl] at hs
  obtain ⟨hroot, -⟩ := Idl.program_gives Idl.allows_fields _ _ _ (start_leafy _ _ _) hs
  exact hroot.shaped.allowed hd hc hf

/-- A protocol with a message that has lost its name, its parameters and its end. -/
theorem parse_labels_broken :
    ∃ tree, parse { mode := some .idl } "protocol P \x7b @a(1) void (int x = 2, string" = .ok tree
      ∧ tree.mode = .idl
      ∧ ∀ d ∈ tree.root.descendants, ∀ c ∈ d.children, ∀ f, c.field = some f →
        f ∈ Grammar.avro.fields d.kind.name := by
  obtain ⟨tree, h⟩ := @parse_of_shallow { mode := some .idl }
    "protocol P \x7b @a(1) void (int x = 2, string" rfl (by decide) (by decide) (by decide)
  have hmode : tree.mode = .idl := by
    obtain ⟨s, -, htree⟩ := parse_ok h
    rw [htree]
    rfl
  exact ⟨tree, h, hmode, parse_labels h hmode⟩

end AvroTree
