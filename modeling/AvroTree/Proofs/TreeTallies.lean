import AvroTree.Proofs.IdlTaking
import AvroTree.Proofs.Limits
import AvroTree.Proofs.Parts
import AvroTree.Proofs.SchemaTaking
import AvroTree.Proofs.Soundness
import AvroTree.Proofs.Tallies

/-!
# Complaints and errors match

Every construct of the two languages keeps the tally, so a tree has an error just if there is a
complaint, and as many missing nodes as there are complaints that something is missing
(`parse_tallies`).
-/

namespace AvroTree

open Token (Kind)
open Node (absences anyError Even)

namespace Parse

open AvroTree.Parse.Parser
open Session (Sits Faces Tally Anywhere)

variable {α : Type} {cap : Nat} {text : List Char} {C : Session → Prop} {ns : List Node}

namespace Parser

theorem Adds.anywhere {p : Parser α} {g : α → List Node} (h : Adds cap text Anywhere p g) :
    Adds cap text C p g :=
  fun ns => (h ns).from_ fun _ _ => trivial

theorem gather_adds {step : Array Node → Parser (Bool × Array Node)}
    (h : ∀ ns nodes, Tallies cap text Anywhere (step nodes) (fun _ => Anywhere) (ns ++ nodes.toList)
      fun r => ns ++ r.2.toList) : Adds cap text C (gather step) id :=
  fun ns => (gather_tallies (h ns) []).even ⟨by simp, by simp⟩

/-- What is known besides may be used. -/
theorem Tallies.assuming {p : Parser α} {D : α → Session → Prop} {g : α → List Node} {P : Prop}
    (h : P → Tallies cap text C p D ns g) : Tallies cap text (fun s => C s ∧ P) p D ns g :=
  fun o s a s' hs ht hc hr => h hc.2 o s a s' hs ht hc.1 hr

/-- One of two parts is read, by whether the first token of one is there. -/
theorem either_adds {k : Kind} {p q : Parser α} {g : α → List Node}
    (hp : Adds cap text (Next k) p g) (hq : Adds cap text Anywhere q g) :
    Adds cap text C (do if ← nextIs k then p else q) g := by
  refine fun ns => (nextIs_tallies k).bind fun b => ?_
  cases b with
  | true => exact (hp ns).from_ fun s h => h rfl
  | false => exact hq.anywhere ns

theorem nothing_adds : Adds cap text C (pure []) id :=
  fun _ => pure_ends ⟨by simp, by simp⟩

theorem optional_adds {p : Parser (List Node)} (hp : Adds cap text C p id) (c : Prop)
    [Decidable c] : Adds cap text C (if c then p else pure []) id := by
  split
  · exact hp
  · exact nothing_adds

theorem Orderly.meant {first : TokenSet} (hfirst : Orderly first) {k : Kind}
    (hk : first.contains k) : k.isMeant := by
  obtain ⟨hproper, herror, -⟩ := hfirst k hk
  simp only [Kind.isProper, Bool.and_eq_true, bne_iff_ne] at hproper
  exact Kind.isMeant_iff.2 ⟨hproper.2, herror⟩

/-- Taking a token that has been found to be one of `first`. -/
theorem bump_offers {first : TokenSet} (hfirst : Orderly first) {kind : NodeKind}
    (field : Option String) (hkind : kind ≠ .error) :
    Adds cap text (Offers first) (bump kind field) id := by
  rintro ns o s l s' hs ht ⟨wanted, t, -, hf, hk⟩ hr
  exact bump_next field (hfirst.meant hk) hkind ns o s l s' hs ht ⟨_, t, hf, rfl⟩ hr

theorem bump_only {k : Kind} (hk : k.isMeant) {kind : NodeKind} (field : Option String)
    (hkind : kind ≠ .error) : Adds cap text (Offers (.single k)) (bump kind field) id :=
  fun ns => (bump_next field hk hkind ns).from_ fun _ => Offers.next (Kind.isMeant_iff.1 hk).2

theorem peek_offers_tallies {first : TokenSet} (hfirst : Orderly first) :
    Tallies cap text (Offers first) (peek first)
      (fun t s => s.Faces first t ∧ first.contains t.kind) ns fun _ => ns :=
  .knowing (peek_offers hfirst) (peek_tallies first)

end Parser

/-! ## The interface language -/

namespace Idl

variable {sync : TokenSet}

theorem annotationUse_adds : Adds cap text (Next .atName) (annotationUse sync) ([·]) := fun _ =>
  (bump_next _ rfl (by simp)).then fun _ => (expect_adds _ _ rfl).then fun _ =>
    (expect_adds _ _ rfl).then fun _ => (expect_adds _ _ rfl).then fun _ =>
      branch_tallies (by simp) ⟨by simp, by simp⟩

theorem annotationStep_tallies (nodes : Array Node) :
    Tallies cap text Anywhere (annotationStep sync nodes) (fun _ => Anywhere) (ns ++ nodes.toList)
      fun r => ns ++ r.2.toList := by
  refine (nextIs_tallies _).bind fun b => ?_
  cases b with
  | true =>
    refine flush_next.bind fun extras => (annotationUse_adds _).bind fun n => ?_
    exact pure_ends ⟨by simp, by simp⟩
  | false => exact pure_ends (.refl _)

theorem annotations_adds : Adds cap text C (annotations sync) id :=
  gather_adds fun _ => annotationStep_tallies

theorem decimalScale_adds : Adds cap text C (decimalScale sync) id :=
  either_adds (fun _ => (bump_next _ rfl (by simp)).then fun comma =>
    (expect_adds _ _ rfl).then fun scale => pure_ends ⟨by simp, by simp⟩) nothing_adds

theorem decimalType_adds : Adds cap text (Next (.keyword .decimal)) (decimalType sync) ([·]) := by
  rw [decimalType_eq]
  exact fun ns => (leaf_next rfl (by simp)).then fun word => (expect_adds _ _ rfl).then
    fun opening => (expect_adds _ _ rfl).then fun precision => decimalScale_adds.then fun scale =>
      (expect_adds _ _ rfl).then fun closing => branch_tallies (by simp) ⟨by simp, by simp⟩

/-- Readers of types that keep the tally whatever stands around the type. -/
def TypeAdds (cap : Nat) (text : List Char) (type : TypeReader) : Prop :=
  ∀ sync field, Adds cap text Anywhere (type sync field) id

section Types

variable {type : TypeReader}

theorem container_adds (h : TypeAdds cap text type) {kind : NodeKind} (hkind : kind ≠ .error)
    {field : String} {word : Keyword} :
    Adds cap text (Next (.keyword word)) (container type kind field word sync) ([·]) := fun _ =>
  (leaf_next rfl (by simp)).then fun _ => (expect_adds _ _ rfl).then fun _ =>
    (h _ _).then fun _ => (expect_adds _ _ rfl).then fun _ =>
      branch_tallies hkind ⟨by simp, by simp⟩

theorem unionType_adds (h : TypeAdds cap text type) :
    Adds cap text (Next (.keyword .union)) (unionType type sync) ([·]) := by
  rw [unionType_eq]
  have hmembers (opened : Bool) : Adds cap text Anywhere (unionMembers type sync opened) id :=
    optional_adds (list_adds fun sync => (h sync none).anywhere) _
  exact fun ns => (leaf_next rfl (by simp)).then fun word => (expect?_adds _ _ rfl).then fun r =>
    (hmembers r.1).then fun members => branch_tallies (by simp) ⟨by simp, by simp⟩

theorem baseType_adds (h : TypeAdds cap text type) :
    Adds cap text (Offers First.baseType) (baseType type sync) ([·]) := by
  intro ns
  have horderly : Orderly First.baseType := First.baseType_eq ▸ Orderly.ofList (by decide)
  refine (peek_offers_tallies horderly).bind fun t => Tallies.assuming fun ht => ?_
  have hnext {k : Kind} (hk : t.kind = k) (s : Session) (hs : s.Faces First.baseType t) :
      Next k s :=
    ⟨_, t, hs, hk⟩
  have hleaf {kind : NodeKind} (hkind : kind ≠ .error) : Tallies cap text (Faces First.baseType t)
      (leaf kind) (fun _ => Anywhere) ns (ns ++ [·]) :=
    (leaf_next (horderly.meant ht) hkind ns).from_ (hnext rfl)
  split
  · exact (decimalType_adds ns).from_ (hnext ‹_›)
  · exact (container_adds h (by simp) ns).from_ (hnext ‹_›)
  · exact (container_adds h (by simp) ns).from_ (hnext ‹_›)
  · exact (unionType_adds h ns).from_ (hnext ‹_›)
  · split
    · exact hleaf (by simp)
    split
    · exact hleaf (by simp)
    · exact hleaf (by simp)
  · exact hleaf (by simp)

theorem nullableType_adds (h : TypeAdds cap text type) :
    Adds cap text (Offers First.baseType) (nullableType type sync) ([·]) := by
  refine fun ns => (baseType_adds h).then fun base => (nextIs_tallies _).bind fun b => ?_
  cases b with
  | true =>
    exact ((bump_next _ rfl (by simp) _).from_ fun s h => h rfl).bind fun question =>
      branch_tallies (by simp) ⟨by simp, by simp⟩
  | false => exact pure_ends (.refl _)

theorem annotatedType_adds {unannotated : TokenSet → Parser Node}
    (h : ∀ sync, Adds cap text (Offers First.baseType) (unannotated sync) ([·])) :
    TypeAdds cap text (annotatedType unannotated) := by
  intro sync field ns
  refine (recoverTo_tallies _ _).bind fun r => ?_
  obtain ⟨started, skipped⟩ := r
  cases started with
  | false => exact (missing_adds _ _).then fun n => pure_ends ⟨by simp, by simp⟩
  | true =>
    refine annotations_adds.then fun notes => (recoverTo_tallies _ _).bind fun r => ?_
    obtain ⟨found, more⟩ := r
    cases found with
    | false => exact (missing_adds _ _).then fun n => pure_ends ⟨by simp, by simp⟩
    | true =>
      exact flush_offers.bind fun extras => (h sync).then fun type => pure_ends ⟨by simp, by simp⟩

theorem typeAt_adds : ∀ levels : Nat, TypeAdds cap text (typeAt levels)
  | 0 => annotatedType_adds fun _ _ _ _ _ _ _ _ _ hr => by
    obtain ⟨_, _, -, hr⟩ := bind_ok hr
    exact (tooDeep_ok hr).elim
  | levels + 1 => annotatedType_adds fun _ => nullableType_adds (typeAt_adds levels)

end Types

theorem type_adds (field : Option String) : Adds cap text C (type sync field) id :=
  fun _ => get_tallies fun s => (typeAt_adds s.maxDepth sync field).anywhere _

/-! ### Fields and messages -/

theorem defaultValue_adds : Adds cap text C (defaultValue sync) id :=
  either_adds (fun _ => (bump_next _ rfl (by simp)).then fun equals =>
    (expect_adds _ _ rfl).then fun value => pure_ends ⟨by simp, by simp⟩) nothing_adds

theorem namedVariable_adds : Adds cap text C (namedVariable sync) id := fun _ =>
  annotations_adds.then fun _ => (expect_adds _ _ rfl).then fun _ => defaultValue_adds.then fun _ =>
    pure_ends ⟨by simp, by simp⟩

theorem variableStep_tallies (nodes : Array Node) :
    Tallies cap text Anywhere (variableStep sync nodes) (fun _ => Anywhere) (ns ++ nodes.toList)
      fun r => ns ++ r.2.toList := by
  refine (nextIs_tallies _).bind fun b => ?_
  cases b with
  | true =>
    exact ((bump_next _ rfl (by simp) _).from_ fun s h => h rfl).bind fun comma =>
      namedVariable_adds.then fun next => pure_ends ⟨by simp, by simp⟩
  | false => exact pure_ends (.refl _)

theorem fieldDeclaration_adds : Adds cap text C (fieldDeclaration sync) ([·]) := fun _ =>
  (type_adds _).then fun _ => namedVariable_adds.then fun _ =>
    (gather_adds fun _ => variableStep_tallies).then fun _ => (expect_adds _ _ rfl).then fun _ =>
      branch_tallies (by simp) ⟨by simp, by simp⟩

theorem parameter_adds : Adds cap text C (parameter sync) ([·]) := fun _ =>
  (type_adds _).then fun _ => (expect_adds _ _ rfl).then fun _ => defaultValue_adds.then fun _ =>
    branch_tallies (by simp) ⟨by simp, by simp⟩

theorem parameterList_adds : Adds cap text C (parameterList sync) ([·]) := by
  rw [parameterList_eq]
  have hparameters (opened : Bool) : Adds cap text Anywhere (parameters sync opened) id :=
    optional_adds (list_adds fun sync ns => parameter_adds.then fun n => pure_ends (.refl _)) _
  exact fun ns => (expect?_adds _ _ rfl).then fun r => (hparameters r.1).then fun parameters =>
    branch_tallies (by simp) ⟨by simp, by simp⟩

theorem throwsStep_tallies (nodes : Array Node) :
    Tallies cap text Anywhere (throwsStep sync nodes) (fun _ => Anywhere) (ns ++ nodes.toList)
      fun r => ns ++ r.2.toList := by
  refine (expectAs?_adds _ _ rfl (by simp)).then fun r => (nextIs_tallies _).bind fun b => ?_
  cases b with
  | true =>
    exact ((bump_next _ rfl (by simp) _).from_ fun s h => h rfl).bind fun comma =>
      pure_ends ⟨by simp, by simp⟩
  | false => exact pure_ends ⟨by simp, by simp⟩

theorem throwsClause_adds : Adds cap text (Next (.keyword .throws)) (throwsClause sync) ([·]) :=
  fun _ => (bump_next _ rfl (by simp)).then fun _ => (gather_adds fun _ => throwsStep_tallies).then
    fun _ => branch_tallies (by simp) ⟨by simp, by simp⟩

theorem messageResult_adds : Adds cap text C (messageResult sync) id :=
  either_adds (bump_next _ rfl (by simp)) (type_adds _)

theorem messageClause_adds : Adds cap text C (messageClause sync) id := by
  refine fun ns => (peek_tallies _).bind fun t => ?_
  split
  · rename_i ht
    exact (flush_tallies fun _ h => h).bind fun extras =>
      ((throwsClause_adds _).from_ fun s hs => ⟨_, t, hs, ht⟩).bind fun clause =>
        pure_ends ⟨by simp, by simp⟩
  · rename_i ht
    exact (bump_next _ rfl (by simp) ns).from_ fun s hs => ⟨_, t, hs, ht⟩
  · exact nothing_adds ns

theorem message_adds : Adds cap text C (message sync) id := by
  rw [message_eq]
  exact fun ns => messageResult_adds.then fun result => (expect_adds _ _ rfl).then fun name =>
    parameterList_adds.then fun parameters => messageClause_adds.then fun clause =>
      (expect_adds _ _ rfl).then fun closing => pure_ends ⟨by simp, by simp⟩

/-! ### Declarations -/

theorem bodyStep_tallies {form : BodyForm} {element : Parser Node}
    (h : Adds cap text Anywhere element ([·])) (nodes : Array Node) :
    Tallies cap text Anywhere (bodyStep sync form element nodes) (fun _ => Anywhere)
      (ns ++ nodes.toList) fun r => ns ++ r.2.toList := by
  rw [bodyStep_eq]
  refine (peek_tallies _).bind fun t => ?_
  split
  · rename_i ht
    exact ((bump_next none rfl (by simp) _).from_ fun s hs => ⟨_, t, hs, ht⟩).bind fun closing =>
      pure_ends ⟨by simp, by simp⟩
  split
  · exact (addItem_tallies h nodes).from_ fun _ _ => trivial
  split
  · exact (missing_adds _ _).then fun n => pure_ends ⟨by simp, by simp⟩
  · exact (skip_adds _).then fun skipped => pure_ends ⟨by simp, by simp⟩

theorem body_adds {form : BodyForm} {element : TokenSet → Parser Node} (hform : form.kind ≠ .error)
    (h : ∀ sync, Adds cap text Anywhere (element sync) ([·])) :
    Adds cap text C (body sync form element) ([·]) := by
  rw [body_eq]
  have hpresent (opened : Bool) {ns : List Node} : Tallies cap text Anywhere
      (bodyPresent sync form opened) (fun _ => Anywhere) ns fun _ => ns := by
    unfold bodyPresent
    split
    · exact pure_ends (.refl _)
    · exact (peek_tallies _).bind fun t => pure_ends (.refl _)
  have hnodes (opening : List Node) (present : Bool) {ns : List Node} : Tallies cap text Anywhere
      (bodyNodes sync form element opening present) (fun _ => Anywhere) (ns ++ opening)
        (ns ++ ·) := by
    unfold bodyNodes
    split
    · exact gather_tallies (bodyStep_tallies (h _)) opening
    · exact pure_ends (.refl _)
  exact fun ns => (expect?_adds _ _ rfl).then fun r => (hpresent r.1).bind fun present =>
    (hnodes r.2 present).bind fun nodes => branch_tallies hform (.refl _)

theorem enumBody_adds : Adds cap text C (enumBody sync) ([·]) := by
  rw [enumBody_eq]
  have hsymbols (opened : Bool) : Adds cap text Anywhere (enumSymbols sync opened) id :=
    optional_adds (list_adds fun _ => bump_only (k := .identifier) rfl none (by simp)) _
  exact fun ns => (expect?_adds _ _ rfl).then fun r => (hsymbols r.1).then fun symbols =>
    branch_tallies (by simp) ⟨by simp, by simp⟩

theorem enumDefault_adds :
    Adds cap text (Next (.punct .equals)) (enumDefault sync) ([·]) := fun _ =>
  (bump_next _ rfl (by simp)).then fun _ => (expect_adds _ _ rfl).then fun _ =>
    (expect_adds _ _ rfl).then fun _ => branch_tallies (by simp) ⟨by simp, by simp⟩

theorem isAbsence_annotated {kind : NodeKind} (h : annotatable kind = false) (place : Location) :
    (Diagnostic.syntactic s!"{kind.name} cannot be annotated" place).isAbsence = false := by
  unfold annotatable at h
  split at h
  · exact (Diagnostic.isAbsence_syntactic _ _).trans (by decide)
  · exact (Diagnostic.isAbsence_syntactic _ _).trans (by decide)
  · exact (Diagnostic.isAbsence_syntactic _ _).trans (by decide)
  · cases h

theorem settleAnnotations_tallies (hC : Unmoved C) (kind : NodeKind) (notes : List Node) :
    Tallies cap text C (settleAnnotations kind notes) (fun _ => C) (ns ++ notes) (ns ++ ·) := by
  unfold settleAnnotations
  split
  · exact pure_tallies (.refl _) fun _ h => h
  · rename_i h
    simp only [Bool.or_eq_true, not_or, Bool.not_eq_true] at h
    have hcomplain (wrapped : Node) (place : Location) (hn : wrapped = .branch .error notes place) :
        Tallies cap text C
          (complain (.syntactic s!"{kind.name} cannot be annotated" wrapped.span.start))
            (fun _ => C)
          (ns ++ notes) fun _ => ns ++ [wrapped] :=
      reject_tallies hC (isAbsence_annotated h.1 wrapped.span.start) (by simp [hn]) (by simp [hn])
    unfold branch
    simp only [bind_assoc, pure_bind]
    exact here_tallies.bind fun place => (hcomplain _ place rfl).bind fun _ =>
      pure_tallies (.refl _) fun _ h => h

theorem importKind_adds (found : Bool) :
    Adds cap text (fun s => found → Offers First.importKind s) (importKind found) id := by
  have horderly : Orderly First.importKind := by
    rw [First.importKind_eq]
    exact .ofList (by decide)
  unfold importKind
  split
  · rename_i hfound
    exact fun ns => (bump_offers horderly _ (by simp) ns).from_ fun s h => h hfound
  · exact fun ns => (missing_adds _ _).then fun n => pure_ends ⟨by simp, by simp⟩

theorem importRest_adds : Adds cap text C (importRest sync) id := by
  rw [importRest_eq]
  exact fun ns => (recoverTo_tallies _ _).bind fun r => (importKind_adds r.1).then fun kind =>
    (expect_adds _ _ rfl).then fun path => (expect_adds _ _ rfl).then fun closing =>
      pure_ends ⟨by simp, by simp⟩

theorem recordRest_adds : Adds cap text C (recordRest sync) id := fun _ =>
  (expect_adds _ _ rfl).then fun _ =>
    (body_adds (by simp) fun _ => fieldDeclaration_adds).then fun _ => pure_ends ⟨by simp, by simp⟩

theorem optionalDefault_adds : Adds cap text C (optionalDefault sync) id :=
  either_adds (fun ns => (flush_tallies fun _ h => h).bind fun extras =>
    (enumDefault_adds _).bind fun default => pure_ends ⟨by simp, by simp⟩) nothing_adds

theorem enumRest_adds : Adds cap text C (enumRest sync) id := by
  rw [enumRest_eq]
  exact fun ns => (expect_adds _ _ rfl).then fun name => enumBody_adds.then fun body =>
    optionalDefault_adds.then fun default => pure_ends ⟨by simp, by simp⟩

theorem fixedRest_adds : Adds cap text C (fixedRest sync) id := fun _ =>
  (expect_adds _ _ rfl).then fun _ => (expect_adds _ _ rfl).then fun _ =>
    (expect_adds _ _ rfl).then fun _ => (expect_adds _ _ rfl).then fun _ =>
      (expect_adds _ _ rfl).then fun _ => pure_ends ⟨by simp, by simp⟩

theorem declarationRest_adds {protocolRest : TokenSet → Parser (List Node)}
    (h : ∀ sync, Adds cap text Anywhere (protocolRest sync) id) (kind : NodeKind) :
    Adds cap text Anywhere (declarationRest protocolRest kind sync) id := by
  rw [declarationRest.eq_def]
  split
  · exact fun ns => (expect_adds _ _ rfl).then fun name => (expect_adds _ _ rfl).then fun closing =>
      pure_ends ⟨by simp, by simp⟩
  · exact fun ns => (type_adds _).then fun type => (expect_adds _ _ rfl).then fun closing =>
      pure_ends ⟨by simp, by simp⟩
  · exact h sync
  · exact importRest_adds
  · exact enumRest_adds
  · exact fixedRest_adds
  · exact recordRest_adds

theorem bareDeclaration_adds {protocolRest : TokenSet → Parser (List Node)}
    (h : ∀ sync, Adds cap text Anywhere (protocolRest sync) id) {top : Bool} {t : Kind}
    {kind : NodeKind} (hkind : headKind? top t = some kind) :
    Adds cap text (Next t) (bareDeclaration protocolRest kind t sync) id := by
  unfold bareDeclaration
  split
  · exact message_adds
  · rename_i hmessage
    have hmeant : t.isMeant := by
      rcases headKind?_cases hkind with
        ⟨-, ⟨h, -⟩ | ⟨h, -⟩ | ⟨h, -⟩⟩ | (⟨h, -⟩ | ⟨h, -⟩ | ⟨h, -⟩ | ⟨h, -⟩ | ⟨h, -⟩) | h
      all_goals first | exact absurd h hmessage | exact h ▸ rfl
    exact fun ns => (bump_next none hmeant (by simp)).then fun word =>
      (declarationRest_adds h kind).then fun rest => pure_ends ⟨by simp, by simp⟩

theorem declarationWith_adds (top : Bool) {protocolRest : TokenSet → Parser (List Node)}
    (h : ∀ sync, Adds cap text Anywhere (protocolRest sync) id) :
    Adds cap text C (declarationWith top protocolRest sync) ([·]) := by
  rw [declarationWith_eq]
  refine fun ns => annotations_adds.then fun notes => (peek_tallies _).bind fun t => ?_
  cases hkind : headKind? top t.kind with
  | none =>
    have hmessage (place : Location) : (Diagnostic.syntactic
        "annotations must be followed by a declaration" place).isAbsence = false := by
      rw [Diagnostic.isAbsence_syntactic]
      decide
    have hcomplain (place : Location) : Tallies cap text Anywhere
        (complain (.syntactic "annotations must be followed by a declaration" place))
        (fun _ => Anywhere) (ns ++ notes) fun _ => ns ++ [.branch .error notes place] :=
      reject_tallies (fun _ _ h => h) (hmessage place) (by simp) (by simp)
    exact (here_tallies (C := Anywhere)).from_ (fun _ _ => trivial) |>.bind fun place =>
      (hcomplain place).bind fun _ => pure_ends (.refl _)
  | some kind =>
    have hne : kind ≠ .error := by
      rcases headKind?_cases hkind with
        ⟨-, ⟨-, h⟩ | ⟨-, h⟩ | ⟨-, h⟩⟩ | (⟨-, h⟩ | ⟨-, h⟩ | ⟨-, h⟩ | ⟨-, h⟩ | ⟨-, h⟩) | h <;>
        simp [h]
    exact (settleAnnotations_tallies (fun _ _ h => h) kind notes).bind fun notes =>
      Tallies.from_ (C := Next t.kind) ((bareDeclaration_adds h hkind).then fun rest =>
        branch_tallies hne ⟨by simp, by simp⟩) fun s hs => ⟨_, t, hs, rfl⟩

theorem protocolMember_adds : Adds cap text C (protocolMember sync) ([·]) :=
  declarationWith_adds false fun _ _ => pure_ends ⟨by simp, by simp⟩

theorem protocolRest_adds : Adds cap text C (protocolRest sync) id := fun _ =>
  (expect_adds _ _ rfl).then fun _ =>
    (body_adds (by simp) fun _ => protocolMember_adds).then fun _ => pure_ends ⟨by simp, by simp⟩

theorem programStep_tallies (nodes : Array Node) :
    Tallies cap text Anywhere (programStep nodes) (fun _ => Anywhere) (ns ++ nodes.toList)
      fun r => ns ++ r.2.toList := by
  rw [programStep_eq]
  refine (peek_tallies _).bind fun t => Tallies.from_ (C := Anywhere) ?_ fun _ _ => trivial
  split
  · exact pure_ends (.refl _)
  split
  · exact addItem_tallies (declarationWith_adds true fun _ => protocolRest_adds) nodes
  · exact (skip_adds _).then fun skipped => pure_ends ⟨by simp, by simp⟩

theorem program_adds : Adds cap text C program ([·]) := fun _ =>
  (gather_adds fun _ => programStep_tallies).then fun declarations =>
    (flush_tallies fun _ h => h).bind fun extras => branch_tallies (by simp) ⟨by simp, by simp⟩

end Idl

/-! ## Schemas -/

namespace Schema

variable {sync : TokenSet}

theorem nameKind_ne (name : String) : nameKind name ≠ .error := by
  unfold nameKind
  repeat' split
  all_goals simp

theorem objectKind_ne (source : List Char) (members : List Node) :
    objectKind source members ≠ .error := by
  unfold objectKind
  simp only []
  repeat' split
  all_goals simp

theorem brackets_adds {kind : NodeKind} (hkind : kind ≠ .error) {first : TokenSet}
    {element : TokenSet → Parser (List Node)}
    (h : ∀ sync, Adds cap text (Offers first) (element sync) id) :
    Adds cap text (Next (.punct .lBracket)) (brackets kind first element sync) ([·]) := fun _ =>
  (bump_next _ rfl (by simp)).then fun _ => (list_adds h).then fun _ =>
    branch_tallies hkind ⟨by simp, by simp⟩

/-- Readers for one level that keep the tally. -/
structure Level.Tallies (cap : Nat) (text : List Char) (l : Level) : Prop where
  value : ∀ sync, Adds cap text (Offers First.schemaValue) (l.value sync) ([·])
  object : ∀ kind sync, kind ≠ some .error →
    Adds cap text (Next (.punct .lBrace)) (l.object kind sync) ([·])

theorem deeper_adds {inner : Option Level} {k : Level → Parser α} {g : α → List Node}
    (h : ∀ l ∈ inner, Adds cap text C (k l) g) : Adds cap text C (deeper inner k) g := by
  unfold deeper
  cases inner with
  | some l => exact h l rfl
  | none =>
    intro ns o s a s' _ _ _ hr
    obtain ⟨_, _, _, hr⟩ := bind_ok hr
    exact (tooDeep_ok hr).elim

theorem schemaValue_orderly : Orderly First.schemaValue :=
  First.schemaValue_eq ▸ Orderly.ofList (by decide)

theorem unquotedAhead_tallies :
    Tallies cap text C unquotedAhead (fun _ => C) ns fun _ => ns :=
  get_tallies fun _ => pure_tallies (.refl _) fun _ h => h

section Readers

variable {inner : Option Level} (hinner : ∀ l ∈ inner, l.Tallies cap text)
include hinner

theorem value_adds : Adds cap text (Offers First.schemaValue) (value inner sync) ([·]) := by
  refine fun ns => (peek_offers_tallies schemaValue_orderly).bind fun t =>
    Tallies.assuming fun ht => ?_
  have hnext {k : Kind} (hk : t.kind = k) (s : Session) (h : s.Faces First.schemaValue t) :
      Next k s :=
    ⟨_, t, h, hk⟩
  split
  · exact (deeper_adds (fun l hl => (hinner l hl).object none sync (by simp)) ns).from_ (hnext ‹_›)
  · exact (deeper_adds (fun l hl => brackets_adds (by simp) fun sync ns =>
      ((hinner l hl).value sync).then fun n => pure_ends (.refl _)) ns).from_ (hnext ‹_›)
  · exact unquotedAhead_tallies.bind fun name =>
      (leaf_next (schemaValue_orderly.meant ht) (nameKind_ne name) ns).from_ (hnext rfl)

theorem schemaMember_adds : Adds cap text C (schemaMember inner sync) id := by
  refine fun ns => (peek_tallies _).bind fun t => ?_
  split
  · rename_i ht
    refine ((flush_tallies (C := Offers First.schemaValue) fun _ h => h).from_
      fun s h => ⟨_, t, fun _ h => h, h, ht⟩).bind fun extras =>
        (value_adds hinner).then fun n => ?_
    exact pure_ends ⟨by simp, by simp⟩
  · exact expect_adds _ _ rfl _

omit hinner in
theorem listMember_adds {kind : NodeKind} (hkind : kind ≠ .error) {first : TokenSet}
    {element : Level → TokenSet → Parser (List Node)}
    (h : ∀ l ∈ inner, ∀ sync, Adds cap text (Offers first) (element l sync) id) :
    Adds cap text C (listMember inner kind first element sync) id := by
  refine fun ns => (nextIs_tallies _).bind fun b => ?_
  cases b with
  | true =>
    exact flush_next.bind fun extras => (deeper_adds fun l hl => brackets_adds hkind (h l hl)).then
      fun items => pure_ends ⟨by simp, by simp⟩
  | false => exact expect_adds _ _ rfl _

theorem member_adds (key : String) : Adds cap text C (member inner key sync) id := by
  unfold member
  split
  · exact schemaMember_adds hinner
  · exact schemaMember_adds hinner
  · exact schemaMember_adds hinner
  · exact listMember_adds (by simp) fun l hl sync ns =>
      (((hinner l hl).object _ sync (by simp) ns).from_ fun s => Offers.next rfl).bind fun n =>
        pure_ends (.refl _)
  · exact listMember_adds (by simp) fun _ _ _ => bump_only (k := .string) rfl none (by simp)
  · exact listMember_adds (by simp) fun l hl sync ns =>
      ((hinner l hl).value sync).then fun n => pure_ends (.refl _)
  · exact expect_adds _ _ rfl

theorem pair_adds : Adds cap text (Offers (.single .string)) (pair inner sync) ([·]) := by
  refine fun ns => ((flush_tallies (C := Next .string) fun _ h => h).from_ fun s =>
    Offers.next rfl).bind fun extras => unquotedAhead_tallies.bind fun name =>
    (leaf_next rfl (by simp) _).bind fun key => (expect_adds _ _ rfl).then fun colon =>
    (member_adds hinner name).then fun value => Tallies.bind (g := fun n => ns ++ [n])
      (branch_tallies (by simp) ⟨by simp, by simp⟩) fun node => pure_ends ⟨by simp, by simp⟩

theorem object_adds {kind : Option NodeKind} (hkind : kind ≠ some .error) :
    Adds cap text (Next (.punct .lBrace)) (object inner kind sync) ([·]) := by
  refine fun ns => (bump_next _ rfl (by simp)).then fun opening =>
    (list_adds fun sync ns => (pair_adds hinner).then fun n => pure_ends (.refl _)).then
      fun members =>
    get_tallies fun s => branch_tallies ?_ ⟨by simp, by simp⟩
  cases kind with
  | none => exact objectKind_ne _ _
  | some kind => simpa using hkind

end Readers

theorem level_tallies : ∀ n, (level n).Tallies cap text
  | 0 => ⟨fun _ => value_adds (by simp), fun _ _ => object_adds (by simp)⟩
  | n + 1 =>
    have hinner : ∀ l ∈ some (level n), l.Tallies cap text := by
      rintro _ ⟨⟩
      exact level_tallies n
    ⟨fun _ => value_adds hinner, fun _ _ => object_adds hinner⟩

theorem trailingStep_tallies (nodes : Array Node) :
    Tallies cap text Anywhere (trailingStep nodes) (fun _ => Anywhere) (ns ++ nodes.toList)
      fun r => ns ++ r.2.toList := by
  refine (peek_tallies _).bind fun t => ?_
  split
  · exact pure_ends (.refl _)
  · exact (skip_adds _).then fun skipped => pure_ends ⟨by simp, by simp⟩

theorem fileSchema_adds (found : Bool) :
    Adds cap text (fun s => found → Offers First.schemaValue s) (fileSchema found) id := by
  cases found with
  | true =>
    exact fun ns => flush_offers.bind fun extras => Tallies.bind (get_tallies fun s =>
      (level_tallies s.maxDepth).value _ _) fun n => pure_ends ⟨by simp, by simp⟩
  | false => exact fun ns => (missing_adds _ _).then fun n => pure_ends ⟨by simp, by simp⟩

theorem file_adds : Adds cap text C file ([·]) := by
  rw [file_eq]
  exact fun ns => (recoverTo_tallies _ _).bind fun r => (fileSchema_adds r.1).then fun schema =>
    (gather_adds fun _ => trailingStep_tallies).then fun rest =>
      (flush_tallies fun _ h => h).bind fun extras => branch_tallies (by simp) ⟨by simp, by simp⟩

end Schema

/-! ## Whole trees -/

theorem rootOf_adds (mode : Mode) : Adds cap text C (rootOf mode) ([·]) := by
  unfold rootOf
  split
  · exact Schema.file_adds
  · exact Idl.program_adds

theorem parse_tally {config : Config} {text : String} {tree : Tree}
    (h : parse config text = .ok tree) : ∃ o s mode, o.lacking = 0 ∧ o.faults = 0
      ∧ Tally o [tree.root] s ∧ tree = treeOf mode (tree.root, s) := by
  obtain ⟨s, hs, htree⟩ := parse_ok h
  have htidy : (Session.start text config.maxDepth (modeFor config text) none).Tidy :=
    ⟨.refl _, rfl, by simp [Session.start], by simp [Session.start]⟩
  obtain ⟨-, htally, -⟩ := rootOf_adds (C := Anywhere) _ [] _ _ _ s (start_sits _ _ _) (.refl htidy)
    trivial hs
  exact ⟨_, s, _, rfl, rfl, htally, htree⟩

end Parse

open Parse in
/-- Complaints and errors match: a tree has an error just if there is a complaint, as many nodes of
it stand for something absent as there are complaints that something is missing, and as many
tokens are errors as there are lexical complaints. -/
theorem parse_tallies {config : Config} {text : String} {tree : Tree}
    (h : parse config text = .ok tree) :
    (tree.root.hasError ↔ tree.diagnostics ≠ [])
      ∧ tree.root.descendants.countP Node.isMissing
        = (tree.diagnosticsOf .syntactic).countP Diagnostic.isAbsence
      ∧ (tree.diagnosticsOf .lexical).length
        = tree.tokens.countP fun t => t.token.kind.isError := by
  obtain ⟨o, s, mode, hlacking, hfaults, htally, htree⟩ := parse_tally h
  have hperm : tree.diagnostics.Perm (s.lexical.toList ++ s.syntactic.toList) := by
    rw [htree]
    exact List.mergeSort_perm _ _
  have hlexical : (tree.diagnosticsOf .lexical).Perm s.lexical.toList := by
    refine (hperm.filter _).trans (List.Perm.of_eq ?_)
    rw [List.filter_append, List.filter_eq_self.2 fun d hd => ?_,
      List.filter_eq_nil_iff.2 fun d hd => ?_,
      List.append_nil]
    · simp [htally.tidy.syntactic d hd]
    · simp [htally.tidy.lexical d hd]
  have hsyntactic : (tree.diagnosticsOf .syntactic).Perm s.syntactic.toList := by
    refine (hperm.filter _).trans (List.Perm.of_eq ?_)
    rw [List.filter_append, List.filter_eq_nil_iff.2 fun d hd => ?_, List.nil_append,
      List.filter_eq_self.2 fun d hd => ?_]
    · simp [htally.tidy.syntactic d hd]
    · simp [htally.tidy.lexical d hd]
  refine ⟨?_, ?_, ?_⟩
  · have herror : tree.root.hasError ↔ 0 < s.faults := by
      have := htally.faults
      rw [hfaults] at this
      simpa using this
    rw [herror, ← List.length_pos_iff, hperm.length_eq, Session.faults, List.length_append,
      Array.length_toList, Array.length_toList]
  · have hcount := htally.lacking
    rw [hlacking, Nat.zero_add, Node.absences_cons, Node.absences_nil, Nat.add_zero] at hcount
    rw [hsyntactic.countP_eq]
    exact hcount
  · rw [hlexical.length_eq, Array.length_toList, htally.tidy.size, htree]
    rfl

theorem parse_tallies_unclosed :
    ∃ tree, parse {} "record R \x7b int x = \"" = .ok tree
      ∧ (tree.root.hasError ↔ tree.diagnostics ≠ [])
      ∧ tree.root.descendants.countP Node.isMissing
        = (tree.diagnosticsOf .syntactic).countP Diagnostic.isAbsence
      ∧ (tree.diagnosticsOf .lexical).length
        = tree.tokens.countP fun t => t.token.kind.isError := by
  obtain ⟨tree, h⟩ := @Parse.parse_of_shallow {} "record R \x7b int x = \"" rfl (by decide)
    (by decide) (by decide)
  exact ⟨tree, h, parse_tallies h⟩

end AvroTree
