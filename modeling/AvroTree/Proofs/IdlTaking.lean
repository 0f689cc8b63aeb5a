import AvroTree.Parse.Idl
import AvroTree.Proofs.Deriving
import AvroTree.Proofs.Starts

/-!
# What the interface language takes

Every construct of the interface language takes tokens that its rule derives, as long as nothing is
wrong (`program_spends`).
-/

namespace AvroTree

open Token (Kind)
open Grammar (avro Derives)

namespace Parse

open AvroTree.Parse.Parser
open Session (Faces Anywhere)

variable {α β : Type} {cap : Nat} {text : List Char} {C : Session → Prop} {p : Parser α}
  {f : α → Parser β} {r : Rule} {rs : List Rule} {k : Kind}

namespace Idl

variable {sync : TokenSet}

theorem annotationUse_spends :
    Spends cap text (Next .atName) (annotationUse sync) (Derived (.symbol "annotation")) := by
  unfold annotationUse
  refine Spends.symbol (by repeat constructor) ?_
  exact (bump_derived (.field (derives_leaf (by repeat constructor))) (by decide)).seq fun name =>
    (expect_derived (.token _) rfl).seq fun opening =>
    (expect_derived (.field (derives_leaf (by repeat constructor))) rfl).seq fun value =>
    (expect_derived (.token _) rfl).seq fun closing => branch_derived

/-- The tokens of annotations, which leave a node each. -/
def Noted (ns : List Node) (ts : List Token) : Prop :=
  Derived (.many (.symbol "annotation")) ts ∧ (ns = [] → ts = [])

theorem annotations_takes :
    Takes cap text C (annotations sync) (fun _ _ => True) Noted := by
  unfold annotations
  refine gather_takes Noted Noted [] (fun nodes => (nextIs_takes .atName).after fun b => ?_)
    ⟨.manyNil, fun _ => rfl⟩
  cases b with
  | false =>
    refine (pure_any _).imp (fun _ h => h) (fun _ _ h => h) ?_
    rintro _ _ ⟨rfl, rfl⟩ ts hts
    rwa [List.append_nil]
  | true =>
    have hnext : Takes cap text (fun s => true = true →
        ∃ t, s.Faces (.single .atName) t ∧ t.kind = .atName) flush
          (fun _ => Next .atName) Nothing :=
      (flush_takes fun _ h => h).imp (fun s h => ⟨_, h rfl⟩) (fun _ _ h => h) fun _ _ h => h
    refine hnext.after fun extras => annotationUse_spends.ret (fun _ _ _ => trivial) ?_
    rintro n us hus ts ⟨hts, -⟩
    exact ⟨hus.ne_nil (by repeat constructor), hts.manyAppend hus, by simp⟩

theorem annotations_spends :
    Spends cap text C (annotations sync) (Derived (.many (.symbol "annotation"))) :=
  annotations_takes.imp (fun _ h => h) (fun _ _ h => h) fun _ _ h => h.1

theorem decimalType_spends :
    Spends cap text (Next (.keyword .decimal)) (decimalType sync)
      (Derived (.symbol "decimal_type")) := by
  unfold decimalType
  refine Spends.symbol (by repeat constructor) ?_
  refine (leaf_derived (.token _) (by decide)).seq fun word =>
    (expect_derived (.token _) rfl).seq fun opening =>
    (expect_derived (.field (derives_leaf (by repeat constructor))) rfl).seq fun precision => ?_
  simp only [pure_bind]
  have hend (ns : List Node) : Spends cap text Anywhere (do
      let closing ← expect sync (.punct .rParen)
      branch .decimalType (word :: opening ++ precision ++ ns ++ closing))
      (Derived (.seq [.mark .rParen])) :=
    (expect_derived (.token _) rfl).seq fun closing => branch_derived
  refine optional_derived (Spends.group ?_) (hend [])
  exact (bump_derived (.token _) (by decide)).seq fun comma =>
    (expect_derived (.field (derives_leaf (by repeat constructor))) rfl).seq fun scale => hend _

theorem mem_baseTypeKinds (h : k ∈ Grammar.baseTypeKinds) : k = .identifier
    ∨ ∃ w ∈ [Keyword.decimal, .array, .map, .union] ++ Keyword.primitives ++ Keyword.logicals,
      k = .keyword w := by
  rcases List.mem_cons.1 h with rfl | h
  · exact .inl rfl
  · obtain ⟨w, hw, rfl⟩ := List.mem_map.1 h
    exact .inr ⟨w, hw, rfl⟩

section Types

variable {type : TypeReader}
  (htype : ∀ sync field, Spends cap text Anywhere (type sync field) (Derived (.symbol "_type")))

include htype

theorem container_spends {kind : NodeKind} {field : String} {word : Keyword} :
    Spends cap text (Next (.keyword word)) (container type kind field word sync)
      (Derived (.seq [.keyword word, .mark .lAngle, .field field (.symbol "_type"),
        .mark .rAngle])) := by
  unfold container
  have hitem (sync : TokenSet) (label : Option String) :
      Spends cap text Anywhere (type sync label) (Derived (.field field (.symbol "_type"))) :=
    (htype sync label).imp (fun _ h => h) (fun _ _ h => h) fun _ _ h => .field h
  exact (leaf_derived (.token _) (by simp)).seq fun word =>
    (expect_derived (.token _) rfl).seq fun opening =>
    (hitem _ _).seq fun item =>
    (expect_derived (.token _) rfl).seq fun closing => branch_derived

theorem unionType_spends :
    Spends cap text (Next (.keyword .union)) (unionType type sync)
      (Derived (.symbol "union_type")) := by
  unfold unionType
  refine Spends.symbol (by repeat constructor) ?_
  refine (leaf_derived (.token _) (by simp)).seq fun word => opened_derived rfl ?_ ?_
  · intro opening
    exact Takes.before (list_derived (r := .symbol "_type") (fun sync => (htype sync none).anywhere)
      fun ts h => h.ne_nil (by repeat constructor)) fun members => branch_takes _ _
  · intro opening
    exact (pure_nothing _).after fun _ => branch_derived.anything

theorem baseType_spends :
    Spends cap text (Offers First.baseType) (baseType type sync)
      (Derived (.symbol "_base_type")) := by
  unfold baseType
  have horderly : Orderly First.baseType := First.baseType_eq ▸ Orderly.ofList (by decide)
  refine (peek_offers horderly).after fun t => Takes.given fun ht => ?_
  rw [First.baseType_eq] at ht
  replace ht : t.kind ∈ Grammar.baseTypeKinds := TokenSet.mem_of_contains (by decide) ht
  have hnext {k : Kind} (hk : t.kind = k) (s : Session) (h : s.Faces First.baseType t) : Next k s :=
    ⟨_, t, h, hk⟩
  refine Spends.symbol (by repeat constructor) ?_
  split
  · rename_i hk
    exact (decimalType_spends.from_ (hnext hk)).choice (by repeat constructor)
  · rename_i hk
    exact Spends.choice (r := .symbol "array_type") (by repeat constructor)
      (Spends.symbol (by repeat constructor) ((container_spends htype).from_ (hnext hk)))
  · rename_i hk
    exact Spends.choice (r := .symbol "map_type") (by repeat constructor)
      (Spends.symbol (by repeat constructor) ((container_spends htype).from_ (hnext hk)))
  · rename_i hk
    exact ((unionType_spends htype).from_ (hnext hk)).choice (by repeat constructor)
  · rename_i w h₁ h₂ h₃ h₄ hk
    have hword {r : Rule} {kind : NodeKind} (h : avro.Derives r [.keyword w]) :
        Spends cap text (fun s => s.Faces First.baseType t) (leaf kind) (Derived r) :=
      (leaf_derived h (by simp)).from_ (hnext hk)
    rw [hk] at ht
    split
    · rename_i hw
      refine Spends.choice (r := .symbol "primitive_type") (by repeat constructor)
        (Spends.symbol (by repeat constructor) (hword (.choice ?_ (.token _))))
      exact List.mem_map.2 ⟨w, by simpa [Keyword.isPrimitive] using hw, rfl⟩
    split
    · rename_i hw
      refine Spends.choice (r := .symbol "logical_type") (by repeat constructor)
        (Spends.symbol (by repeat constructor) (hword (.choice ?_ (.token _))))
      exact List.mem_map.2 ⟨w, by simpa [Keyword.isLogical] using hw, rfl⟩
    · rename_i hw hw'
      obtain hk | ⟨v, hv, hk⟩ := mem_baseTypeKinds ht
      · cases hk
      · obtain rfl := Kind.keyword.inj hk
        simp_all [Keyword.isPrimitive, Keyword.isLogical]
  · rename_i hk
    obtain ht | ⟨w, -, ht⟩ := mem_baseTypeKinds ht
    · exact Spends.choice (r := .symbol "type_reference") (by repeat constructor)
        ((leaf_derived (derives_leaf (by repeat constructor)) (by simp)).from_ (hnext ht))
    · exact absurd ht (hk w)

theorem nullableType_spends :
    Spends cap text (Offers First.baseType) (nullableType type sync)
      (Derived (.symbol "_unannotated_type")) := by
  unfold nullableType
  refine Spends.symbol (by repeat constructor) ?_
  refine (baseType_spends htype).bind (M := fun _ _ us => us = [] ∨ One (.punct .question) us)
    (fun base => (nextIs_takes _).after fun b => ?_) ?_
  · cases b with
    | false => exact (pure_spends _).imp (fun _ h => h) (fun _ _ h => h) fun _ _ h => .inl h
    | true =>
      refine Takes.before ?_ fun question => branch_takes _ _
      refine (bump_one (by decide)).imp (fun s h => ⟨_, h rfl⟩) (fun _ _ h => h) fun _ _ h => .inr h
  · rintro _ _ ts us hts (rfl | hus)
    · rw [List.append_nil]
      exact hts.choice (by repeat constructor)
    · exact Derived.choice (r := .symbol "nullable_type") (by repeat constructor)
        (.symbol (by repeat constructor) (hts.seq (Derived.one hus).last))

omit htype in
theorem annotatedType_spends {unannotated : TokenSet → Parser Node} {field : Option String}
    (h : Spends cap text (Offers First.baseType) (unannotated sync)
      (Derived (.symbol "_unannotated_type"))) :
    Spends cap text C (annotatedType unannotated sync field) (Derived (.symbol "_type")) := by
  unfold annotatedType
  refine (recoverTo_takes _ _).after ?_
  rintro ⟨started, skipped⟩
  cases started with
  | false => exact missing_vain fun n => (pure_spends _).anything
  | true =>
    refine annotations_spends.bind (M := fun _ _ us => Derived (.symbol "_unannotated_type") us)
      (fun notes => (recoverTo_takes _ _).after ?_) fun _ _ ts us hts hus => hts.annotated hus
    rintro ⟨found, more⟩
    cases found with
    | false => exact missing_vain fun n => (pure_spends _).anything
    | true =>
      have hflush : Takes cap text (fun s => true = true → Offers First.baseType s) flush
          (fun _ => Offers First.baseType) Nothing :=
        (flush_takes (C := Offers First.baseType) fun _ h => h).imp (fun _ h => h rfl)
          (fun _ _ h => h)
          fun _ _ h => h
      exact hflush.after fun extras => h.before fun type => pure_spends _

end Types

theorem typeAt_spends : ∀ (levels : Nat) (sync : TokenSet) (field : Option String),
    Spends cap text Anywhere (typeAt levels sync field) (Derived (.symbol "_type"))
  | 0, sync, field => annotatedType_spends fun s a s' _ _ hr => by
    obtain ⟨_, _, _, hr⟩ := bind_ok hr
    exact (tooDeep_ok hr).elim
  | levels + 1, sync, field =>
    annotatedType_spends (nullableType_spends (typeAt_spends levels))

theorem type_spends {field : Option String} :
    Spends cap text C (type sync field) (Derived (.symbol "_type")) :=
  get_takes.after fun s => (typeAt_spends s.maxDepth sync field).anywhere

/-! ## Fields and messages -/

theorem typeField_spends {field : Option String} {name : String} :
    Spends cap text C (type sync field) (Derived (.field name (.symbol "_type"))) :=
  type_spends.imp (fun _ h => h) (fun _ _ h => h) fun _ _ h => .field h

theorem name_spends {field : Option String} :
    Spends cap text C (expect sync .identifier field)
      (Derived (.field "name" (.symbol "identifier"))) :=
  expect_derived (.field (derives_leaf (by repeat constructor))) rfl

theorem defaultValue_spends :
    Spends cap text C (defaultValue sync)
      (Derived (.optional (.seq [.mark .equals, .field "default" (.symbol "json_value")]))) := by
  unfold defaultValue
  refine Spends.only (optional_derived (Spends.group ?_) pure_derived)
  exact (bump_derived (.token _) (by decide)).seq fun equals =>
    (expect_derived (.field (derives_leaf (by repeat constructor))) rfl).seq
      fun value => pure_derived

theorem namedVariable_spends :
    Spends cap text C (namedVariable sync) (Derived (.symbol "_variable")) := by
  unfold namedVariable
  refine Spends.symbol (by repeat constructor) ?_
  exact annotations_spends.seq fun notes => name_spends.seq fun name =>
    defaultValue_spends.seq fun value => pure_derived

theorem fieldDeclaration_spends :
    Spends cap text C (fieldDeclaration sync) (Derived (.symbol "field_declaration")) := by
  unfold fieldDeclaration
  refine Spends.symbol (by repeat constructor) ?_
  refine typeField_spends.seq fun type => namedVariable_spends.seq fun first =>
    (gather_many fun nodes => (nextIs_takes _).after fun b => ?_).seq fun more =>
    (expect_derived (.token _) rfl).seq fun closing => branch_derived
  cases b with
  | false => exact (pure_any _).imp (fun _ h => h) (fun _ _ h => h) fun _ _ h => by simp [h.1, h.2]
  | true =>
    refine ((bump_one (by decide)).from_ fun s h => ⟨_, h rfl⟩).bind
      (M := fun _ r us => r.1 = true ∧ Derived (.symbol "_variable") us)
      (fun comma => namedVariable_spends.ret (fun _ _ h => h) fun _ _ h => ⟨rfl, h⟩) ?_
    rintro _ r ts us hts ⟨hr, hus⟩
    have hcomma : Derived (.mark .comma) ts := .one hts
    obtain ⟨t, rfl, -⟩ := hts
    rw [if_pos hr]
    exact ⟨by simp, hcomma.seq hus.last⟩

theorem parameter_spends :
    Spends cap text C (parameter sync) (Derived (.symbol "parameter")) := by
  unfold parameter
  refine Spends.symbol (by repeat constructor) ?_
  exact typeField_spends.seq fun type => name_spends.seq fun name =>
    defaultValue_spends.seq fun value => branch_derived

theorem parameterList_spends :
    Spends cap text C (parameterList sync) (Derived (.symbol "parameter_list")) := by
  unfold parameterList
  refine Spends.symbol (by repeat constructor)
    (opened_derived rfl (fun opening => ?_) fun opening => ?_)
  · exact Takes.before (list_derived (r := .symbol "parameter")
      (fun sync => parameter_spends.before fun _ => pure_spends _) fun ts h =>
        h.ne_nil (by repeat constructor))
      fun parameters => branch_takes _ _
  · exact (pure_nothing _).after fun _ => branch_derived.anything

theorem throwsClause_spends :
    Spends cap text (Next (.keyword .throws)) (throwsClause sync)
      (Derived (.symbol "throws_clause")) := by
  unfold throwsClause
  refine Spends.symbol (by repeat constructor) ?_
  refine (bump_derived (.token _) (by decide)).seq fun word =>
    Spends.seq ?_ fun names => branch_derived
  refine (gather_takes (fun _ ts => ts = [] ∨ ∃ us comma, ts = us ++ [comma]
    ∧ Separated (Derived (.symbol "type_reference")) us ∧ comma.kind = .punct .comma)
    (fun _ => Separated (Derived (.symbol "type_reference"))) [] (fun nodes => ?_) (.inl rfl)).imp
    (fun _ h => h) (fun _ _ h => h) ?_
  · refine (expectAs?_takes _ _ _ rfl).bind (M := fun _ r us => if r.1 then
      One (.punct .comma) us else us = []) (fun a => (nextIs_takes _).after fun b => ?_) ?_
    · cases b with
      | false =>
        refine (pure_any _).imp (fun _ h => h) (fun _ _ h => h) ?_
        rintro _ _ ⟨rfl, rfl⟩
        rfl
      | true =>
        refine Takes.ret ((bump_one (by decide)).from_ fun s h => ⟨_, h rfl⟩) (fun _ _ _ => trivial)
          fun _ _ h => h
    · rintro a r ts us ⟨-, t, rfl, ht⟩ hus vs hvs
      have hname : Derived (.symbol "type_reference") [t] :=
        .symbol (by repeat constructor) (.one ⟨t, rfl, ht⟩)
      have hsep : Separated (Derived (.symbol "type_reference")) (vs ++ [t]) := by
        rcases hvs with rfl | ⟨ws, comma, rfl, hws, hcomma⟩
        · exact .one hname
        · exact .more hws hcomma hname
      split at hus
      · rename_i hr
        obtain ⟨comma, rfl, hcomma⟩ := hus
        rw [if_pos hr]
        exact ⟨by simp, .inr ⟨vs ++ [t], comma, by simp, hsep, hcomma⟩⟩
      · rename_i hr
        subst hus
        rw [if_neg hr, List.append_nil]
        exact hsep
  · rintro _ ts hts
    obtain ⟨us, vs, rfl, hus, hvs⟩ := hts.derived
    exact hus.seq hvs.last

theorem message_spends :
    Spends cap text C (message sync) (Derived (.seq
      [.field "return" (.symbol "_return_type"), .field "name" (.symbol "identifier"),
       .field "parameters" (.symbol "parameter_list"),
       .optional (.choice [.symbol "throws_clause", .symbol "oneway"]), .mark .semicolon])) := by
  unfold message
  refine either_derived ?_ ?_ fun result => name_spends.seq fun name =>
    parameterList_spends.field.seq fun parameters => (peek_takes _).after fun t => ?_
  · refine Spends.field (Spends.symbol (by repeat constructor) ?_)
    exact Spends.choice (r := .symbol "void_type") (by repeat constructor)
      (bump_derived (derives_leaf (by repeat constructor)) (by decide))
  · refine Spends.field (Spends.symbol (by repeat constructor) ?_)
    exact type_spends.choice (by repeat constructor)
  have hend (f : List Node → List Node) : Spends cap text Anywhere
      (expect sync (.punct .semicolon) >>= fun closing => pure (f closing))
      (Derived (.seq [.mark .semicolon])) :=
    (expect_derived (.token _) rfl).seq fun closing => pure_derived
  split
  · rename_i ht
    refine flush_faces.after fun extras =>
      Spends.seq (Spends.present (Spends.choice (by repeat constructor)
        (throwsClause_spends.from_ fun s h => ⟨_, t, h, ht⟩))) fun clause => hend _
  · rename_i ht
    refine Spends.seq (Spends.present (Spends.choice (r := .symbol "oneway") (by repeat constructor)
      ((bump_derived (derives_leaf (by repeat constructor)) (by decide)).from_
        fun s h => ⟨_, t, h, ht⟩))) fun clause => hend _
  · exact (hend _).from_ (fun _ _ => trivial) |>.absent

/-! ## Declarations -/

theorem bodyStep_takes {form : BodyForm} {element : Parser Node} {nodes : Array Node}
    (h : Spends cap text (Offers form.first) element (Derived r))
    (hne : ∀ ts, Derived r ts → ts ≠ []) :
    Takes cap text Anywhere (bodyStep sync form element nodes) (fun _ _ => True) fun a us =>
      if a.1 then us ≠ [] ∧ Derived r us else One (.punct .rBrace) us := by
  have hsub (k : Kind) (hk : form.first.contains k) : (form.continues ∪ sync).contains k := by
    simp [BodyForm.continues, hk]
  rw [bodyStep_eq]
  refine (peek_takes _).after fun t => ?_
  split
  · rename_i ht
    exact ((bump_one (by decide)).from_ fun s h => ⟨_, t, h, ht⟩).ret (fun _ _ h => h)
      fun _ _ h => h
  split
  · rename_i ht
    refine (addItem_takes (h.from_ fun s hs => ⟨_, t, hsub, hs, ht⟩)).imp (fun _ h => h)
      (fun _ _ h => h) ?_
    rintro r us ⟨hgo, hus⟩
    rw [if_pos hgo]
    exact ⟨hne us hus, hus⟩
  split
  · exact Takes.vain (Takes.ret (missing_takes (C := Anywhere) fun _ _ h => h)
      (fun _ _ _ => trivial) fun _ _ h => h).anywhere
  · rename_i hstop
    exact Takes.vain ((skip_vain fun he => hstop (.inl he)).ret (fun _ _ _ => trivial)
      fun _ _ h => h)

theorem body_spends {form : BodyForm} {element : TokenSet → Parser Node}
    (h : ∀ sync, Spends cap text (Offers form.first) (element sync) (Derived r))
    (hne : ∀ ts, Derived r ts → ts ≠ []) :
    Spends cap text C (body sync form element)
      (Derived (.seq [.mark .lBrace, .many r, .mark .rBrace])) := by
  have hitems (opening : List Node) : Spends cap text Anywhere
      (gather (bodyStep sync form (element (sync ∪ form.continues))) opening)
      (Derived (.seq [.many r, .mark .rBrace])) := by
    refine gather_takes (fun _ => Derived (.many r))
      (fun _ => Derived (.seq [.many r, .mark .rBrace])) _
      (fun nodes => (bodyStep_takes (h _) hne).imp (fun _ h => h) (fun _ _ h => h) ?_) .manyNil
    rintro ⟨go, nodes⟩ us hus ts hts
    cases go with
    | true => exact ⟨hus.1, hts.manyAppend hus.2⟩
    | false => exact hts.seq (Derived.one hus).last
  have hbranch (opening : List Node) : Spends cap text Anywhere (do
      branch form.kind (← gather (bodyStep sync form (element (sync ∪ form.continues))) opening))
      (Derived (.seq [.many r, .mark .rBrace])) :=
    (hitems opening).before fun _ => branch_takes _ _
  unfold body
  refine opened_derived rfl (fun opening => ?_) fun opening => ?_
  · simp only [pure_bind, ↓reduceIte]
    exact hbranch opening
  · simp only [pure_bind, Bool.false_eq_true, ↓reduceIte]
    refine (peek_takes _).after fun t => ?_
    split
    · exact (hbranch opening).anything.anywhere
    · exact branch_derived.anything

theorem recordBody_spends :
    Spends cap text C (body sync ⟨.recordBody, First.fieldDeclaration, .single (.punct .semicolon)⟩
      fieldDeclaration) (Derived (.symbol "record_body")) :=
  Spends.symbol (by repeat constructor) (body_spends (fun _ => fieldDeclaration_spends)
    fun ts h => h.ne_nil (by repeat constructor))

theorem recordRest_spends :
    Spends cap text C (recordRest sync) (Derived (.seq
      [.field "name" (.symbol "identifier"), .field "body" (.symbol "record_body")])) :=
  name_spends.seq fun _ => recordBody_spends.field.seq fun _ => pure_derived

theorem enumBody_spends : Spends cap text C (enumBody sync) (Derived (.symbol "enum_body")) := by
  unfold enumBody
  refine Spends.symbol (by repeat constructor)
    (opened_derived rfl (fun opening => ?_) fun opening => ?_)
  · refine Takes.before (list_derived (r := .symbol "enum_symbol") (fun sync => ?_) ?_)
      fun symbols => branch_takes _ _
    · refine Offers.takes fun wanted t _ ht => ?_
      obtain ht := TokenSet.eq_of_contains_single rfl ht
      exact (bump_derived (derives_leaf (by repeat constructor)) (by decide)).from_
        fun s h => ⟨_, t, h, ht⟩
    · exact fun ts h => h.ne_nil (by repeat constructor)
  · exact (pure_nothing _).after fun _ => branch_derived.anything

theorem enumDefault_spends :
    Spends cap text (Next (.punct .equals)) (enumDefault sync)
      (Derived (.symbol "enum_default")) := by
  unfold enumDefault
  refine Spends.symbol (by repeat constructor) ?_
  exact (bump_derived (.token _) (by decide)).seq fun equals =>
    (expect_derived (.field (derives_leaf (by repeat constructor))) rfl).seq fun value =>
    (expect_derived (.token _) rfl).seq fun closing => branch_derived

theorem enumRest_spends :
    Spends cap text C (enumRest sync) (Derived (.seq
      [.field "name" (.symbol "identifier"), .field "body" (.symbol "enum_body"),
       .optional (.field "default" (.symbol "enum_default"))])) := by
  unfold enumRest
  refine name_spends.seq fun name => enumBody_spends.field.seq fun body => ?_
  simp only [pure_bind]
  refine optional_derived ?_ pure_derived
  have hflush :
      Takes cap text (Next (.punct .equals)) flush (fun _ => Next (.punct .equals)) Nothing :=
    flush_takes fun _ h => h
  exact hflush.after fun extras => enumDefault_spends.field.seq fun default => pure_derived

theorem fixedRest_spends :
    Spends cap text C (fixedRest sync) (Derived (.seq
      [.field "name" (.symbol "identifier"), .mark .lParen, .field "size" (.symbol "number"),
       .mark .rParen, .mark .semicolon])) :=
  name_spends.seq fun name => (expect_derived (.token _) rfl).seq fun opening =>
    (expect_derived (.field (derives_leaf (by repeat constructor))) rfl).seq fun size =>
    (expect_derived (.token _) rfl).seq fun closing =>
    (expect_derived (.token _) rfl).seq fun ending => pure_derived

theorem importRest_spends :
    Spends cap text C (importRest sync) (Derived (.seq
      [.field "kind" (.symbol "import_kind"), .field "path" (.symbol "string"),
       .mark .semicolon])) := by
  have hrest (ns : List Node) : Spends cap text Anywhere (do
      let path ← expect sync .string (some "path")
      let closing ← expect sync (.punct .semicolon)
      return ns ++ path ++ closing)
      (Derived (.seq [.field "path" (.symbol "string"), .mark .semicolon])) :=
    (expect_derived (.field (derives_leaf (by repeat constructor))) rfl).seq fun path =>
    (expect_derived (.token _) rfl).seq fun closing => pure_derived
  unfold importRest
  refine (recoverTo_takes _ _).after ?_
  rintro ⟨found, skipped⟩
  cases found with
  | false => exact missing_vain fun n => (hrest _).anything
  | true =>
    refine Spends.seq (Spends.from_ (C := Offers First.importKind) ?_ fun s h => h rfl)
      fun kind => hrest _
    refine Offers.takes fun wanted t _ ht => ?_
    rw [First.importKind_eq] at ht
    replace ht : t.kind ∈ Grammar.importKinds := TokenSet.mem_of_contains (by decide) ht
    have hkind : avro.Derives (.field "kind" (.symbol "import_kind")) [t.kind] := by
      refine .field (Grammar.avro_rule (by repeat constructor) ?_)
      rcases List.mem_cons.1 ht with h | ht
      · rw [h]
        exact .choice (by repeat constructor) (.token _)
      rcases List.mem_cons.1 ht with h | ht
      · rw [h]
        exact .choice (by repeat constructor) (.token _)
      · rw [List.mem_singleton.1 ht]
        exact .choice (by repeat constructor) (.token _)
    refine (bump_derived hkind ?_).from_ fun s h => ⟨_, t, h, rfl⟩
    rintro he
    rw [he] at ht
    revert ht
    decide

/-- What a declaration is made of behind its annotations. -/
def parts : NodeKind → List Rule
  | .namespaceStatement =>
    [.keyword .nameSpace, .field "name" (.symbol "identifier"), .mark .semicolon]
  | .schemaDeclaration => [.keyword .schema, .field "type" (.symbol "_type"), .mark .semicolon]
  | .protocolDeclaration =>
    [.keyword .protocol, .field "name" (.symbol "identifier"),
     .field "body" (.symbol "protocol_body")]
  | .importDeclaration =>
    [.keyword .importFile, .field "kind" (.symbol "import_kind"), .field "path" (.symbol "string"),
     .mark .semicolon]
  | .recordDeclaration =>
    [.keyword .record, .field "name" (.symbol "identifier"), .field "body" (.symbol "record_body")]
  | .errorDeclaration =>
    [.keyword .error, .field "name" (.symbol "identifier"), .field "body" (.symbol "record_body")]
  | .enumDeclaration =>
    [.keyword .enum, .field "name" (.symbol "identifier"), .field "body" (.symbol "enum_body"),
     .optional (.field "default" (.symbol "enum_default"))]
  | .fixedDeclaration =>
    [.keyword .fixed, .field "name" (.symbol "identifier"), .mark .lParen,
     .field "size" (.symbol "number"), .mark .rParen, .mark .semicolon]
  | .messageDeclaration =>
    [.field "return" (.symbol "_return_type"), .field "name" (.symbol "identifier"),
     .field "parameters" (.symbol "parameter_list"),
     .optional (.choice [.symbol "throws_clause", .symbol "oneway"]), .mark .semicolon]
  | _ => []

/-- The declarations that only a file holds. -/
def fileRules : List Rule :=
  [.symbol "namespace_statement", .symbol "schema_declaration", .symbol "protocol_declaration"]

def memberRules : List Rule :=
  [.symbol "import_declaration", .symbol "record_declaration", .symbol "error_declaration",
   .symbol "enum_declaration", .symbol "fixed_declaration", .symbol "message_declaration"]

/-- The rule of the declarations of a file or of a protocol. -/
def declarationRule (top : Bool) : Rule :=
  .symbol (if top then "_declaration" else "_protocol_member")

theorem derived_member {top : Bool} {ts : List Token} (hr : r ∈ memberRules) (h : Derived r ts) :
    Derived (declarationRule top) ts := by
  cases top with
  | true => exact .oneOf (by repeat constructor) (List.mem_append_right fileRules hr) h
  | false => exact .oneOf (by repeat constructor) hr h

theorem derived_file {ts : List Token} (hr : r ∈ fileRules) (h : Derived r ts) :
    Derived (declarationRule true) ts :=
  .oneOf (by repeat constructor) (List.mem_append_left memberRules hr) h

theorem headKind?_cases {top : Bool} {kind : NodeKind} (h : headKind? top k = some kind) :
    (top = true ∧ (k = .keyword .nameSpace ∧ kind = .namespaceStatement
      ∨ k = .keyword .schema ∧ kind = .schemaDeclaration
      ∨ k = .keyword .protocol ∧ kind = .protocolDeclaration))
    ∨ (k = .keyword .importFile ∧ kind = .importDeclaration
      ∨ k = .keyword .record ∧ kind = .recordDeclaration
      ∨ k = .keyword .error ∧ kind = .errorDeclaration
      ∨ k = .keyword .enum ∧ kind = .enumDeclaration
      ∨ k = .keyword .fixed ∧ kind = .fixedDeclaration)
    ∨ kind = .messageDeclaration := by
  unfold headKind? at h
  split at h
  all_goals simp_all

theorem declared {top : Bool} {kind : NodeKind} {notes : List Node} {ts us : List Token}
    (hkind : headKind? top k = some kind) (hts : Noted notes ts)
    (hnotes : annotatable kind ∨ notes = []) (hus : Derived (.seq (parts kind)) us) :
    Derived (declarationRule top) (ts ++ us) := by
  have hplain (h : annotatable kind = false) : ts = [] := hts.2 (hnotes.resolve_left (by simp [h]))
  have hnoted : Derived (.seq (.many (.symbol "annotation") :: parts kind)) (ts ++ us) :=
    hts.1.seq hus
  rcases headKind?_cases hkind with
    ⟨rfl, ⟨-, rfl⟩ | ⟨-, rfl⟩ | ⟨-, rfl⟩⟩
    | (⟨-, rfl⟩ | ⟨-, rfl⟩ | ⟨-, rfl⟩ | ⟨-, rfl⟩ | ⟨-, rfl⟩) | rfl
  · rw [hplain rfl]
    exact derived_file (r := .symbol "namespace_statement") (by repeat constructor)
      (.symbol (by repeat constructor) hus)
  · rw [hplain rfl]
    exact derived_file (r := .symbol "schema_declaration") (by repeat constructor)
      (.symbol (by repeat constructor) hus)
  · exact derived_file (r := .symbol "protocol_declaration") (by repeat constructor)
      (.symbol (by repeat constructor) hnoted)
  · rw [hplain rfl]
    exact derived_member (r := .symbol "import_declaration") (by repeat constructor)
      (.symbol (by repeat constructor) hus)
  · exact derived_member (r := .symbol "record_declaration") (by repeat constructor)
      (.symbol (by repeat constructor) hnoted)
  · exact derived_member (r := .symbol "error_declaration") (by repeat constructor)
      (.symbol (by repeat constructor) hnoted)
  · exact derived_member (r := .symbol "enum_declaration") (by repeat constructor)
      (.symbol (by repeat constructor) hnoted)
  · exact derived_member (r := .symbol "fixed_declaration") (by repeat constructor)
      (.symbol (by repeat constructor) hnoted)
  · exact derived_member (r := .symbol "message_declaration") (by repeat constructor)
      (.symbol (by repeat constructor) hnoted)

/-- What stands behind the keyword of a declaration. -/
theorem declarationRest_spends {top : Bool} {protocolRest : TokenSet → Parser (List Node)}
    {kind : NodeKind} (hkind : headKind? top k = some kind) (hmessage : kind ≠ .messageDeclaration)
    (hprotocol : top → ∀ sync, Spends cap text Anywhere (protocolRest sync) (Derived (.seq
      [.field "name" (.symbol "identifier"), .field "body" (.symbol "protocol_body")]))) :
    ∃ w rs, k = .keyword w ∧ parts kind = .keyword w :: rs ∧
      Spends cap text Anywhere (declarationRest protocolRest kind sync) (Derived (.seq rs)) := by
  rcases headKind?_cases hkind with
    ⟨rfl, ⟨rfl, rfl⟩ | ⟨rfl, rfl⟩ | ⟨rfl, rfl⟩⟩
      | (⟨rfl, rfl⟩ | ⟨rfl, rfl⟩ | ⟨rfl, rfl⟩ | ⟨rfl, rfl⟩ | ⟨rfl, rfl⟩) | rfl
  · exact ⟨_, _, rfl, rfl, name_spends.seq fun name => (expect_derived (.token _) rfl).seq
      fun closing => pure_derived⟩
  · exact ⟨_, _, rfl, rfl, typeField_spends.seq fun type => (expect_derived (.token _) rfl).seq
      fun closing => pure_derived⟩
  · exact ⟨_, _, rfl, rfl, hprotocol rfl sync⟩
  · exact ⟨_, _, rfl, rfl, importRest_spends⟩
  · exact ⟨_, _, rfl, rfl, recordRest_spends⟩
  · exact ⟨_, _, rfl, rfl, recordRest_spends⟩
  · exact ⟨_, _, rfl, rfl, enumRest_spends⟩
  · exact ⟨_, _, rfl, rfl, fixedRest_spends⟩
  · exact absurd rfl hmessage

theorem settleAnnotations_takes {kind : NodeKind} {notes : List Node} {wanted : TokenSet}
    {t : Token} :
    Takes cap text (Faces wanted t) (settleAnnotations kind notes) (fun _ => Faces wanted t)
      fun _ us => us = [] ∧ (annotatable kind ∨ notes = []) := by
  unfold settleAnnotations
  split
  · rename_i h
    refine (pure_takes _).imp (fun _ h => h) (fun _ _ h => h.2) fun _ _ hus => ⟨hus.2, ?_⟩
    simpa using h
  · exact (branch_takes _ _).after fun wrapped => Takes.vain
      ((complain_takes fun _ h => h).before fun _ => pure_nothing _)

theorem declarationWith_spends {top : Bool} {protocolRest : TokenSet → Parser (List Node)}
    (hprotocol : top → ∀ sync, Spends cap text Anywhere (protocolRest sync) (Derived (.seq
      [.field "name" (.symbol "identifier"), .field "body" (.symbol "protocol_body")]))) :
    Spends cap text C (declarationWith top protocolRest sync) (Derived (declarationRule top)) := by
  unfold declarationWith
  refine annotations_takes.bind (M := fun notes _ us => ∀ ts, Noted notes ts →
    Derived (declarationRule top) (ts ++ us)) (fun notes => (peek_takes _).after fun t => ?_)
    fun notes _ ts us hts hus => hus ts hts
  cases hkind : headKind? top t.kind with
  | none => exact here_takes.after fun place => complain_vain fun _ => (pure_spends _).anything
  | some kind =>
    refine settleAnnotations_takes.bind (M := fun _ _ us => Derived (.seq (parts kind)) us)
      (fun settled => ?_) ?_
    · by_cases hmessage : kind = .messageDeclaration
      · subst hmessage
        exact message_spends.before fun _ => branch_takes _ _
      · simp only [hmessage, ↓reduceIte, pure_bind]
        obtain ⟨w, rs, hw, hparts, hrest⟩ := declarationRest_spends hkind hmessage hprotocol
        rw [hparts]
        refine Spends.seq ((bump_derived (k := .keyword w) (.token _) (by simp)).from_
          fun s h => ⟨_, t, h, hw⟩) fun word => hrest.before fun _ => branch_takes _ _
    · rintro _ _ _ us ⟨rfl, hnotes⟩ hus ts hts
      exact declared hkind hts hnotes hus

theorem protocolMember_spends :
    Spends cap text C (protocolMember sync) (Derived (.symbol "_protocol_member")) :=
  @declarationWith_spends _ _ _ _ false _ nofun

theorem protocolRest_spends :
    Spends cap text C (protocolRest sync) (Derived (.seq
      [.field "name" (.symbol "identifier"), .field "body" (.symbol "protocol_body")])) := by
  unfold protocolRest
  refine name_spends.seq fun name => Spends.seq
    (Spends.field (Spends.symbol (by repeat constructor) ?_))
    fun body => pure_derived
  exact body_spends (fun _ => protocolMember_spends) fun ts h => h.ne_nil (by repeat constructor)

theorem declaration_spends :
    Spends cap text C (declaration sync) (Derived (.symbol "_declaration")) :=
  @declarationWith_spends _ _ _ _ true _ fun _ _ => protocolRest_spends

/-! ## Whole files -/

theorem programStep_takes {nodes : Array Node} :
    Takes cap text Anywhere (programStep nodes) (fun _ _ => True) fun a us =>
      if a.1 then us ≠ [] ∧ Derived (.symbol "_declaration") us else us = [] := by
  rw [programStep_eq]
  refine (peek_takes _).after fun t => ?_
  split
  · exact (pure_any _).imp (fun _ h => h) (fun _ _ h => h) fun _ _ h => by simp [h.1, h.2]
  rename_i heof
  split
  · refine (addItem_takes declaration_spends).imp (fun _ h => h) (fun _ _ h => h) ?_
    rintro r us ⟨hgo, hus⟩
    rw [if_pos hgo]
    exact ⟨hus.ne_nil (by repeat constructor), hus⟩
  · exact Takes.vain ((skip_vain heof).ret (fun _ _ _ => trivial) fun _ _ h => h)

theorem program_spends : Spends cap text C program (Derived (.symbol "program")) := by
  unfold program
  refine Spends.symbol (by repeat constructor) (Takes.before (gather_many fun nodes =>
    programStep_takes) fun declarations => ?_)
  exact (flush_takes fun _ h => h).after fun extras => branch_takes _ _

end Idl

end Parse

end AvroTree
