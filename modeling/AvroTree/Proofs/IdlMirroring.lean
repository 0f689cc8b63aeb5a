import AvroTree.Proofs.Completeness
import AvroTree.Proofs.Constructs
import AvroTree.Proofs.Mirroring

/-!
# The interface language side by side

Every construct of the interface language does the same to both sessions of a pair, whatever the
tokens are at which the constructs around it go on, as long as the track bears with them
(`Course.Fit`).
-/

namespace AvroTree

open Token (Kind)

namespace Parse

open AvroTree.Parse.Parser

variable {T : Track} {P : Prop} {sync : TokenSet}

theorem fit_punct (p : Punct) : T.Fit (.single (.punct p)) :=
  fit_single Kind.noConfusion

theorem fit_ofList {ks : List Kind} (h : (TokenSet.ofList ks).contains .jsonSpan = false) :
    T.Fit (.ofList ks) :=
  fun _ => h

theorem fit_first {first : TokenSet} {ks : List Kind} (h : first = .ofList ks)
    (hks : (TokenSet.ofList ks).contains .jsonSpan = false) : T.Fit first :=
  fun _ => h ▸ hks

namespace Idl

/-! ## Annotations and types -/

theorem annotationUse_mirrors (hsync : T.Fit sync) :
    Mirrors T P (annotationUse sync) (annotationUse sync) := by
  have hinner : T.Fit (sync ∪ .single (.punct .rParen)) := fit_union hsync (fit_punct _)
  refine (bump_mirrors _ _).bind fun _ _ => (expect_mirrors _ _ hinner).bind fun _ _ =>
    (expect_mirrors _ _ hinner).bind fun _ _ => (expect_mirrors _ _ hsync).bind fun _ _ =>
      branch_mirrors (by decide) fun hp => ?_
  obtain ⟨⟨⟨⟨-, hname⟩, hopening⟩, hvalue⟩, hclosing⟩ := hp
  exact List.rel_append (List.rel_append (List.rel_append hname hopening) hvalue) hclosing

/-- What goes on only behind a token of a kind, which it takes. -/
theorem nextIs_strides {α : Type} [Linked α] {kind : Kind} (hkind : kind ≠ .jsonSpan)
    {more : α → Parser (Bool × α)} (h : ∀ a b, Mirrors T (P ∧ link T a b) (more a) (more b))
    (hgrows : ∀ {a : α} {r : Bool × α} {s s' : Session}, more a s = .ok (r, s') →
      s.log.size < s'.log.size) :
    Strides T P (fun a => do if ← nextIs kind then more a else return (false, a))
      (fun a => do if ← nextIs kind then more a else return (false, a)) where
  mirrors a b := (nextIs_mirrors hkind).choose fun c => by
    cases c with
    | true => exact h a b
    | false => exact .pure fun hp => ⟨rfl, hp.2⟩
  grows hp a b s t r s' hab hst hr hgood hgo := by
    obtain ⟨c, s₁, hnext, hr⟩ := bind_ok hr
    cases c with
    | true => exact ((nextIs_built kind).forward.size_le hnext).trans_lt (hgrows hr)
    | false =>
      obtain ⟨rfl, -⟩ := pure_ok hr
      cases hgo

theorem bind_grows {α β : Type} {p : Parser α} {f : α → Parser β} (hp : Forward p) {s s' : Session}
    {b : β} (hr : (p >>= f) s = .ok (b, s'))
    (h : ∀ a s₁, f a s₁ = .ok (b, s') → s₁.log.size < s'.log.size) : s.log.size < s'.log.size := by
  obtain ⟨a, s₁, h₁, hr⟩ := bind_ok hr
  exact (hp.size_le h₁).trans_lt (h a s₁ hr)

/-- Whatever starts with taking a token takes one. -/
theorem bump_bind_grows {α : Type} {kind : NodeKind} {field : Option String}
    {f : List Node → Parser α} (hf : ∀ ns, Forward (f ns)) {s s' : Session} {a : α}
    (hr : (bump kind field >>= f) s = .ok (a, s')) : s.log.size < s'.log.size := by
  obtain ⟨ns, s₁, hbump, hr⟩ := bind_ok hr
  exact (bump_grows hbump).trans_le ((hf ns).size_le hr)

theorem annotationStep_strides (hsync : T.Fit sync) :
    Strides T P (annotationStep sync) (annotationStep sync) := by
  refine nextIs_strides Kind.noConfusion (fun a b => ?_) fun hr => ?_
  · exact flush_mirrors.bind fun _ _ => (annotationUse_mirrors hsync).bind fun _ _ =>
      .pure fun hp => ⟨rfl, link_push (link_append hp.1.1.2 hp.1.2) hp.2⟩
  · refine bind_grows flush_forward hr fun extras s₁ hr => ?_
    obtain ⟨n, s₂, huse, hr⟩ := bind_ok hr
    obtain ⟨-, rfl⟩ := pure_ok hr
    exact bump_bind_grows (fun ns => .bind (expect_built _ _ _).forward fun _ =>
      .bind (expect_built _ _ _).forward fun _ => .bind (expect_built _ _ _).forward fun _ =>
        (branch_built _ _).forward) huse

theorem annotations_mirrors (hsync : T.Fit sync) :
    Mirrors T P (annotations sync) (annotations sync) :=
  gather_mirrors (annotationStep_strides hsync) fun _ => .nil

/-- A token that may be left out, and one that has to come behind it. -/
theorem optionalPair_mirrors {kind want : Kind} (hkind : kind ≠ .jsonSpan) (node : NodeKind)
    (field : String) (hsync : T.Fit sync) :
    Mirrors T P
      (do
        if ← nextIs kind then
          let mark ← bump node
          return mark ++ (← expect sync want (some field))
        else
          return [])
      (do
        if ← nextIs kind then
          let mark ← bump node
          return mark ++ (← expect sync want (some field))
        else
          return []) :=
  (nextIs_mirrors hkind).choose fun _ => .ite (fun _ => Iff.rfl)
    ((bump_mirrors _ _).bind fun _ _ => (expect_mirrors _ _ hsync).bind fun _ _ => .pure fun hp =>
      List.rel_append hp.1.2 hp.2)
    (.pure fun _ => .nil)

theorem decimalType_mirrors (hsync : T.Fit sync) :
    Mirrors T P (decimalType sync) (decimalType sync) := by
  have hinner : T.Fit (sync ∪ .single (.punct .rParen)) := fit_union hsync (fit_punct _)
  rw [decimalType_eq]
  refine (leaf_mirrors _).bind fun _ _ => (expect_mirrors _ _ hinner).bind fun _ _ =>
    (expect_mirrors _ _ hinner).bind fun _ _ =>
      (optionalPair_mirrors Kind.noConfusion _ "scale" hinner).bind fun _ _ =>
        (expect_mirrors _ _ hsync).bind fun _ _ => branch_mirrors (by decide) fun hp => ?_
  obtain ⟨⟨⟨⟨⟨-, hword⟩, hopening⟩, hprecision⟩, hscale⟩, hclosing⟩ := hp
  exact List.rel_append (List.rel_append (List.rel_append (.cons hword hopening) hprecision)
    hscale) hclosing

/-- What may be left out, and is in both parses or in none. -/
theorem optional_mirrors {c c' : Bool} (hc : P → c = c') {p q : Parser (List Node)}
    (h : Mirrors T P p q) :
    Mirrors T P (if c then p else pure []) (if c' then q else pure []) :=
  .ite (fun hp => by rw [hc hp]) h (.pure fun _ => .nil)

/-- Readers of types that do the same to both sessions of a pair. -/
def MirrorsType (T : Track) (type : TypeReader) : Prop :=
  ∀ (P : Prop) (sync : TokenSet) (field : Option String), T.Fit sync →
    Mirrors T P (type sync field) (type sync field)

section

variable {type : TypeReader}

theorem container_mirrors (h : MirrorsType T type) (kind : NodeKind) (hkind : kind.names = false)
    (field : String) (word : Keyword) (hsync : T.Fit sync) :
    Mirrors T P (container type kind field word sync) (container type kind field word sync) := by
  have hinner : T.Fit (sync ∪ .single (.punct .rAngle)) := fit_union hsync (fit_punct _)
  refine (leaf_mirrors _).bind fun _ _ => (expect_mirrors _ _ hinner).bind fun _ _ =>
    (h _ _ _ hinner).bind fun _ _ => (expect_mirrors _ _ hsync).bind fun _ _ =>
      branch_mirrors hkind fun hp => ?_
  obtain ⟨⟨⟨⟨-, hword⟩, hopening⟩, hitem⟩, hclosing⟩ := hp
  exact List.rel_append (List.rel_append (.cons hword hopening) hitem) hclosing

theorem type_fit : T.Fit First.type :=
  fit_first First.type_eq (by decide)

theorem baseType_fit : T.Fit First.baseType :=
  fit_first First.baseType_eq (by decide)

theorem unionType_mirrors (h : MirrorsType T type) (hsync : T.Fit sync) :
    Mirrors T P (unionType type sync) (unionType type sync) := by
  rw [unionType_eq]
  refine (leaf_mirrors _).bind fun _ _ => (expect?_mirrors _ _ hsync).bind fun _ _ =>
    (optional_mirrors (fun hp => hp.2.1) (list_mirrors hsync type_fit First.type_eof
      fun _ hsync => h _ _ _ hsync)).bind fun _ _ => branch_mirrors (by decide) fun hp => ?_
  obtain ⟨⟨⟨-, hword⟩, -, hopening⟩, hmembers⟩ := hp
  exact List.rel_append (.cons hword hopening) hmembers

theorem plainType_mirrors (k : Keyword) : Mirrors T P
    (if k.isPrimitive then leaf .primitiveType
      else if k.isLogical then leaf .logicalType
      else leaf .typeReference)
    (if k.isPrimitive then leaf .primitiveType
      else if k.isLogical then leaf .logicalType
      else leaf .typeReference) :=
  .ite (fun _ => Iff.rfl) (leaf_mirrors _) (.ite (fun _ => Iff.rfl) (leaf_mirrors _)
    (leaf_mirrors _))

theorem baseType_mirrors (h : MirrorsType T type) (hsync : T.Fit sync) :
    Mirrors T P (baseType type sync) (baseType type sync) := by
  refine (peek_mirrors baseType_fit).bind fun t u => ?_
  have hkind (hp : P ∧ link T t u) : u.kind = t.kind := T.kind_eq hp.2
  generalize t.kind = k, u.kind = k' at hkind ⊢
  revert k k'
  refine Mirrors.told fun k => ?_
  split
  · exact decimalType_mirrors hsync
  · exact container_mirrors h _ (by decide) _ _ hsync
  · exact container_mirrors h _ (by decide) _ _ hsync
  · exact unionType_mirrors h hsync
  · exact plainType_mirrors _
  · exact leaf_mirrors _

theorem nullableType_mirrors (h : MirrorsType T type) (hsync : T.Fit sync) :
    Mirrors T P (nullableType type sync) (nullableType type sync) := by
  refine (baseType_mirrors h hsync).bind fun base base' =>
    (nextIs_mirrors Kind.noConfusion).choose fun c => .ite (fun _ => Iff.rfl) ?_ (.pure And.right)
  exact (bump_mirrors _ _).bind fun _ _ => branch_mirrors (by decide) fun hp =>
    .cons hp.1.2 hp.2

theorem annotatedType_mirrors {unannotated : TokenSet → Parser Node}
    (h : ∀ (Q : Prop) (sync : TokenSet), T.Fit sync →
      Mirrors T Q (unannotated sync) (unannotated sync)) :
    MirrorsType T (annotatedType unannotated) := by
  intro P sync field hsync
  have absent {Q : Prop} {ns ns' : List Node} (hns : Q → link T ns ns') : Mirrors T Q
      (do return ns ++ [(← missing .typeReference "type").label field])
      (do return ns' ++ [(← missing .typeReference "type").label field]) :=
    (missing_mirrors _ _).bind fun _ _ => .pure fun hp =>
      List.rel_append (hns hp.1) (.cons (T.label field hp.2) .nil)
  refine (recoverTo_mirrors hsync type_fit).bind fun r r' => ?_
  obtain ⟨started, skipped⟩ := r
  obtain ⟨started', skipped'⟩ := r'
  refine .ite (fun hp => by rw [show started = started' from hp.2.1]) ?_ (absent fun hp => hp.2.2)
  refine (annotations_mirrors hsync).bind fun notes notes' =>
    (recoverTo_mirrors hsync baseType_fit).bind fun r r' => ?_
  obtain ⟨found, more⟩ := r
  obtain ⟨found', more'⟩ := r'
  have hfront (hp : (((P ∧ link T (started, skipped) (started', skipped'))
      ∧ link T notes notes') ∧ link T (found, more) (found', more'))) :
      link T (skipped ++ notes ++ more) (skipped' ++ notes' ++ more') :=
    List.rel_append (List.rel_append hp.1.1.2.2 hp.1.2) hp.2.2
  refine .ite (fun hp => by rw [show found = found' from hp.2.1]) ?_ (absent hfront)
  exact flush_mirrors.bind fun _ _ => (h _ _ hsync).bind fun _ _ => .pure fun hp =>
    List.rel_append (List.rel_append (hfront hp.1.1) hp.1.2) (.cons (T.label field hp.2) .nil)

end

theorem typeAt_mirrors : ∀ levels : Nat, MirrorsType T (typeAt levels)
  | 0 => annotatedType_mirrors fun _ _ _ => tooDeep_mirrors here here_built.forward
  | levels + 1 => annotatedType_mirrors fun _ _ => nullableType_mirrors (typeAt_mirrors levels)

theorem type_mirrors : MirrorsType T Idl.type := fun _ sync field hsync =>
  Mirrors.ask (fun h => h.depth) fun n => typeAt_mirrors n _ sync field hsync

/-! ## Fields and messages -/

theorem defaultValue_mirrors (hsync : T.Fit sync) :
    Mirrors T P (defaultValue sync) (defaultValue sync) :=
  optionalPair_mirrors Kind.noConfusion _ "default" hsync

theorem namedVariable_mirrors (hsync : T.Fit sync) :
    Mirrors T P (namedVariable sync) (namedVariable sync) :=
  (annotations_mirrors hsync).bind fun _ _ => (expect_mirrors _ _ hsync).bind fun _ _ =>
    (defaultValue_mirrors hsync).bind fun _ _ => .pure fun hp =>
      List.rel_append (List.rel_append hp.1.1.2 hp.1.2) hp.2

theorem variableStep_strides {inner : TokenSet} (hinner : T.Fit inner) :
    Strides T P (variableStep inner) (variableStep inner) := by
  refine nextIs_strides Kind.noConfusion (fun a b => ?_) fun hr => ?_
  · exact (bump_mirrors _ _).bind fun _ _ => (namedVariable_mirrors hinner).bind fun _ _ =>
      .pure fun hp => ⟨rfl, link_append (link_append hp.1.1.2 hp.1.2) hp.2⟩
  · exact bump_bind_grows (fun _ => .bind (namedVariable_built _).forward fun _ => .pure _) hr

theorem fieldDeclaration_mirrors (hsync : T.Fit sync) :
    Mirrors T P (fieldDeclaration sync) (fieldDeclaration sync) := by
  have hinner : T.Fit (sync ∪ .ofList [.punct .comma, .punct .semicolon]) :=
    fit_union hsync (fit_ofList (by decide))
  refine (type_mirrors _ _ _ hsync).bind fun _ _ => (namedVariable_mirrors hinner).bind fun _ _ =>
    (gather_mirrors (variableStep_strides hinner) fun _ => .nil).bind fun _ _ =>
      (expect_mirrors _ _ hsync).bind fun _ _ => branch_mirrors (by decide) fun hp => ?_
  exact List.rel_append (List.rel_append (List.rel_append hp.1.1.1.2 hp.1.1.2) hp.1.2) hp.2

theorem parameter_mirrors (hsync : T.Fit sync) :
    Mirrors T P (parameter sync) (parameter sync) :=
  (type_mirrors _ _ _ hsync).bind fun _ _ => (expect_mirrors _ _ hsync).bind fun _ _ =>
    (defaultValue_mirrors hsync).bind fun _ _ => branch_mirrors (by decide) fun hp =>
      List.rel_append (List.rel_append hp.1.1.2 hp.1.2) hp.2

theorem parameter_fit : T.Fit First.parameter :=
  fit_first First.parameter_eq (by decide)

theorem parameterList_mirrors (hsync : T.Fit sync) :
    Mirrors T P (parameterList sync) (parameterList sync) := by
  rw [parameterList_eq]
  have hparameter (Q : Prop) (sync : TokenSet) (hsync : T.Fit sync) :
      Mirrors T Q (do return [← parameter sync]) (do return [← parameter sync]) :=
    (parameter_mirrors hsync).bind fun _ _ => .pure fun hp => .cons hp.2 .nil
  exact (expect?_mirrors _ _ hsync).bind fun _ _ =>
    (optional_mirrors (fun hp => hp.2.1) (list_mirrors hsync parameter_fit First.parameter_eof
      fun _ hsync => hparameter _ _ hsync)).bind fun _ _ => branch_mirrors (by decide)
        fun hp => List.rel_append hp.1.2.2 hp.2

theorem throwsStep_strides {inner : TokenSet} (hinner : T.Fit inner) :
    Strides T P (throwsStep inner) (throwsStep inner) where
  mirrors a b := by
    refine (expectAs?_mirrors _ _ _ hinner).bind fun r r' =>
      (nextIs_mirrors Kind.noConfusion).choose fun c => .ite (fun _ => Iff.rfl) ?_ ?_
    · exact (bump_mirrors _ _).bind fun _ _ => .pure fun hp =>
        ⟨rfl, link_append (link_append hp.1.1.2 hp.1.2.2) hp.2⟩
    · exact .pure fun hp => ⟨rfl, link_append hp.1.2 hp.2.2⟩
  grows hp a b s t r s' hab hst hr hgood hgo := by
    refine bind_grows (expectAs?_built _ _ _ _).forward hr fun r s₁ hr =>
      bind_grows (nextIs_built _).forward hr fun c s₂ hr => ?_
    cases c with
    | true => exact bump_bind_grows (fun _ => .pure _) hr
    | false =>
      obtain ⟨rfl, -⟩ := pure_ok hr
      cases hgo

theorem throwsClause_mirrors (hsync : T.Fit sync) :
    Mirrors T P (throwsClause sync) (throwsClause sync) := by
  have hinner : T.Fit (sync ∪ .single (.punct .comma)) := fit_union hsync (fit_punct _)
  exact (bump_mirrors _ _).bind fun _ _ => (gather_mirrors (throwsStep_strides hinner)
    fun _ => .nil).bind fun _ _ => branch_mirrors (by decide) fun hp => List.rel_append hp.1.2 hp.2

theorem messageResult_mirrors (hsync : T.Fit sync) :
    Mirrors T P (messageResult sync) (messageResult sync) :=
  (nextIs_mirrors Kind.noConfusion).choose fun _ => .ite (fun _ => Iff.rfl) (bump_mirrors _ _)
    (type_mirrors _ _ _ hsync)

theorem messageClause_mirrors (hsync : T.Fit sync) :
    Mirrors T P (messageClause sync) (messageClause sync) := by
  have hmarks : T.Fit (.ofList [.keyword .throws, .keyword .oneway, .punct .semicolon]) :=
    fit_ofList (by decide)
  refine (peek_mirrors hmarks).bind fun t u => ?_
  have hkind (hp : P ∧ link T t u) : u.kind = t.kind := T.kind_eq hp.2
  generalize t.kind = k, u.kind = k' at hkind ⊢
  revert k k'
  refine Mirrors.told fun k => ?_
  split
  · exact flush_mirrors.bind fun _ _ => (throwsClause_mirrors hsync).bind fun _ _ =>
      .pure fun hp => List.rel_append hp.1.2 (.cons hp.2 .nil)
  · exact bump_mirrors _ _
  · exact .pure fun _ => .nil

theorem message_mirrors (hsync : T.Fit sync) : Mirrors T P (message sync) (message sync) := by
  rw [message_eq]
  refine (messageResult_mirrors hsync).bind fun _ _ => (expect_mirrors _ _ hsync).bind fun _ _ =>
    (parameterList_mirrors hsync).bind fun _ _ => (messageClause_mirrors hsync).bind fun _ _ =>
      (expect_mirrors _ _ hsync).bind fun _ _ => .pure fun hp => ?_
  obtain ⟨⟨⟨⟨⟨-, hresult⟩, hname⟩, hlist⟩, hclause⟩, hclosing⟩ := hp
  exact List.rel_append (List.rel_append (List.rel_append (List.rel_append hresult hname)
    (.cons (T.label _ hlist) .nil)) hclause) hclosing

/-! ## Declarations -/

section Bodies

variable {element element' : Parser Node} {form : BodyForm}

theorem fit_continues (hfirst : T.Fit form.first) (halso : T.Fit form.alsoSync) :
    T.Fit form.continues :=
  fit_union (fit_insert hfirst Kind.noConfusion) halso

theorem bodyStep_strides (hsync : T.Fit sync) (hfirst : T.Fit form.first)
    (halso : T.Fit form.alsoSync) (heof : form.first.contains .eof = false)
    (h : Mirrors T P element element') :
    Strides T P (bodyStep sync form element) (bodyStep sync form element') where
  mirrors a b := by
    have hstop := fit_union (fit_continues hfirst halso) hsync
    rw [bodyStep_eq, bodyStep_eq]
    refine (peek_mirrors hstop).bind fun t u => .ite (fun hp => by rw [T.kind_eq hp.2]) ?_
      (.ite (fun hp => by rw [T.kind_eq hp.2]) ?_ (.ite (fun hp => by rw [T.kind_eq hp.2]) ?_ ?_))
    · exact (bump_mirrors _ _).bind fun _ _ => .pure fun hp => ⟨rfl, link_append hp.1.1.2 hp.2⟩
    · exact addItem_mirrors hstop (h.weaken fun hp => hp.1.1) fun hp => hp.1.2
    · exact (missing_mirrors _ _).bind fun _ _ => .pure fun hp => ⟨rfl, link_push hp.1.1.2 hp.2⟩
    · exact (skip_mirrors hstop).bind fun _ _ => .pure fun hp => ⟨rfl, link_append hp.1.1.2 hp.2⟩
  grows hp a b s t r s' hab hst hr hgood hgo := by
    have hstop := fit_union (fit_continues hfirst halso) hsync
    rw [bodyStep_eq] at hr
    obtain ⟨u, s₁, hpeek, hr⟩ := bind_ok hr
    have hsize := (peek_forward _).size_le hpeek
    split at hr
    · obtain ⟨ns, s₂, -, hr⟩ := bind_ok hr
      obtain ⟨rfl, -⟩ := pure_ok hr
      cases hgo
    · split at hr
      · rename_i hcontains
        have hne : u.kind ≠ .eof := by
          intro he
          rw [he, heof] at hcontains
          cases hcontains
        have hf := (peek_faced_of_ne hst.sits hpeek hne).2
        obtain ⟨t₁, hst₁⟩ := peek_pair hstop hst hpeek
          ((addItem_built (.given h.forward) _ a).forward _ _ _ hr) hgood
        exact hsize.trans_lt (addItem_grows h hp hst₁ hf hr hgood)
      · split at hr
        · obtain ⟨n, s₂, -, hr⟩ := bind_ok hr
          obtain ⟨rfl, -⟩ := pure_ok hr
          cases hgo
        · rename_i hend
          obtain ⟨ns, s₂, hskip, hr⟩ := bind_ok hr
          obtain ⟨-, rfl⟩ := pure_ok hr
          obtain ⟨hsits, hf⟩ := peek_faced_of_ne hst.sits hpeek fun he => hend (.inl he)
          exact hsize.trans_lt (skip_grows hsits hf hskip)

theorem body_mirrors {kind : NodeKind} {first also : TokenSet} {element : TokenSet → Parser Node}
    (hkind : kind.names = false) (hsync : T.Fit sync) (hfirst : T.Fit first)
    (halso : T.Fit also) (heof : first.contains .eof = false)
    (h : ∀ (Q : Prop) (sync : TokenSet), T.Fit sync → Mirrors T Q (element sync) (element sync)) :
    Mirrors T P (body sync ⟨kind, first, also⟩ element)
      (body sync ⟨kind, first, also⟩ element) := by
  have hinner : T.Fit (sync ∪ BodyForm.continues ⟨kind, first, also⟩) :=
    fit_union hsync (fit_continues hfirst halso)
  generalize hform : (⟨kind, first, also⟩ : BodyForm) = form at hinner ⊢
  have hstrides (Q : Prop) : Strides T Q
      (bodyStep sync form (element (sync ∪ form.continues)))
      (bodyStep sync form (element (sync ∪ form.continues))) := by
    refine bodyStep_strides hsync ?_ ?_ ?_ (h Q _ hinner)
    all_goals rw [← hform]; assumption
  have hkind : form.kind.names = false := hform ▸ hkind
  have hpresent {Q : Prop} {opened opened' : Bool} (ho : Q → opened = opened') :
      Mirrors T Q (bodyPresent sync form opened) (bodyPresent sync form opened') := by
    refine .ite (fun hq => by rw [ho hq]) (.pure fun _ => rfl) ?_
    refine (peek_mirrors (fit_union (show T.Fit form.first from hform ▸ hfirst) hsync)).bind
      fun t u => .pure fun hp => ?_
    show form.first.contains t.kind = form.first.contains u.kind
    rw [T.kind_eq hp.2]
  have hnodes {Q : Prop} {opening opening' : List Node} (ho : Q → link T opening opening')
      (present : Bool) : Mirrors T Q (bodyNodes sync form element opening present)
        (bodyNodes sync form element opening' present) :=
    .ite (fun _ => Iff.rfl) (gather_mirrors (hstrides _) ho) (.pure ho)
  rw [body_eq]
  exact (expect?_mirrors _ _ hsync).bind fun _ _ =>
    (hpresent fun hp => hp.2.1).choose fun present =>
    (hnodes (fun hp => hp.2.2) present).bind fun _ _ => branch_mirrors hkind And.right

end Bodies

theorem enumBody_mirrors (hsync : T.Fit sync) :
    Mirrors T P (enumBody sync) (enumBody sync) := by
  rw [enumBody_eq]
  exact (expect?_mirrors _ _ hsync).bind fun _ _ =>
    (optional_mirrors (fun hp => hp.2.1) (list_mirrors hsync (fit_single Kind.noConfusion) rfl
      fun _ _ => bump_mirrors _ _)).bind fun _ _ => branch_mirrors (by decide) fun hp =>
        List.rel_append hp.1.2.2 hp.2

theorem enumDefault_mirrors (hsync : T.Fit sync) :
    Mirrors T P (enumDefault sync) (enumDefault sync) :=
  (bump_mirrors _ _).bind fun _ _ => (expect_mirrors _ _ hsync).bind fun _ _ =>
    (expect_mirrors _ _ hsync).bind fun _ _ => branch_mirrors (by decide) fun hp =>
      List.rel_append (List.rel_append hp.1.1.2 hp.1.2) hp.2

theorem settleAnnotations_mirrors {kind : NodeKind} {notes notes' : List Node}
    (h : P → link T notes notes') :
    Mirrors T P (settleAnnotations kind notes) (settleAnnotations kind notes') := by
  refine .ite (fun hp => ?_) (.pure h) ((branch_mirrors (by decide) h).bind fun n n' =>
    (complain_mirrors fun hp => T.complaint _ _ (T.span_start hp.2)).bind fun _ _ =>
      .pure fun hp => .cons hp.1.2 .nil)
  cases h hp <;> rfl

theorem importKind_fit : T.Fit First.importKind :=
  fit_first First.importKind_eq (by decide)

theorem importRest_mirrors (hsync : T.Fit sync) :
    Mirrors T P (importRest sync) (importRest sync) := by
  have hkind {Q : Prop} {found found' : Bool} (hf : Q → found = found') :
      Mirrors T Q (importKind found) (importKind found') :=
    .ite (fun hq => by rw [hf hq]) (bump_mirrors _ _) ((missing_mirrors _ _).bind fun _ _ =>
      .pure fun hp => .cons (T.label _ hp.2) .nil)
  rw [importRest_eq]
  refine (recoverTo_mirrors hsync importKind_fit).bind fun _ _ => (hkind fun hp => hp.2.1).bind
    fun _ _ => (expect_mirrors _ _ hsync).bind fun _ _ => (expect_mirrors _ _ hsync).bind fun _ _ =>
      .pure fun hp => ?_
  obtain ⟨⟨⟨⟨-, -, hskipped⟩, hkind⟩, hpath⟩, hclosing⟩ := hp
  exact List.rel_append (List.rel_append (List.rel_append hskipped hkind) hpath) hclosing

theorem fieldDeclaration_fit : T.Fit First.fieldDeclaration :=
  fit_first First.fieldDeclaration_eq (by decide)

theorem recordRest_mirrors (hsync : T.Fit sync) :
    Mirrors T P (recordRest sync) (recordRest sync) :=
  (expect_mirrors _ _ hsync).bind fun _ _ =>
    (body_mirrors (by decide) hsync fieldDeclaration_fit (fit_punct _)
      First.fieldDeclaration_eof fun _ _ => fieldDeclaration_mirrors).bind fun _ _ =>
        .pure fun hp => List.rel_append hp.1.2 (.cons (T.label _ hp.2) .nil)

theorem optionalDefault_mirrors (hsync : T.Fit sync) :
    Mirrors T P (optionalDefault sync) (optionalDefault sync) :=
  (nextIs_mirrors Kind.noConfusion).choose fun _ => .ite (fun _ => Iff.rfl)
    (flush_mirrors.bind fun _ _ => (enumDefault_mirrors hsync).bind fun _ _ => .pure fun hp =>
      List.rel_append hp.1.2 (.cons (T.label _ hp.2) .nil))
    (.pure fun _ => .nil)

theorem enumRest_mirrors (hsync : T.Fit sync) :
    Mirrors T P (enumRest sync) (enumRest sync) := by
  rw [enumRest_eq]
  exact (expect_mirrors _ _ hsync).bind fun _ _ => (enumBody_mirrors hsync).bind fun _ _ =>
    (optionalDefault_mirrors hsync).bind fun _ _ => .pure fun hp =>
      List.rel_append (List.rel_append hp.1.1.2 (.cons (T.label _ hp.1.2) .nil)) hp.2

theorem fixedRest_mirrors (hsync : T.Fit sync) :
    Mirrors T P (fixedRest sync) (fixedRest sync) := by
  have hinner : T.Fit (sync ∪ .single (.punct .semicolon)) := fit_union hsync (fit_punct _)
  exact (expect_mirrors _ _ hsync).bind fun _ _ => (expect_mirrors _ _ hinner).bind fun _ _ =>
    (expect_mirrors _ _ hinner).bind fun _ _ => (expect_mirrors _ _ hinner).bind fun _ _ =>
      (expect_mirrors _ _ hsync).bind fun _ _ => .pure fun hp => List.rel_append (List.rel_append
        (List.rel_append (List.rel_append hp.1.1.1.1.2 hp.1.1.1.2) hp.1.1.2) hp.1.2) hp.2

section Heads

variable {protocolRest protocolRest' : TokenSet → Parser (List Node)}

theorem declarationRest_mirrors (kind : NodeKind) (hsync : T.Fit sync)
    (h : Mirrors T P (protocolRest sync) (protocolRest sync)) :
    Mirrors T P (declarationRest protocolRest kind sync)
      (declarationRest protocolRest kind sync) := by
  rw [declarationRest.eq_def]
  split
  · exact (expect_mirrors _ _ hsync).bind fun _ _ => (expect_mirrors _ _ hsync).bind fun _ _ =>
      .pure fun hp => List.rel_append hp.1.2 hp.2
  · exact (type_mirrors _ _ _ hsync).bind fun _ _ => (expect_mirrors _ _ hsync).bind fun _ _ =>
      .pure fun hp => List.rel_append hp.1.2 hp.2
  · exact h
  · exact importRest_mirrors hsync
  · exact enumRest_mirrors hsync
  · exact fixedRest_mirrors hsync
  · exact recordRest_mirrors hsync

theorem headKind?_names {top : Bool} {k : Kind} {kind : NodeKind}
    (h : headKind? top k = some kind) :
    kind.names = false := by
  unfold headKind? at h
  split at h
  all_goals
    first
    | cases h; rfl
    | split at h
      · cases h; rfl
      · cases h

theorem heads_fit (top : Bool) :
    T.Fit (if top then First.declaration else First.protocolMember) :=
  fit_first (heads_first top) (by cases top <;> decide)

theorem bareDeclaration_mirrors (kind : NodeKind) (word : Kind) (hsync : T.Fit sync)
    (h : ∀ Q : Prop, Mirrors T Q (protocolRest sync) (protocolRest sync)) :
    Mirrors T P (bareDeclaration protocolRest kind word sync)
      (bareDeclaration protocolRest kind word sync) :=
  .ite (fun _ => Iff.rfl) (message_mirrors hsync) ((bump_mirrors _ _).bind fun _ _ =>
    (declarationRest_mirrors kind hsync (h _)).bind fun _ _ => .pure fun hp =>
      List.rel_append hp.1.2 hp.2)

theorem declarationWith_mirrors (top : Bool) (hsync : T.Fit sync)
    (h : ∀ Q : Prop, Mirrors T Q (protocolRest sync) (protocolRest sync)) :
    Mirrors T P (declarationWith top protocolRest sync)
      (declarationWith top protocolRest sync) := by
  rw [declarationWith_eq]
  refine (annotations_mirrors hsync).bind fun notes notes' =>
    (peek_mirrors (fit_union (heads_fit top) hsync)).bind fun t u => ?_
  have hkind (hp : (P ∧ link T notes notes') ∧ link T t u) : u.kind = t.kind := T.kind_eq hp.2
  generalize t.kind = k, u.kind = k' at hkind ⊢
  revert k k'
  refine Mirrors.told fun k => ?_
  split
  · exact here_mirrors.bind fun l l' => (complain_mirrors fun hp => T.complaint _ _ hp.2).bind
      fun _ _ => .pure fun hp => T.branch (by decide) hp.1.1.1.2 hp.1.2
  · rename_i kind hhead
    exact (settleAnnotations_mirrors fun hp => hp.1.2).bind fun _ _ =>
      (bareDeclaration_mirrors kind k hsync h).bind fun _ _ =>
        branch_mirrors (headKind?_names hhead) fun hp => List.rel_append hp.1.2 hp.2

end Heads

theorem protocolMember_mirrors (hsync : T.Fit sync) :
    Mirrors T P (protocolMember sync) (protocolMember sync) :=
  declarationWith_mirrors false hsync fun _ => .pure fun _ => .nil

theorem protocolRest_mirrors (hsync : T.Fit sync) :
    Mirrors T P (protocolRest sync) (protocolRest sync) :=
  (expect_mirrors _ _ hsync).bind fun _ _ =>
    (body_mirrors (by decide) hsync (fit_first First.protocolMember_eq (by decide))
      (fun _ => TokenSet.contains_empty _) First.protocolMember_eof
      fun _ _ => protocolMember_mirrors).bind fun _ _ => .pure fun hp =>
        List.rel_append hp.1.2 (.cons (T.label _ hp.2) .nil)

theorem declaration_mirrors (hsync : T.Fit sync) :
    Mirrors T P (declaration sync) (declaration sync) :=
  declarationWith_mirrors true hsync fun _ => protocolRest_mirrors hsync

/-! ## Whole files -/

theorem declaration_fit : T.Fit First.declaration :=
  fit_first First.declaration_eq (by decide)

theorem fit_declarations : T.Fit (.single .eof ∪ First.declaration) :=
  fit_union (fit_single Kind.noConfusion) declaration_fit

theorem programStep_strides : Strides T P programStep programStep where
  mirrors a b := by
    rw [programStep_eq, programStep_eq]
    refine (peek_mirrors declaration_fit).bind fun t u =>
      .ite (fun hp => by rw [T.kind_eq hp.2]) (.pure fun hp => ⟨rfl, hp.1.2⟩)
        (.ite (fun hp => by rw [T.kind_eq hp.2]) ?_ ?_)
    · exact addItem_mirrors declaration_fit (declaration_mirrors fit_declarations) fun hp => hp.1.2
    · exact (skip_mirrors declaration_fit).bind fun _ _ => .pure fun hp =>
        ⟨rfl, link_append hp.1.1.2 hp.2⟩
  grows hp a b s t r s' hab hst hr hgood hgo := by
    rw [programStep_eq] at hr
    obtain ⟨u, s₁, hpeek, hr⟩ := bind_ok hr
    have hsize := (peek_forward _).size_le hpeek
    split at hr
    · obtain ⟨rfl, -⟩ := pure_ok hr
      cases hgo
    · rename_i hne
      obtain ⟨hsits, hf⟩ := peek_faced_of_ne hst.sits hpeek hne
      split at hr
      · have hmirrors := declaration_mirrors (T := T) (P := P) fit_declarations
        obtain ⟨t₁, hst₁⟩ := peek_pair declaration_fit hst hpeek
          ((addItem_built (.given hmirrors.forward) _ a).forward _ _ _ hr) hgood
        exact hsize.trans_lt (addItem_grows hmirrors hp hst₁ hf hr hgood)
      · obtain ⟨ns, s₂, hskip, hr⟩ := bind_ok hr
        obtain ⟨-, rfl⟩ := pure_ok hr
        exact hsize.trans_lt (skip_grows hsits hf hskip)

/-- A whole file does the same to both sessions of a pair. -/
theorem program_mirrors : Mirrors T P program program :=
  (gather_mirrors programStep_strides fun _ => .nil).bind fun _ _ => flush_mirrors.bind fun _ _ =>
    branch_mirrors (by decide) fun hp => List.rel_append hp.1.2 hp.2

end Idl

end Parse

end AvroTree
