import AvroTree.Proofs.Acceptance
import AvroTree.Proofs.IdlRunning

/-!
# Files that follow the grammar

The declarations of the interface language, and whole files. A text whose tokens are derived from
the grammar, with no more brackets and types one inside the other than the settings allow, is parsed
without complaints and into these tokens.
-/

namespace AvroTree

open Token (Kind)
open Rule (mark keyword commas commasTrailing)

namespace Parse

open AvroTree.Parse.Parser
open Word (Fits)

variable {max n : Nat} {text : List Char} {all : List Kind} {stack : List Bracket}
  {us ws : List Word} {v : Word} {sync : TokenSet}

namespace Idl

/-! ## Bodies -/

section Body

variable {form : BodyForm} {element : TokenSet → Parser Node} {name : String} {firsts : List Kind}

theorem continues_jsonSpan (hfirst : form.first = .ofList firsts)
    (hfirsts : ∀ k ∈ firsts, k ∈ Grammar.declarationKinds)
    (halso : form.alsoSync.contains .jsonSpan = false) :
    form.continues.contains .jsonSpan = false := by
  have hspan : form.first.contains .jsonSpan = false := by
    rw [hfirst, ← Bool.not_eq_true, TokenSet.contains_ofList rfl]
    exact fun h => (plain_of_mem _ (hfirsts _ h)).2.1 rfl
  rw [BodyForm.continues, TokenSet.contains_union, TokenSet.contains_insert, hspan, halso]
  rfl

/-- What is left of a body when some of its elements have been read: more of them, the closing brace
`r`, and behind it `ws`. -/
def BodyRest (n : Nat) (name : String) (r : Word) (ws vs : List Word) : Prop :=
  ∃ items, vs = items ++ r :: ws ∧ Writes n (.many (.symbol name)) items

/-- In front of what is left of a body stands an element or the closing brace. -/
theorem BodyRest.start {r : Word} {vs : List Word} (h : BodyRest n name r ws vs)
    (hname : (name, firsts) ∈ Grammar.constructs)
    (hfirsts : ∀ k ∈ firsts, k ∈ Grammar.declarationKinds) (hr : r.kind = .punct .rBrace) :
    ∃ v us, vs = v :: us ∧ v.kind ∈ .punct .rBrace :: firsts := by
  obtain ⟨items, rfl, h⟩ := h
  rcases h.many with rfl | ⟨item, more, rfl, hitem, -⟩
  · exact ⟨r, ws, rfl, by simp [hr]⟩
  · obtain ⟨w, us, rfl, hw⟩ :=
      hitem.start firsts hname fun k hk => (plain_of_mem k (hfirsts k hk)).1
    exact ⟨w, _, rfl, List.mem_cons_of_mem _ hw⟩

/-- A step of a body reads one more element, or takes the closing brace. -/
theorem bodyStep_words {r : Word} {vs : List Word} {element : Parser Node}
    (hname : (name, firsts) ∈ Grammar.constructs)
    (hfirsts : ∀ k ∈ firsts, k ∈ Grammar.declarationKinds) (hfirst : form.first = .ofList firsts)
    (hstop : (form.continues ∪ sync).contains .jsonSpan = false)
    (hitem : ∀ us v ws, Writes n (.symbol name) us → v.kind ∈ .punct .rBrace :: firsts →
      Runs (Facing max text all (.brace :: stack) (us ++ v :: ws)) element fun _ =>
        Facing max text all (.brace :: stack) (v :: ws))
    (hr : r.kind = .punct .rBrace) (h : BodyRest n name r ws vs) (nodes : Array Node) :
    Runs (Facing max text all (.brace :: stack) vs) (bodyStep sync form element nodes) fun res s =>
      if res.1 then ∃ vs', BodyRest n name r ws vs' ∧ Facing max text all (.brace :: stack) vs' s
        ∧ vs'.length < vs.length
      else Facing max text all stack ws s := by
  have hplain (k : Kind) (hk : k ∈ firsts) := plain_of_mem k (hfirsts k hk)
  obtain ⟨items, rfl, h⟩ := h
  rw [bodyStep_eq]
  rcases h.many with rfl | ⟨item, more, rfl, hitem', hmore⟩
  · have hk : (form.continues ∪ sync).contains r.kind := by
      simp [hr, BodyForm.continues]
    refine (peek_word hk (by rw [hstop, hr]; rfl) (by rw [hr]; rfl)).bind fun t =>
      .given fun ht => ?_
    rw [if_pos (ht.trans hr)]
    exact bump_word.bind fun closing => .pure fun _ h => h
  · have hrest : BodyRest n name r ws (more ++ r :: ws) := ⟨more, rfl, hmore⟩
    obtain ⟨v, vs, hvs, hv⟩ := hrest.start hname hfirsts hr
    obtain ⟨w, us, rfl, hw⟩ := hitem'.start firsts hname fun k hk => (hplain k hk).1
    obtain ⟨herror, hspan, -, hbrace⟩ := hplain _ hw
    have hcontains : form.first.contains w.kind :=
      contains_first hfirst (fun k hk => (hplain k hk).1) hw
    have hk : (form.continues ∪ sync).contains w.kind := by
      simp [BodyForm.continues, hcontains]
    rw [hvs] at hrest
    rw [List.append_assoc, hvs, List.cons_append]
    refine (peek_word hk (by rw [hstop, decide_eq_false hspan]) (turn_of_mem (hfirsts _ hw) _)).bind
      fun t => .given fun ht => ?_
    rw [ht, if_neg hbrace, if_pos hcontains]
    refine (addItem_words (hitem _ v vs hitem' hv).seeing).imp (fun _ h => h) ?_
    rintro r s ⟨hgo, hs⟩
    rw [if_pos hgo]
    refine ⟨v :: vs, hrest, hs, ?_⟩
    simp only [List.length_cons, List.length_append]
    omega

/-- The elements of a body are read up to its closing brace. -/
theorem body_words {kind : NodeKind} {also : TokenSet} (hform : form = ⟨kind, .ofList firsts, also⟩)
    (hname : (name, firsts) ∈ Grammar.constructs)
    (hfirsts : ∀ k ∈ firsts, k ∈ Grammar.declarationKinds)
    (halso : also.contains .jsonSpan = false) (hsync : sync.contains .jsonSpan = false)
    (hitem : ∀ sync : TokenSet, sync.contains .jsonSpan = false → ∀ us v ws,
      Writes n (.symbol name) us → v.kind ∈ .punct .rBrace :: firsts →
      Runs (Facing max text all (.brace :: stack) (us ++ v :: ws)) (element sync) fun _ =>
        Facing max text all (.brace :: stack) (v :: ws))
    (h : Writes n (.seq [mark .lBrace, .many (.symbol name), mark .rBrace]) us) :
    Runs (Facing max text all stack (us ++ ws)) (body sync form element) fun _ =>
      Facing max text all stack ws := by
  have hfirst : form.first = .ofList firsts := by rw [hform]
  have hcontinues := continues_jsonSpan hfirst hfirsts (by rwa [hform])
  obtain ⟨l, _, rfl, hl, h⟩ := h.head (.token (.punct .lBrace))
  obtain ⟨items, _, rfl, hitems, h⟩ := h.cons
  obtain ⟨r, rfl, hr⟩ := h.last (.token (.punct .rBrace))
  simp only [List.append_assoc, List.cons_append, List.nil_append]
  rw [body_eq]
  refine (expectAs?_word hl rfl hsync).bind ?_
  rintro ⟨opened, opening⟩
  refine .given fun hopened => ?_
  obtain rfl : opened = true := hopened
  simp only [bodyPresent, bodyNodes, ↓reduceIte, pure_bind]
  have hstop := union_jsonSpan hcontinues hsync
  have hinner := union_jsonSpan hsync hcontinues
  exact (gather_words (W := BodyRest n name r ws) (A := Facing max text all stack ws)
    (fun nodes _ h => bodyStep_words hname hfirsts hfirst hstop (hitem _ hinner) hr h nodes)
    ⟨items, rfl, hitems⟩).bind fun _ => branch_runs

end Body

/-! ## What follows the keyword of a declaration -/

theorem importRest_words (hsync : sync.contains .jsonSpan = false)
    (h : Writes n (.seq [.field "kind" (.symbol "import_kind"), .field "path" (.symbol "string"),
      mark .semicolon]) us) :
    Runs (Facing max text all stack (us ++ ws)) (importRest sync) fun _ =>
      Facing max text all stack ws := by
  obtain ⟨kind, _, rfl, hkind, h⟩ := h.cons
  obtain ⟨path, _, rfl, hpath, h⟩ := h.head (.field (.rule rfl (by decide)))
  obtain ⟨e, rfl, he⟩ := h.last (.token (.punct .semicolon))
  obtain ⟨k, more, rfl, hk⟩ := hkind.field.start Grammar.importKinds (by decide) (by decide)
  obtain ⟨r, hr, hkind⟩ := (hkind.field.rule rfl (by decide)).choice
  obtain rfl : more = [] := by
    simp only [List.mem_cons, List.not_mem_nil, or_false] at hr
    rcases hr with rfl | rfl | rfl <;> exact (List.cons.inj hkind.token.choose_spec.1).2
  unfold importRest
  refine (recoverTo_start First.importKind_eq (by decide) hk hsync).bind fun r => .given ?_
  rintro rfl
  exact bump_word.bind fun kind => (expect_word hpath rfl hsync).bind fun path =>
    (expect_word he rfl hsync).bind fun closing => .pure fun _ h => h

theorem recordRest_words (hsync : sync.contains .jsonSpan = false)
    (h : Writes max (.seq [.field "name" (.symbol "identifier"),
      .field "body" (.symbol "record_body")]) us) :
    Runs (Facing max text all stack (us ++ ws)) (recordRest sync) fun _ =>
      Facing max text all stack ws := by
  obtain ⟨name, _, rfl, hname, h⟩ := h.head (.field Writes.identifier_one)
  unfold recordRest
  refine (expect_word hname rfl hsync).bind fun name =>
    (body_words (by rw [First.fieldDeclaration_eq]) (by decide) typeKinds_subset rfl hsync
      (fun sync hsync us v ws h _ => fieldDeclaration_words hsync h)
      (h.only.field.rule rfl (by decide))).bind fun body => .pure fun _ h => h

theorem enumBody_words (hsync : sync.contains .jsonSpan = false)
    (h : Writes n (.symbol "enum_body") us) :
    Runs (Facing max text all stack (us ++ ws)) (enumBody sync) fun _ =>
      Facing max text all stack ws := by
  obtain ⟨l, _, rfl, hl, h⟩ := (h.rule rfl (by decide)).head (.token (.punct .lBrace))
  obtain ⟨symbols, _, rfl, hsymbols, h⟩ := h.cons
  obtain ⟨r, rfl, hr⟩ := h.last (.token (.punct .rBrace))
  have hlist :
      ListWords ⟨.rBrace, .single .identifier, true⟩ (Writes n (.symbol "enum_symbol")) true
      false (symbols ++ [r]) := hsymbols.listTrailing rfl hr
  rw [List.cons_append]
  unfold enumBody
  refine (expectAs?_word hl rfl hsync).bind ?_
  rintro ⟨opened, opening⟩
  refine .given fun hopened => ?_
  obtain rfl : opened = true := hopened
  refine Runs.bind (list_words ⟨by decide, by decide, by decide, by decide⟩ rfl hsync ?_ hlist)
    fun symbols => branch_runs
  intro sync hsync us v ws hus hv
  obtain ⟨w, rfl, hw⟩ := (hus.rule rfl (by decide)).token
  exact ⟨w, [], rfl, by rw [hw]; decide, by rw [hw]; rfl, bump_word⟩

/-- A default is read wherever an equals sign follows. -/
theorem enumRest_words (hsync : sync.contains .jsonSpan = false)
    (h : Writes n (.seq [.field "name" (.symbol "identifier"), .field "body" (.symbol "enum_body"),
      .optional (.field "default" (.symbol "enum_default"))]) us)
    (hws : Clear (.single (.punct .equals)) ws) :
    Runs (Facing max text all stack (us ++ ws)) (enumRest sync) fun _ =>
      Facing max text all stack ws := by
  obtain ⟨name, _, rfl, hname, h⟩ := h.head (.field Writes.identifier_one)
  obtain ⟨body, _, rfl, hbody, h⟩ := h.cons
  rw [List.cons_append, List.append_assoc]
  unfold enumRest
  refine (expect_word hname rfl hsync).bind fun name =>
    (enumBody_words hsync hbody.field).bind fun body => ?_
  rcases h.only.optional with rfl | h
  · refine (nextIs_clear hws rfl (by simp) (by simp)).bind fun b => .given ?_
    rintro rfl
    simp only [Bool.false_eq_true, ↓reduceIte, pure_bind]
    exact .pure fun _ h => h
  · obtain ⟨e, _, rfl, he, h⟩ := (h.field.rule rfl (by decide)).head (.token (.punct .equals))
    obtain ⟨v, _, rfl, hv, h⟩ := h.head (.field Writes.identifier_one)
    obtain ⟨c, rfl, hc⟩ := h.last (.token (.punct .semicolon))
    refine (nextIs_word he rfl).bind fun b => .given ?_
    rintro rfl
    simp only [↓reduceIte]
    unfold enumDefault
    refine flush_seeing.bind fun extras => Runs.bind (bump_word.bind fun equals =>
      (expect_word hv rfl hsync).bind fun value => (expect_word hc rfl hsync).bind fun closing =>
        branch_runs) fun default => .pure fun _ h => h

theorem fixedRest_words (hsync : sync.contains .jsonSpan = false)
    (h : Writes n (.seq [.field "name" (.symbol "identifier"), mark .lParen,
      .field "size" (.symbol "number"), mark .rParen, mark .semicolon]) us) :
    Runs (Facing max text all stack (us ++ ws)) (fixedRest sync) fun _ =>
      Facing max text all stack ws := by
  obtain ⟨name, _, rfl, hname, h⟩ := h.head (.field Writes.identifier_one)
  obtain ⟨l, _, rfl, hl, h⟩ := h.head (.token (.punct .lParen))
  obtain ⟨size, _, rfl, hsize, h⟩ := h.head (.field Writes.number_one)
  obtain ⟨r, _, rfl, hr, h⟩ := h.head (.token (.punct .rParen))
  obtain ⟨e, rfl, he⟩ := h.last (.token (.punct .semicolon))
  have hinner := union_jsonSpan hsync (t := .single (.punct .semicolon)) rfl
  unfold fixedRest
  exact (expect_word hname rfl hsync).bind fun name =>
    (expect_word hl rfl hinner).bind fun opening =>
    (expect_word hsize rfl hinner).bind fun size => (expect_word hr rfl hinner).bind fun closing =>
      (expect_word he rfl hsync).bind fun _ => .pure fun _ h => h

/-! ## Declarations -/

theorem unannotated_start (h : Writes n (.symbol "_unannotated_type") us) :
    ∃ w vs, us = w :: vs ∧ w.kind ∈ Grammar.baseTypeKinds := by
  obtain ⟨r, hr, h⟩ := (h.rule rfl (by decide)).choice
  rcases List.mem_pair.1 hr with rfl | rfl
  · obtain ⟨base, _, rfl, hbase, -⟩ := (h.rule rfl (by decide)).cons
    obtain ⟨w, vs, rfl, hw⟩ := hbase.start Grammar.baseTypeKinds (by decide) (by decide)
    exact ⟨w, _, rfl, hw⟩
  · exact h.start Grammar.baseTypeKinds (by decide) (by decide)

/-- The annotations of the type that a message returns, and the rest of it. -/
theorem returnType_split (h : Writes n (.symbol "_return_type") us) :
    ∃ notes w vs, us = notes ++ w :: vs ∧ Writes n (.many (.symbol "annotation")) notes
      ∧ w.kind ∈ .keyword .void :: Grammar.baseTypeKinds
      ∧ Writes n (.symbol "_return_type") (w :: vs) := by
  obtain ⟨r, hr, hresult⟩ := (h.rule rfl (by decide)).choice
  rcases List.mem_pair.1 hr with rfl | rfl
  · obtain ⟨w, rfl, hw⟩ := (hresult.rule rfl (by decide)).token
    exact ⟨[], w, [], rfl, .manyNil, by simp [hw], h⟩
  · obtain ⟨notes, _, rfl, hnotes, htype⟩ := hresult.annotatedType
    obtain ⟨w, vs, rfl, hw⟩ := unannotated_start htype
    refine ⟨notes, w, vs, rfl, hnotes, List.mem_cons_of_mem _ hw, ?_⟩
    have hplain : Writes n (.symbol "_type") (w :: vs) :=
      .symbol (by decide) (List.mem_singleton_self _)
        (.choice (List.mem_cons_of_mem _ List.mem_cons_self) htype)
    exact .symbol (by decide) (List.mem_singleton_self _)
      (.choice (List.mem_cons_of_mem _ List.mem_cons_self) hplain)

theorem headKind?_message {top : Bool} {k : Kind}
    (hk : k ∈ .keyword .void :: Grammar.baseTypeKinds) :
    headKind? top k = some .messageDeclaration := by
  have hmem : k ∈ Grammar.returnTypeKinds := by
    rcases List.mem_cons.1 hk with rfl | hk
    · exact List.mem_cons_self
    · exact List.mem_cons_of_mem _ (List.mem_cons_of_mem _ hk)
  have hdefault : headKind? top k
      = if First.returnType.contains k then some .messageDeclaration else none := by
    fin_cases hk <;> rfl
  rw [hdefault, if_pos (contains_first First.returnType_eq (by decide) hmem)]

/-- What the declarations start with that may stand at the top or inside a protocol. -/
def headKinds (top : Bool) : List Kind :=
  if top then Grammar.declarationKinds else Grammar.memberKinds

theorem heads_first (top : Bool) :
    (if top then First.declaration else First.protocolMember) = .ofList (headKinds top) := by
  rw [First.declaration_eq, First.protocolMember_eq, headKinds, apply_ite TokenSet.ofList]

theorem headKinds_subset (top : Bool) : ∀ k ∈ headKinds top, k ∈ Grammar.declarationKinds := by
  cases top <;> decide

variable {top : Bool} {protocolRest : TokenSet → Parser (List Node)} {notes : List Word} {w : Word}
  {kind : NodeKind}

/-- A declaration is what its first word says, behind its annotations. -/
theorem declarationWith_words (hsync : sync.contains .jsonSpan = false)
    (hnotes : Writes max (.many (.symbol "annotation")) notes)
    (hw : w.kind ∈ headKinds top) (hat : w.kind ≠ .atName)
    (hkind : headKind? top w.kind = some kind)
    (hannotatable : annotatable kind = false → notes = [])
    (hmessage : kind = .messageDeclaration →
      Runs (Facing max text all stack (w :: us)) (message sync) fun _ =>
        Facing max text all stack ws)
    (hrest : kind ≠ .messageDeclaration →
      Runs (Facing max text all stack us) (declarationRest protocolRest kind sync) fun _ =>
        Facing max text all stack ws) :
    Runs (Facing max text all stack (notes ++ w :: us)) (declarationWith top protocolRest sync)
      fun _ => Facing max text all stack ws := by
  obtain ⟨herror, hspan, -, -⟩ := plain_of_mem _ (headKinds_subset top _ hw)
  have hnote : Clear (.single .atName) (w :: us) := by
    rintro _ ⟨⟩
    refine ⟨?_, hspan⟩
    by_contra h
    exact hat (TokenSet.eq_of_contains_single rfl (Bool.not_eq_false _ ▸ h))
  have hspans : (TokenSet.ofList (headKinds top) ∪ sync).contains .jsonSpan
      = decide (w.kind = .jsonSpan) := by
    rw [union_jsonSpan _ hsync, decide_eq_false hspan]
    cases top <;> decide
  have hcontains : (TokenSet.ofList (headKinds top) ∪ sync).contains w.kind := by
    rw [TokenSet.contains_union, (TokenSet.contains_ofList herror).2 hw, Bool.true_or]
  -- where annotations would be an error there are none
  have hsettled : Runs (Facing max text all stack (notes ++ w :: us)) (annotations sync) fun ns s =>
      settleAnnotations kind ns = pure ns ∧ Facing max text all stack (w :: us) s := by
    cases htakes : annotatable kind with
    | true =>
      refine (annotations_words hsync hnotes hnote).imp (fun _ h => h) fun ns _ h => ⟨?_, h⟩
      rw [settleAnnotations, htakes, Bool.true_or, if_pos rfl]
    | false =>
      rw [hannotatable htakes]
      refine (annotations_none hnote).imp (fun _ h => h) fun ns _ ⟨hns, h⟩ => ⟨?_, h⟩
      rw [settleAnnotations, hns, List.isEmpty_nil, Bool.or_true, if_pos rfl]
  unfold declarationWith
  rw [heads_first]
  refine hsettled.bind fun ns => .given fun hns =>
    (peek_word hcontains hspans (turn_of_mem (headKinds_subset top _ hw) _)).bind fun t =>
      .given fun ht => ?_
  simp only [ht, hkind, hns, pure_bind]
  split_ifs with hk
  · exact (hmessage hk).seeing.bind fun rest => branch_runs
  · exact bump_word.bind fun word => (hrest hk).bind fun rest => branch_runs

theorem keyword_words {word : Keyword} (hsync : sync.contains .jsonSpan = false)
    (hnotes : Writes max (.many (.symbol "annotation")) notes) (hw : w.kind = .keyword word)
    (hhead : Kind.keyword word ∈ headKinds top) (hkind : headKind? top (.keyword word) = some kind)
    (hannotatable : annotatable kind = false → notes = []) (hne : kind ≠ .messageDeclaration)
    (hrest : Runs (Facing max text all stack us) (declarationRest protocolRest kind sync) fun _ =>
        Facing max text all stack ws) :
    Runs (Facing max text all stack (notes ++ w :: us)) (declarationWith top protocolRest sync)
      fun _ => Facing max text all stack ws := by
  rw [← hw] at hhead hkind
  have hat : w.kind ≠ .atName := by
    rw [hw]
    exact Kind.noConfusion
  exact declarationWith_words hsync hnotes hhead hat hkind hannotatable (fun h => absurd h hne)
    fun _ => hrest

variable {word : Keyword} {rs : List Rule}

/-- A declaration that a keyword starts. -/
theorem bare_words (hsync : sync.contains .jsonSpan = false)
    (hhead : Kind.keyword word ∈ headKinds top) (hkind : headKind? top (.keyword word) = some kind)
    (hne : kind ≠ .messageDeclaration) (h : Writes max (.seq (keyword word :: rs)) us)
    (hrest : ∀ vs, Writes max (.seq rs) vs →
      Runs (Facing max text all stack (vs ++ ws)) (declarationRest protocolRest kind sync) fun _ =>
        Facing max text all stack ws) :
    Runs (Facing max text all stack (us ++ ws)) (declarationWith top protocolRest sync)
      fun _ => Facing max text all stack ws := by
  obtain ⟨w, vs, rfl, hw, h⟩ := h.head (.token _)
  have hnone : Writes max (.many (.symbol "annotation")) [] := .manyNil
  exact keyword_words hsync hnone hw hhead hkind (fun _ => rfl) hne (hrest vs h)

/-- A declaration that a keyword starts behind annotations. -/
theorem annotated_words (hsync : sync.contains .jsonSpan = false)
    (hhead : Kind.keyword word ∈ headKinds top) (hkind : headKind? top (.keyword word) = some kind)
    (htakes : annotatable kind) (hne : kind ≠ .messageDeclaration)
    (h : Writes max (.seq (.many (.symbol "annotation") :: keyword word :: rs)) us)
    (hrest : ∀ vs, Writes max (.seq rs) vs →
      Runs (Facing max text all stack (vs ++ ws)) (declarationRest protocolRest kind sync) fun _ =>
        Facing max text all stack ws) :
    Runs (Facing max text all stack (us ++ ws)) (declarationWith top protocolRest sync)
      fun _ => Facing max text all stack ws := by
  obtain ⟨notes, _, rfl, hnotes, h⟩ := h.cons
  obtain ⟨w, vs, rfl, hw, h⟩ := h.head (.token _)
  have hannotatable : annotatable kind = false → notes = [] := by simp [htakes]
  rw [List.append_assoc]
  exact keyword_words hsync hnotes hw hhead hkind hannotatable hne (hrest vs h)

/-- The declarations that may stand inside a protocol. -/
def memberNames : List String :=
  ["import_declaration", "record_declaration", "error_declaration", "enum_declaration",
   "fixed_declaration", "message_declaration"]

theorem messageDeclaration_words (hsync : sync.contains .jsonSpan = false)
    (hmembers : ∀ k ∈ Grammar.memberKinds, k ∈ headKinds top)
    (h : Writes max (.symbol "message_declaration") us) :
    Runs (Facing max text all stack (us ++ ws)) (declarationWith top protocolRest sync) fun _ =>
      Facing max text all stack ws := by
  obtain ⟨notes, _, rfl, hnotes, h⟩ := (h.rule rfl (by decide)).cons
  obtain ⟨result, us, rfl, hresult, htail⟩ := h.cons
  obtain ⟨more, w, vs, rfl, hmore, hw, hresult⟩ := returnType_split hresult.field
  have hresult : Writes max (.field "return" (.symbol "_return_type")) (w :: vs) :=
    Grammar.DerivesWithin.field hresult
  have hmember : ∀ k ∈ Kind.keyword .void :: Grammar.baseTypeKinds,
      k ∈ Grammar.memberKinds ∧ k ≠ .atName := by decide
  have hsplit :
      notes ++ (more ++ w :: vs ++ us) ++ ws = notes ++ more ++ w :: (vs ++ us ++ ws) := by
    simp
  rw [hsplit]
  exact declarationWith_words hsync (hnotes.many_append hmore) (hmembers _ (hmember _ hw).1)
    (hmember _ hw).2 (headKind?_message hw) (fun h => by cases h)
    (fun _ => message_words hsync (hresult.seqCons htail)) (fun h => absurd rfl h)

/-- What may stand inside a protocol is read wherever no default of an enum could follow. -/
theorem member_words (hsync : sync.contains .jsonSpan = false)
    (h : Writes max (.choice (memberNames.map .symbol)) us)
    (hws : Clear (.single (.punct .equals)) ws) :
    Runs (Facing max text all stack (us ++ ws)) (declarationWith top protocolRest sync) fun _ =>
      Facing max text all stack ws := by
  have hmembers : ∀ k ∈ Grammar.memberKinds, k ∈ headKinds top := by
    cases top
    · exact fun _ h => h
    · exact fun _ h => by simp [headKinds, Grammar.declarationKinds, h]
  obtain ⟨r, hr, h⟩ := h.choice
  obtain ⟨name, hname, rfl⟩ := List.mem_map.1 hr
  simp only [memberNames, List.mem_cons, List.not_mem_nil, or_false] at hname
  rcases hname with rfl | rfl | rfl | rfl | rfl | rfl
  · exact bare_words hsync (hmembers _ (by decide)) rfl (by decide) (h.rule rfl (by decide))
      fun _ h => importRest_words hsync h
  · exact annotated_words hsync (hmembers _ (by decide)) rfl rfl (by decide)
      (h.rule rfl (by decide)) fun _ h => recordRest_words hsync h
  · exact annotated_words hsync (hmembers _ (by decide)) rfl rfl (by decide)
      (h.rule rfl (by decide)) fun _ h => recordRest_words hsync h
  · exact annotated_words hsync (hmembers _ (by decide)) rfl rfl (by decide)
      (h.rule rfl (by decide)) fun _ h => enumRest_words hsync h hws
  · exact annotated_words hsync (hmembers _ (by decide)) rfl rfl (by decide)
      (h.rule rfl (by decide)) fun _ h => fixedRest_words hsync h
  · exact messageDeclaration_words hsync hmembers h

/-- Where the body of a protocol goes on or ends there is no default of an enum. -/
theorem clear_of_heads {ks : List Kind} (hks : ∀ k ∈ ks, k ∈ Grammar.declarationKinds)
    (hv : v.kind ∈ .punct .rBrace :: ks) : Clear (.single (.punct .equals)) (v :: ws) := by
  have hplain : ∀ k ∈ Kind.punct .rBrace :: Grammar.declarationKinds,
      (TokenSet.single (.punct .equals)).contains k = false ∧ k ≠ .jsonSpan := by decide
  exact .of_mem hv fun k hk => hplain k
    ((List.mem_cons.1 hk).elim (fun h => by simp [h]) fun h => List.mem_cons_of_mem _ (hks k h))

theorem protocolRest_words (hsync : sync.contains .jsonSpan = false)
    (h : Writes max (.seq [.field "name" (.symbol "identifier"),
      .field "body" (.symbol "protocol_body")]) us) :
    Runs (Facing max text all stack (us ++ ws)) (Idl.protocolRest sync) fun _ =>
      Facing max text all stack ws := by
  obtain ⟨name, _, rfl, hname, h⟩ := h.head (.field Writes.identifier_one)
  unfold Idl.protocolRest
  refine (expect_word hname rfl hsync).bind fun name =>
    (body_words (by rw [First.protocolMember_eq]; rfl) (by decide)
      (headKinds_subset false) rfl hsync
      (fun sync hsync us v ws h hv => ?_) (h.only.field.rule rfl (by decide))).bind fun body =>
        .pure fun _ h => h
  exact member_words hsync (h.rule rfl (by decide)) (clear_of_heads (headKinds_subset false) hv)

/-- A declaration of a file is read wherever no default of an enum could follow. -/
theorem declaration_words (hsync : sync.contains .jsonSpan = false)
    (h : Writes max (.symbol "_declaration") us) (hws : Clear (.single (.punct .equals)) ws) :
    Runs (Facing max text all stack (us ++ ws)) (declaration sync) fun _ =>
      Facing max text all stack ws := by
  obtain ⟨r, hr, h⟩ := (h.rule rfl (by decide)).choice
  unfold declaration
  rcases List.mem_cons.1 hr with rfl | hr
  · refine bare_words hsync (by decide) rfl (by decide) (h.rule rfl (by decide)) fun vs h => ?_
    obtain ⟨name, _, rfl, hname, h⟩ := h.head (.field Writes.identifier_one)
    obtain ⟨e, rfl, he⟩ := h.last (.token (.punct .semicolon))
    exact (expect_word hname rfl hsync).bind fun name => (expect_word he rfl hsync).bind fun _ =>
      .pure fun _ h => h
  rcases List.mem_cons.1 hr with rfl | hr
  · refine bare_words hsync (by decide) rfl (by decide) (h.rule rfl (by decide)) fun vs h => ?_
    obtain ⟨type, _, rfl, htype, h⟩ := h.cons
    obtain ⟨e, rfl, he⟩ := h.last (.token (.punct .semicolon))
    rw [List.append_assoc]
    exact (type_words _ _ _ _ _ hsync htype.field (.of_kind he (by decide))).bind fun type =>
      (expect_word he rfl hsync).bind fun _ => .pure fun _ h => h
  rcases List.mem_cons.1 hr with rfl | hr
  · exact annotated_words hsync (by decide) rfl rfl (by decide) (h.rule rfl (by decide))
      fun _ h => protocolRest_words hsync h
  · exact member_words hsync (Grammar.DerivesWithin.choice hr h) hws

/-! ## Files -/

/-- The declarations of a file are read up to its end. -/
theorem program_words (h : Writes max (.symbol "program") us) :
    Runs (Facing max text all [] us) program fun _ => Facing max text all [] [] := by
  have hstart {us : List Word} (h : Writes max (.symbol "_declaration") us) :=
    h.start Grammar.declarationKinds (by decide) fun k hk => (plain_of_mem k hk).1
  have hbehind {us : List Word} (h : Writes max (.many (.symbol "_declaration")) us) :
      Clear (.single (.punct .equals)) us := by
    rcases h.many with rfl | ⟨us, more, rfl, h, -⟩
    · exact fun _ hw => by cases hw
    · obtain ⟨w, vs, rfl, hw⟩ := hstart h
      exact clear_of_heads (fun _ h => h) (List.mem_cons_of_mem _ hw)
  unfold program
  refine Runs.bind (gather_words (W := Writes max (.many (.symbol "_declaration"))) ?_
    (h.rule rfl (by decide))) fun nodes => flush_facing.bind fun extras => branch_runs
  intro nodes us h
  rw [programStep_eq]
  generalize hfirst : First.declaration = first
  rw [First.declaration_eq] at hfirst
  rcases h.many with rfl | ⟨us, more, rfl, h, hmore⟩
  · refine peek_last.bind fun t => .given fun ht => ?_
    rw [if_pos ht]
    exact .pure fun _ h => h
  · obtain ⟨w, vs, rfl, hw⟩ := hstart h
    obtain ⟨herror, hspan, hend, -⟩ := plain_of_mem _ hw
    have hcontains : first.contains w.kind := by
      rw [← hfirst, TokenSet.contains_ofList herror]
      exact hw
    have hspans : first.contains .jsonSpan = false := by
      rw [← hfirst]
      decide
    refine (peek_word hcontains (by rw [hspans, decide_eq_false hspan]) (turn_of_mem hw _)).bind
      fun t => .given fun ht => ?_
    rw [ht, if_neg hend, if_pos hcontains]
    have hinner := union_jsonSpan (s := .single .eof) rfl hspans
    refine (addItem_words (declaration_words hinner h (hbehind hmore)).seeing).imp (fun _ h => h) ?_
    rintro r s ⟨hgo, hs⟩
    rw [if_pos hgo]
    refine ⟨more, hmore, hs, ?_⟩
    simp only [List.cons_append, List.length_cons, List.length_append]
    omega

end Idl

/-! ## Completeness -/

theorem wordPlace_nears (all : List Kind) (h : Fits max stack.length ws) :
    (wordPlace all stack ws).Nears (Word.render ws) := by
  refine ⟨.refl _, fun _ => ?_⟩
  exact Lexer.ahead_of_pass?_eq_none h.pass?

variable {config : Config} {text : String}

theorem modeFor_idl (h : config.mode = some .idl) : modeFor config text = .idl := by
  rw [modeFor, h]

theorem rootOf_idl : rootOf .idl = Idl.program :=
  if_neg Mode.noConfusion

end Parse

open Parse in
/-- A text is parsed without complaints, and into its tokens, when the grammar derives them and they
are written with single blanks between them, no more brackets and types being one inside the other
than the settings allow. -/
theorem parse_of_derives {config : Config} {ws : List Word} (hvalid : config.validate = .ok ())
    (hmode : config.mode = some .idl)
    (hsize : (String.ofList (Word.render ws)).utf8ByteSize ≤ config.maxBytes)
    (hfits : Word.Fits config.maxDepth 0 ws)
    (h : Grammar.avro.DerivesWithin "_base_type" config.maxDepth (.symbol "program")
      (ws.map (·.kind))) :
    ∃ tree, parse config (String.ofList (Word.render ws)) = .ok tree ∧ tree.diagnostics = []
      ∧ tree.tokens.map (·.token.kind) = ws.map (·.kind) := by
  let text := String.ofList (Word.render ws)
  have htext : text.toList = Word.render ws := String.toList_ofList
  have hat : (Session.start text config.maxDepth .idl none).At
      (Lexer.Config.ofDepth config.maxDepth).cap text.toList (wordPlace (ws.map (·.kind)) [] ws) :=
    start_at config.maxDepth rfl (htext ▸ wordPlace_nears _ hfits) (List.nil_append _)
  rw [cap_of_validate hvalid] at hat
  obtain ⟨root, s, hrun, hend⟩ := Idl.program_words h _ ⟨hfits, hat⟩
  refine ⟨treeOf .idl (root, s), ?_, diagnostics_eq_nil_iff.2 hend.here.clean, ?_⟩
  · rw [parse, run_read hvalid (Nat.not_lt.2 hsize), modeFor_idl hmode, rootOf_idl, hrun]
    rfl
  · have hdone : s.taken.map (·.kind) ++ [] = ws.map (·.kind) := hend.here.done
    have hall : s.taken = s.log.toList.map (·.token) := by
      refine List.filter_eq_self.2 fun t ht => ?_
      obtain ⟨x, hx, rfl⟩ := List.mem_map.1 ht
      rw [hend.here.silent rfl x hx]
      rfl
    rw [← hdone, List.append_nil, hall, List.map_map]
    rfl

/-- An array of annotated integers that may be null. -/
theorem parse_of_derives_array :
    let config : Parse.Config := { maxDepth := 2, mode := some .idl }
    let ws : List Word := [⟨.keyword .schema, "schema".toList⟩, ⟨.keyword .array, "array".toList⟩,
      ⟨.punct .lAngle, ['<']⟩, ⟨.atName, "@n".toList⟩, ⟨.punct .lParen, ['(']⟩, ⟨.jsonSpan, ['1']⟩,
      ⟨.punct .rParen, [')']⟩, ⟨.keyword .int, "int".toList⟩, ⟨.punct .question, ['?']⟩,
      ⟨.punct .rAngle, ['>']⟩, ⟨.punct .semicolon, [';']⟩]
    Word.Fits 2 0 ws ∧ Grammar.avro.DerivesWithin "_base_type" 2 (.symbol "program")
      (ws.map (·.kind))
      ∧ ∃ tree, parse config "schema array < @n ( 1 ) int ? > ;" = .ok tree ∧ tree.diagnostics = []
        ∧ tree.tokens.map (·.token.kind) = ws.map (·.kind) := by
  intro config ws
  have hfits : Word.Fits 2 0 ws := by
    refine ⟨.keyword _, by decide, .keyword _, by decide, .punct _, by decide, .atName rfl rfl,
      by decide, .punct _, by decide, .jsonSpan rfl rfl, by decide, .punct _, by decide, .keyword _,
      by decide, .punct _, by decide, .punct _, by decide, .punct _, by decide, trivial⟩
  have htext : String.ofList (Word.render ws) = "schema array < @n ( 1 ) int ? > ;" := rfl
  let D (n : Nat) (r : Rule) (ks : List Kind) := Grammar.avro.DerivesWithin "_base_type" n r ks
  have next {n : Nat} {r : Rule} {rs : List Rule} {k : Kind} {ks : List Kind} (h : D n r [k])
      (hs : D n (.seq rs) ks) : D n (.seq (r :: rs)) (k :: ks) := .seqCons h hs
  have last {n : Nat} {r r' : Rule} {ks : List Kind} {k : Kind} (h : D n r ks) (h' : D n r' [k]) :
      D n (.seq [r, r']) (ks ++ [k]) := .seqCons h (.seqCons h' .seqNil)
  have hint : D 1 (.symbol "_base_type") [.keyword .int] :=
    .level (List.mem_singleton_self _) (.choice List.mem_cons_self (.symbol (by decide)
      (List.mem_singleton_self _)
      (.choice (List.mem_map_of_mem (by decide : Keyword.int ∈ Keyword.primitives)) (.token _))))
  have hnullable : D 1 (.symbol "_type") [.keyword .int, .punct .question] :=
    .symbol (by decide) (List.mem_singleton_self _) (.choice
      (List.mem_cons_of_mem _ List.mem_cons_self) (.symbol (by decide) (List.mem_singleton_self _)
        (.choice List.mem_cons_self
          (.symbol (by decide) (List.mem_singleton_self _) (last hint (.token _))))))
  have hnote : D 1 (.symbol "annotation") [.atName, .punct .lParen, .jsonSpan, .punct .rParen] :=
    .symbol (by decide) (List.mem_singleton_self _)
      (next (.field (.symbol (by decide) (List.mem_singleton_self _) (.token _)))
        (next (.token _) (next (.field (.symbol (by decide) (List.mem_singleton_self _) (.token _)))
          (next (.token _) .seqNil))))
  have hitem : D 1 (.symbol "_type") ([.atName, .punct .lParen, .jsonSpan, .punct .rParen]
      ++ ([.keyword .int, .punct .question] ++ [])) :=
    .symbol (by decide) (List.mem_singleton_self _) (.choice List.mem_cons_self
      (.symbol (by decide) (List.mem_singleton_self _)
        (.seqCons hnote (.seqCons hnullable .seqNil))))
  have harray : D 2 (.symbol "_base_type") (.keyword .array :: .punct .lAngle :: (([.atName,
      .punct .lParen, .jsonSpan, .punct .rParen] ++ ([.keyword .int, .punct .question] ++ []))
      ++ [.punct .rAngle])) :=
    .level (List.mem_singleton_self _) (.choice
      (List.mem_cons_of_mem _ (List.mem_cons_of_mem _ (List.mem_cons_of_mem _ List.mem_cons_self)))
      (.symbol (by decide) (List.mem_singleton_self _)
        (next (.token _) (next (.token _) (last (.field hitem) (.token _))))))
  have htype : D 2 (.symbol "_type") _ :=
    .symbol (by decide) (List.mem_singleton_self _) (.choice
      (List.mem_cons_of_mem _ List.mem_cons_self) (.symbol (by decide) (List.mem_singleton_self _)
        (.choice (List.mem_cons_of_mem _ List.mem_cons_self) harray)))
  have hschema : D 2 (.symbol "_declaration") _ :=
    .symbol (by decide) (List.mem_singleton_self _) (.choice
      (List.mem_cons_of_mem _ List.mem_cons_self) (.symbol (by decide) (List.mem_singleton_self _)
        (next (.token _) (last (.field htype) (.token _)))))
  have hderives : D 2 (.symbol "program") (ws.map (·.kind)) :=
    .symbol (by decide) (List.mem_singleton_self _) (.manyCons hschema .manyNil)
  refine ⟨hfits, hderives, ?_⟩
  rw [← htext]
  exact parse_of_derives rfl rfl (by decide) hfits hderives

end AvroTree
