import AvroTree.Proofs.Making
import AvroTree.Proofs.Parts
import AvroTree.Proofs.Starts

/-!
# What the constructs make

Every construct of the two languages makes its nodes of the tokens it takes, in the order of the
text. A whole file is read to its end.
-/

namespace AvroTree

namespace Parse

open AvroTree.Parse.Parser
open Session (Anywhere Faced Ready Grew)

/-! ## What constructs start with -/

/-! ## The interface language -/

namespace Idl

theorem annotationUse_makes (sync : TokenSet) : Makes Faced (annotationUse sync) fun n => [n] := by
  intro cap text s n s' hs hf hr
  unfold annotationUse at hr
  obtain ⟨name, s₁, hname, hr⟩ := bind_ok hr
  obtain ⟨opening, s₂, hopening, hr⟩ := bind_ok hr
  obtain ⟨value, s₃, hvalue, hr⟩ := bind_ok hr
  obtain ⟨closing, s₄, hclosing, hr⟩ := bind_ok hr
  have h₁ := (bump_makes _ _).grew hs hf hname
  have h₂ := expect_after h₁ hopening (by simp)
  have h₃ := expect_after h₂ hvalue (by simp)
  have h₄ := expect_after h₃ hclosing (by simp)
  exact branch_made h₄ hr

theorem annotationStep_extends (sync : TokenSet) : Extends (annotationStep sync) := by
  intro cap text o nodes s r s' h hr
  obtain ⟨isNote, s₁, hnext, hr⟩ := bind_ok hr
  obtain ⟨hgrew, hfaced⟩ := nextIs_shows h.ordered hnext
  have h₁ := h.idle hgrew
  split at hr
  · rename_i hnote
    obtain ⟨extras, s₂, hflush, hr⟩ := bind_ok hr
    obtain ⟨note, s₃, huse, hr⟩ := bind_ok hr
    obtain ⟨rfl, rfl⟩ := pure_ok hr
    have h₂ := flush_makes.after h₁ trivial hflush
    have h₃ := (annotationUse_makes sync).after h₂ (flush_ready (hfaced hnote nofun) hflush).1 huse
    simpa using h₃
  · obtain ⟨rfl, rfl⟩ := pure_ok hr
    exact h₁

theorem annotations_makes (sync : TokenSet) : Makes Anywhere (annotations sync) id := by
  rw [annotations_eq]
  exact gather_makes (annotationStep_extends sync)

theorem decimalScale_makes (inner : TokenSet) : Makes Anywhere (decimalScale inner) id := by
  unfold decimalScale
  exact ifNext_makes (by nofun) ((bump_makes _ _).append (expect_makes _ _ (by simp))) nothing_makes

theorem decimalType_makes (sync : TokenSet) : Makes Ready (decimalType sync) fun n => [n] := by
  intro cap text s n s' hs hready hr
  rw [decimalType_eq] at hr
  obtain ⟨word, s₁, hword, hr⟩ := bind_ok hr
  obtain ⟨opening, s₂, hopening, hr⟩ := bind_ok hr
  obtain ⟨precision, s₃, hprecision, hr⟩ := bind_ok hr
  obtain ⟨scale, s₄, hscale, hr⟩ := bind_ok hr
  obtain ⟨closing, s₅, hclosing, hr⟩ := bind_ok hr
  have h₁ := (leaf_makes _).grew hs hready hword
  have h₂ := expect_after h₁ hopening (by simp)
  have h₃ := expect_after h₂ hprecision (by simp)
  have h₄ := (decimalScale_makes _).after h₃ trivial hscale
  exact branch_made (expect_after h₄ hclosing (by simp)) hr

/-- Readers of types that make their nodes whatever stands next. -/
def MakesType (type : TypeReader) : Prop :=
  ∀ sync field, Makes Anywhere (type sync field) id

variable {type : TypeReader}

theorem container_makes (h : MakesType type) (kind : NodeKind) (field : String) (word : Keyword)
    (sync : TokenSet) : Makes Ready (container type kind field word sync) fun n => [n] := by
  intro cap text s n s' hs hready hr
  unfold container at hr
  obtain ⟨word, s₁, hword, hr⟩ := bind_ok hr
  obtain ⟨opening, s₂, hopening, hr⟩ := bind_ok hr
  obtain ⟨item, s₃, hitem, hr⟩ := bind_ok hr
  obtain ⟨closing, s₄, hclosing, hr⟩ := bind_ok hr
  have h₁ := (leaf_makes _).grew hs hready hword
  have h₂ := expect_after h₁ hopening (by simp)
  have h₃ := (h _ _).after h₂ trivial hitem
  have h₄ := expect_after h₃ hclosing (by simp)
  exact branch_made h₄ hr

theorem unionMembers_makes (h : MakesType type) (sync : TokenSet) (opened : Bool) :
    Makes Anywhere (unionMembers type sync opened) id :=
  have hmember (sync : TokenSet) : Makes Ready (type sync none) id :=
    (h sync none).mono fun _ _ => trivial
  optional_makes (list_makes sync _ _ hmember First.type_eof) _

theorem unionType_makes (h : MakesType type) (sync : TokenSet) :
    Makes Ready (unionType type sync) fun n => [n] := by
  intro cap text s n s' hs hready hr
  rw [unionType_eq] at hr
  obtain ⟨word, s₁, hword, hr⟩ := bind_ok hr
  obtain ⟨⟨opened, opening⟩, s₂, hopening, hr⟩ := bind_ok hr
  obtain ⟨members, s₃, hmembers, hr⟩ := bind_ok hr
  have h₁ := (leaf_makes _).grew hs hready hword
  have h₂ := (expect?_makes _ _ (by simp)).after h₁ trivial hopening
  exact branch_made ((unionMembers_makes h _ _).after h₂ trivial hmembers) hr

theorem baseType_makes (h : MakesType type) (sync : TokenSet) :
    Makes Ready (baseType type sync) fun n => [n] := by
  unfold baseType
  refine peek_bind_makes fun t => ?_
  split
  · exact decimalType_makes sync
  · exact container_makes h _ _ _ sync
  · exact container_makes h _ _ _ sync
  · exact unionType_makes h sync
  · split
    · exact leaf_makes _
    · split <;> exact leaf_makes _
  · exact leaf_makes _

theorem nullableType_makes (h : MakesType type) (sync : TokenSet) :
    Makes Ready (nullableType type sync) fun n => [n] := by
  intro cap text s n s' hs hready hr
  unfold nullableType at hr
  obtain ⟨base, s₁, hbase, hr⟩ := bind_ok hr
  obtain ⟨marked, s₂, hnext, hr⟩ := bind_ok hr
  have h₁ := (baseType_makes h sync).grew hs hready hbase
  obtain ⟨hgrew, hfaced⟩ := nextIs_shows h₁.ordered hnext
  have h₂ := h₁.idle hgrew
  split at hr
  · rename_i hmarked
    obtain ⟨question, s₃, hbump, hr⟩ := bind_ok hr
    exact branch_made ((bump_makes _ _).after h₂ (hfaced hmarked nofun) hbump) hr
  · obtain ⟨rfl, rfl⟩ := pure_ok hr
    exact h₂

theorem annotatedType_makes {unannotated : TokenSet → Parser Node}
    (h : ∀ sync, Makes Ready (unannotated sync) fun n => [n]) :
    MakesType (annotatedType unannotated) := by
  intro sync field cap text s ns s' hs _ hr
  unfold annotatedType at hr
  obtain ⟨⟨started, skipped⟩, s₁, hrecover, hr⟩ := bind_ok hr
  obtain ⟨h₁, -⟩ := recoverTo_made hs hrecover
  dsimp only at hr
  split at hr
  · obtain ⟨notes, s₂, hnotes, hr⟩ := bind_ok hr
    obtain ⟨⟨found, more⟩, s₃, hrecover, hr⟩ := bind_ok hr
    have h₂ := (annotations_makes sync).after h₁ trivial hnotes
    obtain ⟨hmore, hfaced⟩ := recoverTo_made h₂.ordered hrecover
    have h₃ := h₂.trans hmore
    dsimp only at hr
    split at hr
    · rename_i hfound
      obtain ⟨extras, s₄, hflush, hr⟩ := bind_ok hr
      obtain ⟨n, s₅, hn, hr⟩ := bind_ok hr
      obtain ⟨rfl, rfl⟩ := pure_ok hr
      have h₄ := flush_makes.after h₃ trivial hflush
      have hready := flush_ready (hfaced hfound First.baseType_eof) hflush
      exact h₄.trans (((h sync).grew h₄.ordered hready hn).label field)
    · obtain ⟨n, s₄, hn, hr⟩ := bind_ok hr
      obtain ⟨rfl, rfl⟩ := pure_ok hr
      exact h₃.trans (((missing_makes _ _).grew h₃.ordered trivial hn).label field)
  · obtain ⟨n, s₂, hn, hr⟩ := bind_ok hr
    obtain ⟨rfl, rfl⟩ := pure_ok hr
    exact h₁.trans (((missing_makes _ _).grew h₁.ordered trivial hn).label field)

theorem typeAt_makes : ∀ levels : Nat, MakesType (typeAt levels)
  | 0 => annotatedType_makes fun _ _ _ _ _ _ _ _ hr => by
    obtain ⟨_, _, -, hr⟩ := bind_ok hr
    exact (tooDeep_ok hr).elim
  | levels + 1 => annotatedType_makes (nullableType_makes (typeAt_makes levels))

theorem type_makes : MakesType Idl.type := by
  intro sync field cap text s ns s' hs _ hr
  unfold Idl.type at hr
  obtain ⟨_, _, hget, hr⟩ := bind_ok hr
  obtain ⟨rfl, rfl⟩ := get_ok hget
  exact (typeAt_makes _ _ _).grew hs trivial hr

/-! ### Fields and messages -/

theorem defaultValue_makes (sync : TokenSet) : Makes Anywhere (defaultValue sync) id := by
  unfold defaultValue
  exact ifNext_makes (by nofun) ((bump_makes _ _).append (expect_makes _ _ (by simp))) nothing_makes

theorem namedVariable_makes (sync : TokenSet) : Makes Anywhere (namedVariable sync) id := by
  intro cap text s ns s' hs _ hr
  unfold namedVariable at hr
  obtain ⟨notes, s₁, hnotes, hr⟩ := bind_ok hr
  obtain ⟨name, s₂, hname, hr⟩ := bind_ok hr
  obtain ⟨value, s₃, hvalue, hr⟩ := bind_ok hr
  obtain ⟨rfl, rfl⟩ := pure_ok hr
  have h₁ := (annotations_makes sync).grew hs trivial hnotes
  have h₂ := expect_after h₁ hname (by simp)
  exact (defaultValue_makes sync).after h₂ trivial hvalue

theorem variableStep_extends (inner : TokenSet) : Extends (variableStep inner) := by
  intro cap text o nodes s r s' h hr
  obtain ⟨isComma, s₁, hnext, hr⟩ := bind_ok hr
  obtain ⟨hgrew, hfaced⟩ := nextIs_shows h.ordered hnext
  split at hr
  · rename_i hcomma
    obtain ⟨comma, s₂, hbump, hr⟩ := bind_ok hr
    obtain ⟨another, s₃, hanother, hr⟩ := bind_ok hr
    obtain ⟨rfl, rfl⟩ := pure_ok hr
    have h₂ := (bump_makes _ _).after (h.idle hgrew) (hfaced hcomma nofun) hbump
    have h₃ := (namedVariable_makes _).after h₂ trivial hanother
    simpa using h₃
  · obtain ⟨rfl, rfl⟩ := pure_ok hr
    exact h.idle hgrew

theorem fieldDeclaration_makes (sync : TokenSet) :
    Makes Anywhere (fieldDeclaration sync) fun n => [n] := by
  intro cap text s n s' hs _ hr
  rw [fieldDeclaration_eq] at hr
  obtain ⟨type, s₁, htype, hr⟩ := bind_ok hr
  obtain ⟨first, s₂, hfirst, hr⟩ := bind_ok hr
  obtain ⟨more, s₃, hmore, hr⟩ := bind_ok hr
  obtain ⟨closing, s₄, hclosing, hr⟩ := bind_ok hr
  have h₁ := (type_makes _ _).grew hs trivial htype
  have h₂ := (namedVariable_makes _).after h₁ trivial hfirst
  have h₃ := (gather_makes (variableStep_extends _)).after h₂ trivial hmore
  exact branch_made (expect_after h₃ hclosing (by simp)) hr

theorem parameter_makes (sync : TokenSet) : Makes Anywhere (parameter sync) fun n => [n] := by
  intro cap text s n s' hs _ hr
  unfold parameter at hr
  obtain ⟨type, s₁, htype, hr⟩ := bind_ok hr
  obtain ⟨name, s₂, hname, hr⟩ := bind_ok hr
  obtain ⟨value, s₃, hvalue, hr⟩ := bind_ok hr
  have h₁ := (type_makes _ _).grew hs trivial htype
  have h₂ := expect_after h₁ hname (by simp)
  exact branch_made ((defaultValue_makes sync).after h₂ trivial hvalue) hr

theorem parameters_makes (sync : TokenSet) (opened : Bool) :
    Makes Anywhere (parameters sync opened) id :=
  have hparameter (sync : TokenSet) : Makes Ready (do return [← parameter sync]) id :=
    ((parameter_makes sync).mono fun _ _ => trivial).single
  optional_makes (list_makes sync _ _ hparameter First.parameter_eof) _

theorem parameterList_makes (sync : TokenSet) :
    Makes Anywhere (parameterList sync) fun n => [n] := by
  intro cap text s n s' hs _ hr
  rw [parameterList_eq] at hr
  obtain ⟨⟨opened, opening⟩, s₁, hopening, hr⟩ := bind_ok hr
  obtain ⟨list, s₂, hlist, hr⟩ := bind_ok hr
  have h₁ := (expect?_makes _ _ (by simp)).grew hs trivial hopening
  exact branch_made ((parameters_makes _ _).after h₁ trivial hlist) hr

theorem throwsStep_extends (inner : TokenSet) : Extends (throwsStep inner) := by
  intro cap text o nodes s r s' h hr
  obtain ⟨⟨_, name⟩, s₁, hname, hr⟩ := bind_ok hr
  obtain ⟨more, s₂, hnext, hr⟩ := bind_ok hr
  have h₁ := (expectAs?_makes _ _ _ (by simp)).after h trivial hname
  obtain ⟨hgrew, hfaced⟩ := nextIs_shows h₁.ordered hnext
  have h₂ := h₁.idle hgrew
  split at hr
  · rename_i hmore
    obtain ⟨comma, s₃, hbump, hr⟩ := bind_ok hr
    obtain ⟨rfl, rfl⟩ := pure_ok hr
    have h₃ := (bump_makes _ _).after h₂ (hfaced hmore nofun) hbump
    simpa using h₃
  · obtain ⟨rfl, rfl⟩ := pure_ok hr
    simpa using h₂

theorem throwsClause_makes (sync : TokenSet) : Makes Faced (throwsClause sync) fun n => [n] := by
  intro cap text s n s' hs hf hr
  rw [throwsClause_eq] at hr
  obtain ⟨word, s₁, hword, hr⟩ := bind_ok hr
  obtain ⟨names, s₂, hnames, hr⟩ := bind_ok hr
  have h₁ := (bump_makes _ _).grew hs hf hword
  exact branch_made ((gather_makes (throwsStep_extends _)).after h₁ trivial hnames) hr

theorem messageResult_makes (sync : TokenSet) : Makes Anywhere (messageResult sync) id := by
  unfold messageResult
  exact ifNext_makes (by nofun) (bump_makes _ _) (type_makes _ _)

theorem messageClause_makes (sync : TokenSet) : Makes Anywhere (messageClause sync) id := by
  intro cap text s ns s' hs _ hr
  obtain ⟨t, s₁, hpeek, hr⟩ := bind_ok hr
  obtain ⟨hgrew, hshows⟩ := peek_shows hs hpeek
  obtain ⟨clause, hcases, hr⟩ := named_ok hr
  split at hcases
  · rename_i hkind
    subst hcases
    have hthrows : Makes Ready (throwsClause sync) fun n => [n] :=
      (throwsClause_makes sync).mono fun _ hready => hready.1
    exact (flushed_makes hthrows).after hgrew (hshows.faced (by simp [hkind])) hr
  · rename_i hkind
    subst hcases
    exact (bump_makes _ _).after hgrew (hshows.faced (by simp [hkind])) hr
  · subst hcases
    exact (nothing_makes (C := Anywhere)).after hgrew trivial hr

theorem message_makes (sync : TokenSet) : Makes Anywhere (message sync) id := by
  intro cap text s ns s' hs _ hr
  rw [message_eq] at hr
  obtain ⟨result, s₁, hresult, hr⟩ := bind_ok hr
  obtain ⟨name, s₂, hname, hr⟩ := bind_ok hr
  obtain ⟨list, s₃, hlist, hr⟩ := bind_ok hr
  obtain ⟨clause, s₄, hclause, hr⟩ := bind_ok hr
  obtain ⟨closing, s₅, hclosing, hr⟩ := bind_ok hr
  obtain ⟨rfl, rfl⟩ := pure_ok hr
  have h₁ := (messageResult_makes sync).grew hs trivial hresult
  have h₂ := expect_after h₁ hname (by simp)
  have h₃ := ((parameterList_makes sync).label (some "parameters")).after h₂ trivial hlist
  have h₄ := (messageClause_makes sync).after h₃ trivial hclause
  exact expect_after h₄ hclosing (by simp)

/-! ### Declarations -/

theorem bodyStep_made {sync : TokenSet} {form : BodyForm} {element : Parser Node}
    (h : Makes Anywhere element fun n => [n]) : Extends (bodyStep sync form element) := by
  intro cap text o nodes s r s' ho hr
  rw [bodyStep_eq] at hr
  obtain ⟨t, s₁, hpeek, hr⟩ := bind_ok hr
  obtain ⟨hgrew, hshows⟩ := peek_shows ho.ordered hpeek
  have h₁ := ho.idle hgrew
  split at hr
  · rename_i hclose
    obtain ⟨closing, s₂, hbump, hr⟩ := bind_ok hr
    obtain ⟨rfl, rfl⟩ := pure_ok hr
    have hf : s₁.Faced := hshows.faced (by simp [hclose])
    rw [Array.toList_appendList]
    exact (bump_makes _ _).after h₁ hf hbump
  split at hr
  · exact (addItem_made h h₁ hr).1
  split at hr
  · obtain ⟨n, s₂, hmissing, hr⟩ := bind_ok hr
    obtain ⟨rfl, rfl⟩ := pure_ok hr
    rw [Array.toList_push]
    exact (missing_makes _ _).after h₁ trivial hmissing
  · obtain ⟨skipped, s₂, hskip, hr⟩ := bind_ok hr
    obtain ⟨rfl, rfl⟩ := pure_ok hr
    rw [Array.toList_appendList]
    exact h₁.trans (skip_made h₁.ordered hskip).1

theorem bodyPresent_makes (sync : TokenSet) (form : BodyForm) (opened : Bool) :
    Makes Anywhere (bodyPresent sync form opened) fun _ => [] := by
  intro cap text s b s' hs _ hr
  unfold bodyPresent at hr
  split at hr
  · obtain ⟨-, rfl⟩ := pure_ok hr
    exact .refl hs
  · obtain ⟨t, s₁, hpeek, hr⟩ := bind_ok hr
    obtain ⟨-, rfl⟩ := pure_ok hr
    exact (peek_shows hs hpeek).1

theorem bodyNodes_made {cap : Nat} {text : List Char} {o s s' : Session} {sync : TokenSet}
    {form : BodyForm} {element : TokenSet → Parser Node} {opening ns : List Node} {present : Bool}
    (h : ∀ sync, Makes Anywhere (element sync) fun n => [n]) (ho : Grew cap text o opening s)
    (hr : bodyNodes sync form element opening present s = .ok (ns, s')) :
    Grew cap text o ns s' := by
  unfold bodyNodes at hr
  split at hr
  · exact gather_made (bodyStep_made (h _)) ho hr
  · obtain ⟨rfl, rfl⟩ := pure_ok hr
    exact ho

theorem body_makes (sync : TokenSet) (form : BodyForm) {element : TokenSet → Parser Node}
    (h : ∀ sync, Makes Anywhere (element sync) fun n => [n]) :
    Makes Anywhere (body sync form element) fun n => [n] := by
  intro cap text s n s' hs _ hr
  rw [body_eq] at hr
  obtain ⟨⟨opened, opening⟩, s₁, hopening, hr⟩ := bind_ok hr
  obtain ⟨present, s₂, hpresent, hr⟩ := bind_ok hr
  obtain ⟨nodes, s₃, hnodes, hr⟩ := bind_ok hr
  have h₁ := (expect?_makes _ _ (by simp)).grew hs trivial hopening
  have h₂ := h₁.idle ((bodyPresent_makes _ _ _).grew h₁.ordered trivial hpresent)
  exact branch_made (bodyNodes_made h h₂ hnodes) hr

theorem enumSymbols_makes (sync : TokenSet) (opened : Bool) :
    Makes Anywhere (enumSymbols sync opened) id :=
  have hsymbol (_ : TokenSet) : Makes Ready (bump .enumSymbol) id :=
    (bump_makes _ _).mono fun _ hready => hready.1
  optional_makes (list_makes sync _ _ hsymbol (TokenSet.contains_single_eof (by simp))) _

theorem enumBody_makes (sync : TokenSet) : Makes Anywhere (enumBody sync) fun n => [n] := by
  intro cap text s n s' hs _ hr
  rw [enumBody_eq] at hr
  obtain ⟨⟨opened, opening⟩, s₁, hopening, hr⟩ := bind_ok hr
  obtain ⟨symbols, s₂, hsymbols, hr⟩ := bind_ok hr
  have h₁ := (expect?_makes _ _ (by simp)).grew hs trivial hopening
  exact branch_made ((enumSymbols_makes _ _).after h₁ trivial hsymbols) hr

theorem enumDefault_makes (sync : TokenSet) : Makes Faced (enumDefault sync) fun n => [n] := by
  intro cap text s n s' hs hf hr
  unfold enumDefault at hr
  obtain ⟨equals, s₁, hequals, hr⟩ := bind_ok hr
  obtain ⟨value, s₂, hvalue, hr⟩ := bind_ok hr
  obtain ⟨closing, s₃, hclosing, hr⟩ := bind_ok hr
  have h₁ := (bump_makes _ _).grew hs hf hequals
  have h₂ := expect_after h₁ hvalue (by simp)
  exact branch_made (expect_after h₂ hclosing (by simp)) hr

/-- Wrapping the annotations in front of a declaration keeps what has been made. -/
theorem settleAnnotations_made {cap : Nat} {text : List Char} {o s s' : Session} {kind : NodeKind}
    {notes ns : List Node} (h : Grew cap text o notes s)
    (hr : settleAnnotations kind notes s = .ok (ns, s')) :
    Grew cap text o ns s' ∧ s'.cursor = s.cursor := by
  unfold settleAnnotations at hr
  split at hr
  · obtain ⟨rfl, rfl⟩ := pure_ok hr
    exact ⟨h, rfl⟩
  · obtain ⟨wrapped, s₁, hbranch, hr⟩ := bind_ok hr
    obtain ⟨_, s₂, hcomplain, hr⟩ := bind_ok hr
    obtain ⟨rfl, rfl⟩ := pure_ok hr
    have h₁ := branch_made h hbranch
    cases hbranch
    have hgood := h₁.good (List.mem_singleton_self _)
    obtain ⟨hgrew, -, hcursor⟩ := complain_made h₁.ordered hgood.placed.start hcomplain
    exact ⟨h₁.idle hgrew, hcursor⟩

theorem importKind_makes (found : Bool) :
    Makes (fun s => found → s.Faced) (importKind found) id := by
  intro cap text s ns s' hs hfaced hr
  unfold importKind at hr
  split at hr
  · exact (bump_makes _ _).grew hs (hfaced ‹_›) hr
  · obtain ⟨n, s₁, hmissing, hr⟩ := bind_ok hr
    obtain ⟨rfl, rfl⟩ := pure_ok hr
    exact ((missing_makes _ _).grew hs trivial hmissing).label _

theorem importRest_makes (sync : TokenSet) : Makes Anywhere (importRest sync) id := by
  intro cap text s ns s' hs _ hr
  rw [importRest_eq] at hr
  obtain ⟨⟨found, skipped⟩, s₁, hrecover, hr⟩ := bind_ok hr
  obtain ⟨kind, s₂, hkind, hr⟩ := bind_ok hr
  obtain ⟨path, s₃, hpath, hr⟩ := bind_ok hr
  obtain ⟨closing, s₄, hclosing, hr⟩ := bind_ok hr
  obtain ⟨rfl, rfl⟩ := pure_ok hr
  obtain ⟨h₁, hfaced⟩ := recoverTo_made hs hrecover
  have h₂ := (importKind_makes found).after h₁ (fun hf => hfaced hf First.importKind_eof) hkind
  have h₃ := expect_after h₂ hpath (by simp)
  exact expect_after h₃ hclosing (by simp)

/-- A name and a body behind it. -/
theorem namedBody_makes (sync : TokenSet) (form : BodyForm) {element : TokenSet → Parser Node}
    (h : ∀ sync, Makes Anywhere (element sync) fun n => [n]) :
    Makes Anywhere (do
      let name ← expect sync .identifier (some "name")
      let body ← body sync form element
      return name ++ [body.label (some "body")]) id := by
  intro cap text s ns s' hs _ hr
  obtain ⟨name, s₁, hname, hr⟩ := bind_ok hr
  obtain ⟨body, s₂, hbody, hr⟩ := bind_ok hr
  obtain ⟨rfl, rfl⟩ := pure_ok hr
  have h₁ := (expect_makes _ _ (by simp)).grew hs trivial hname
  exact h₁.trans (((body_makes sync form h).grew h₁.ordered trivial hbody).label _)

theorem recordRest_makes (sync : TokenSet) : Makes Anywhere (recordRest sync) id :=
  namedBody_makes sync _ fieldDeclaration_makes

theorem optionalDefault_makes (sync : TokenSet) : Makes Anywhere (optionalDefault sync) id := by
  have hdefault : Makes Ready (enumDefault sync) fun n => [n] :=
    (enumDefault_makes sync).mono fun _ hready => hready.1
  unfold optionalDefault
  exact ifNext_makes (by nofun) (flushed_makes (hdefault.label (some "default"))) nothing_makes

theorem enumRest_makes (sync : TokenSet) : Makes Anywhere (enumRest sync) id := by
  intro cap text s ns s' hs _ hr
  rw [enumRest_eq] at hr
  obtain ⟨name, s₁, hname, hr⟩ := bind_ok hr
  obtain ⟨body, s₂, hbody, hr⟩ := bind_ok hr
  obtain ⟨default, s₃, hdefault, hr⟩ := bind_ok hr
  obtain ⟨rfl, rfl⟩ := pure_ok hr
  have h₁ := (expect_makes _ _ (by simp)).grew hs trivial hname
  have h₂ := ((enumBody_makes sync).label (some "body")).after h₁ trivial hbody
  exact (optionalDefault_makes sync).after h₂ trivial hdefault

theorem fixedRest_makes (sync : TokenSet) : Makes Anywhere (fixedRest sync) id := by
  intro cap text s ns s' hs _ hr
  unfold fixedRest at hr
  obtain ⟨name, s₁, hname, hr⟩ := bind_ok hr
  obtain ⟨opening, s₂, hopening, hr⟩ := bind_ok hr
  obtain ⟨size, s₃, hsize, hr⟩ := bind_ok hr
  obtain ⟨closing, s₄, hclosing, hr⟩ := bind_ok hr
  obtain ⟨last, s₅, hlast, hr⟩ := bind_ok hr
  obtain ⟨rfl, rfl⟩ := pure_ok hr
  have h₁ := (expect_makes _ _ (by simp)).grew hs trivial hname
  have h₂ := expect_after h₁ hopening (by simp)
  have h₃ := expect_after h₂ hsize (by simp)
  have h₄ := expect_after h₃ hclosing (by simp)
  exact expect_after h₄ hlast (by simp)

theorem declarationRest_makes {protocolRest : TokenSet → Parser (List Node)}
    (h : ∀ sync, Makes Anywhere (protocolRest sync) id) (kind : NodeKind) (sync : TokenSet) :
    Makes Anywhere (declarationRest protocolRest kind sync) id := by
  rw [declarationRest.eq_def]
  split
  · exact (expect_makes _ _ (by simp)).append (expect_makes _ _ (by simp))
  · exact (type_makes _ _).append (expect_makes _ _ (by simp))
  · exact h sync
  · exact importRest_makes sync
  · exact enumRest_makes sync
  · exact fixedRest_makes sync
  · exact recordRest_makes sync

/-- A token at which a declaration turns out to be something is not the end of the text. -/
theorem headKind?_eof (top : Bool) : headKind? top .eof = none := by
  simp only [headKind?, First.returnType_eof]
  rfl

theorem bareDeclaration_makes {protocolRest : TokenSet → Parser (List Node)}
    (h : ∀ sync, Makes Anywhere (protocolRest sync) id) (kind : NodeKind) (word : Token.Kind)
    (sync : TokenSet) : Makes Faced (bareDeclaration protocolRest kind word sync) id := by
  unfold bareDeclaration
  split
  · exact (message_makes sync).mono fun _ _ => trivial
  · exact (bump_makes _ _).append (declarationRest_makes h kind sync)

theorem declarationWith_makes (top : Bool) {protocolRest : TokenSet → Parser (List Node)}
    (h : ∀ sync, Makes Anywhere (protocolRest sync) id) (sync : TokenSet) :
    Makes Anywhere (declarationWith top protocolRest sync) fun n => [n] := by
  intro cap text s n s' hs _ hr
  rw [declarationWith_eq] at hr
  obtain ⟨notes, s₁, hnotes, hr⟩ := bind_ok hr
  obtain ⟨t, s₂, hpeek, hr⟩ := bind_ok hr
  have h₁ := (annotations_makes sync).grew hs trivial hnotes
  obtain ⟨hgrew, hshows⟩ := peek_shows h₁.ordered hpeek
  have h₂ := h₁.idle hgrew
  cases hkind : headKind? top t.kind with
  | none =>
    rw [hkind] at hr
    obtain ⟨place, s₃, hhere, hr⟩ := bind_ok hr
    obtain ⟨rfl, rfl⟩ := here_ok hhere
    obtain ⟨_, s₃, hcomplain, hr⟩ := bind_ok hr
    obtain ⟨rfl, rfl⟩ := pure_ok hr
    obtain ⟨hgrew, hfrontier, -⟩ := complain_made h₂.ordered h₂.ordered.frontier hcomplain
    rw [← hfrontier]
    exact (h₂.idle hgrew).wrap .error
  | some kind =>
    rw [hkind] at hr
    have hf : s₂.Faced := by
      refine hshows.faced fun he => ?_
      rw [he, headKind?_eof] at hkind
      cases hkind
    obtain ⟨settled, s₃, hsettle, hr⟩ := bind_ok hr
    obtain ⟨rest, s₄, hrest, hr⟩ := bind_ok hr
    obtain ⟨h₃, hcursor⟩ := settleAnnotations_made h₂ hsettle
    exact branch_made ((bareDeclaration_makes h _ _ sync).after h₃ (hf.of_cursor hcursor) hrest) hr

theorem protocolMember_makes (sync : TokenSet) :
    Makes Anywhere (protocolMember sync) fun n => [n] := by
  refine declarationWith_makes false (fun _ _ _ _ _ _ hs _ hr => ?_) sync
  obtain ⟨rfl, rfl⟩ := pure_ok hr
  exact .refl hs

theorem protocolRest_makes (sync : TokenSet) : Makes Anywhere (protocolRest sync) id :=
  namedBody_makes sync _ protocolMember_makes

/-- A step of reading a file goes on behind a token it has taken and stops at the end. -/
theorem programStep_made {cap : Nat} {text : List Char} {o s s' : Session} {nodes : Array Node}
    {r : Bool × Array Node} (h : Grew cap text o nodes.toList s)
    (hr : programStep nodes s = .ok (r, s')) :
    Grew cap text o r.2.toList s' ∧ if r.1 then s'.remaining < s.remaining else s'.AtEnd := by
  rw [programStep_eq] at hr
  obtain ⟨t, s₁, hpeek, hr⟩ := bind_ok hr
  obtain ⟨hgrew, hshows⟩ := peek_shows h.ordered hpeek
  have h₁ := h.idle hgrew
  split at hr
  · rename_i heof
    obtain ⟨rfl, rfl⟩ := pure_ok hr
    exact ⟨h₁, hshows.eof.1 heof⟩
  rename_i heof
  have hf := hshows.faced heof
  split at hr
  · obtain ⟨h₂, hlt⟩ := addItem_made (declarationWith_makes true protocolRest_makes _) h₁ hr
    refine ⟨h₂, ?_⟩
    rw [if_pos (addItem_goes hr)]
    exact h.ordered.remaining_lt h₂.ordered (hgrew.le.trans_lt (hlt hf))
  · obtain ⟨skipped, s₂, hskip, hr⟩ := bind_ok hr
    obtain ⟨rfl, rfl⟩ := pure_ok hr
    obtain ⟨hskipped, hlt⟩ := skip_made h₁.ordered hskip
    refine ⟨by simpa using h₁.trans hskipped, ?_⟩
    exact h.ordered.remaining_lt hskipped.ordered (hgrew.le.trans_lt (hlt hf))

/-- A file is read to its end, and all comments have their place then. -/
theorem program_made {cap : Nat} {text : List Char} {s s' : Session} {n : Node}
    (hs : s.Ordered cap text) (hr : program s = .ok (n, s')) :
    Grew cap text s [n] s' ∧ s'.AtEnd ∧ s'.extras = #[] := by
  unfold program at hr
  obtain ⟨declarations, s₁, hgather, hr⟩ := bind_ok hr
  obtain ⟨extras, s₂, hflush, hr⟩ := bind_ok hr
  obtain ⟨h₁, hend⟩ := gather_stops (fun _ _ _ _ => programStep_made) hs hgather
  obtain ⟨hextras, hcursor, hempty⟩ := flush_made h₁.ordered hflush
  have h₃ := branch_made (h₁.trans hextras) hr
  cases hr
  refine ⟨h₃, ?_, hempty⟩
  unfold Session.AtEnd
  rw [hcursor]
  exact hend

end Idl

/-! ## Schemas -/

namespace Schema

theorem brackets_makes (kind : NodeKind) {first : TokenSet} (hfirst : first.contains .eof = false)
    {element : TokenSet → Parser (List Node)} (h : ∀ sync, Makes Ready (element sync) id)
    (sync : TokenSet) : Makes Faced (brackets kind first element sync) fun n => [n] := by
  intro cap text s n s' hs hf hr
  unfold brackets at hr
  obtain ⟨opening, s₁, hopening, hr⟩ := bind_ok hr
  obtain ⟨items, s₂, hitems, hr⟩ := bind_ok hr
  have h₁ := (bump_makes _ _).grew hs hf hopening
  exact branch_made ((list_makes sync _ _ h hfirst).after h₁ trivial hitems) hr

/-- Readers that make their nodes of what stands next. -/
structure Level.Makes (l : Level) : Prop where
  value : ∀ sync, Parser.Makes Ready (l.value sync) fun n => [n]
  object : ∀ kind sync, Parser.Makes Faced (l.object kind sync) fun n => [n]

theorem deeper_makes {α : Type} {inner : Option Level} {k : Level → Parser α}
    {C : Session → Prop} {out : α → List Node} (h : ∀ l ∈ inner, Parser.Makes C (k l) out) :
    Parser.Makes C (deeper inner k) out := by
  unfold deeper
  cases inner with
  | some l => exact h l rfl
  | none =>
    intro cap text s a s' _ _ hr
    obtain ⟨_, _, -, hr⟩ := bind_ok hr
    exact (tooDeep_ok hr).elim

variable {inner : Option Level}

theorem value_makes (h : ∀ l ∈ inner, l.Makes) (sync : TokenSet) :
    Parser.Makes Ready (value inner sync) fun n => [n] := by
  unfold value
  refine peek_bind_makes fun t => ?_
  split
  · exact deeper_makes fun l hl => ((h l hl).object none sync).mono fun _ hready => hready.1
  · refine deeper_makes fun l hl => Makes.mono ?_ fun _ hready => hready.1
    exact brackets_makes _ First.schemaValue_eof (fun sync => ((h l hl).value sync).single) sync
  · intro cap text s n s' hs hready hr
    obtain ⟨name, s₁, hname, hr⟩ := bind_ok hr
    cases hname
    exact (leaf_makes _).grew hs hready hr

theorem wholeMember_makes (sync : TokenSet) : Parser.Makes Anywhere (wholeMember sync) id :=
  expect_makes _ _ (by simp)

theorem schemaMember_makes (h : ∀ l ∈ inner, l.Makes) (sync : TokenSet) :
    Parser.Makes Anywhere (schemaMember inner sync) id := by
  intro cap text s ns s' hs _ hr
  unfold schemaMember at hr
  obtain ⟨t, s₁, hpeek, hr⟩ := bind_ok hr
  obtain ⟨h₁, hshows⟩ := peek_shows hs hpeek
  split at hr
  · rename_i hfirst
    have hf := hshows.faced_of_contains First.schemaValue_eof hfirst
    obtain ⟨extras, s₂, hflush, hr⟩ := bind_ok hr
    obtain ⟨n, s₃, hvalue, hr⟩ := bind_ok hr
    obtain ⟨rfl, rfl⟩ := pure_ok hr
    have h₂ := flush_makes.after h₁ trivial hflush
    have hn := (value_makes h sync).grew h₂.ordered (flush_ready hf hflush) hvalue
    exact h₂.trans (hn.label _)
  · exact (wholeMember_makes sync).after h₁ trivial hr

theorem listMember_makes (kind : NodeKind) {first : TokenSet}
    (hfirst : first.contains .eof = false) {element : Level → TokenSet → Parser (List Node)}
    (h : ∀ l ∈ inner, ∀ sync, Parser.Makes Ready (element l sync) id) (sync : TokenSet) :
    Parser.Makes Anywhere (listMember inner kind first element sync) id := by
  intro cap text s ns s' hs _ hr
  unfold listMember at hr
  obtain ⟨opened, s₁, hnext, hr⟩ := bind_ok hr
  obtain ⟨h₁, hfaced⟩ := nextIs_shows hs hnext
  split at hr
  · rename_i hopened
    obtain ⟨extras, s₂, hflush, hr⟩ := bind_ok hr
    obtain ⟨items, s₃, hitems, hr⟩ := bind_ok hr
    obtain ⟨rfl, rfl⟩ := pure_ok hr
    have h₂ := flush_makes.after h₁ trivial hflush
    have hready := flush_ready (hfaced hopened nofun) hflush
    have hlevel := deeper_makes fun l hl => brackets_makes kind hfirst (h l hl) sync
    exact h₂.trans ((hlevel.grew h₂.ordered hready.1 hitems).label _)
  · exact (wholeMember_makes sync).after h₁ trivial hr

theorem member_makes (h : ∀ l ∈ inner, l.Makes) (key : String) (sync : TokenSet) :
    Parser.Makes Anywhere (member inner key sync) id := by
  rw [member.eq_def]
  split
  · exact schemaMember_makes h sync
  · exact schemaMember_makes h sync
  · exact schemaMember_makes h sync
  · exact listMember_makes _ (TokenSet.contains_single_eof (by simp))
      (fun l hl sync => (((h l hl).object _ sync).mono fun _ hready => hready.1).single) sync
  · exact listMember_makes _ (TokenSet.contains_single_eof (by simp))
      (fun _ _ _ => (bump_makes _ _).mono fun _ hready => hready.1) sync
  · exact listMember_makes _ First.schemaValue_eof
      (fun l hl sync => ((h l hl).value sync).single) sync
  · exact wholeMember_makes sync

theorem pair_makes (h : ∀ l ∈ inner, l.Makes) (sync : TokenSet) :
    Parser.Makes Faced (pair inner sync) fun n => [n] := by
  intro cap text s n s' hs hf hr
  unfold pair at hr
  obtain ⟨extras, s₁, hflush, hr⟩ := bind_ok hr
  obtain ⟨name, s₂, hname, hr⟩ := bind_ok hr
  cases hname
  obtain ⟨key, s₃, hkey, hr⟩ := bind_ok hr
  obtain ⟨colon, s₄, hcolon, hr⟩ := bind_ok hr
  obtain ⟨value, s₅, hvalue, hr⟩ := bind_ok hr
  obtain ⟨node, s₆, hnode, hr⟩ := bind_ok hr
  obtain ⟨rfl, rfl⟩ := pure_ok hr
  have h₁ := flush_makes.grew hs trivial hflush
  have h₃ := ((leaf_makes _).grew h₁.ordered (flush_ready hf hflush) hkey).label (some "key")
  have h₄ := expect_after h₃ hcolon (by simp)
  have h₅ := (member_makes h _ sync).after (h₁.trans h₄) trivial hvalue
  exact (branch_made h₅ hnode).label _

theorem object_makes (h : ∀ l ∈ inner, l.Makes) (kind : Option NodeKind) (sync : TokenSet) :
    Parser.Makes Faced (object inner kind sync) fun n => [n] := by
  intro cap text s n s' hs hf hr
  unfold object at hr
  obtain ⟨opening, s₁, hopening, hr⟩ := bind_ok hr
  obtain ⟨members, s₂, hmembers, hr⟩ := bind_ok hr
  obtain ⟨_, _, hget, hr⟩ := bind_ok hr
  obtain ⟨rfl, rfl⟩ := get_ok hget
  have h₁ := (bump_makes _ _).grew hs hf hopening
  have hpair (sync : TokenSet) : Parser.Makes Ready (do return [← pair inner sync]) id :=
    ((pair_makes h sync).mono fun _ hready => hready.1).single
  exact branch_made ((list_makes sync _ _ hpair
    (TokenSet.contains_single_eof (by simp))).after h₁ trivial hmembers) hr

theorem level_makes : ∀ levels : Nat, (level levels).Makes
  | 0 => ⟨value_makes (fun _ h => nomatch h), object_makes (fun _ h => nomatch h)⟩
  | levels + 1 =>
    have h : ∀ l ∈ some (level levels), l.Makes := fun _ hl =>
      Option.some.inj hl ▸ level_makes levels
    ⟨value_makes h, object_makes h⟩

/-- What stands behind the schema is skipped to the end of the text. -/
theorem trailing_made {cap : Nat} {text : List Char} {s s' : Session} {ns : List Node}
    (hs : s.Ordered cap text) (hr : trailing s = .ok (ns, s')) :
    Grew cap text s ns s' ∧ s'.AtEnd := by
  refine gather_stops (fun nodes t r t' h hr => ?_) hs hr
  obtain ⟨token, t₁, hpeek, hr⟩ := bind_ok hr
  obtain ⟨hgrew, hshows⟩ := peek_shows h.ordered hpeek
  have h₁ := h.idle hgrew
  split at hr
  · rename_i heof
    obtain ⟨rfl, rfl⟩ := pure_ok hr
    exact ⟨h₁, hshows.eof.1 heof⟩
  · rename_i heof
    obtain ⟨skipped, t₂, hskip, hr⟩ := bind_ok hr
    obtain ⟨rfl, rfl⟩ := pure_ok hr
    obtain ⟨hskipped, hlt⟩ := skip_made h₁.ordered hskip
    refine ⟨by simpa using h₁.trans hskipped, ?_⟩
    exact h.ordered.remaining_lt hskipped.ordered (hgrew.le.trans_lt (hlt (hshows.faced heof)))

theorem whole_makes : Parser.Makes Ready whole fun n => [n] := by
  intro cap text s n s' hs hready hr
  obtain ⟨_, _, hget, hr⟩ := bind_ok hr
  obtain ⟨rfl, rfl⟩ := get_ok hget
  exact ((level_makes _).value _).grew hs hready hr

theorem fileSchema_makes (found : Bool) :
    Parser.Makes (fun s => found → s.Faced) (fileSchema found) id := by
  intro cap text s ns s' hs hfaced hr
  unfold fileSchema at hr
  split at hr
  · exact (flushed_makes whole_makes).grew hs (hfaced ‹_›) hr
  · exact (missing_makes _ _).single.grew hs trivial hr

/-- A file is read to its end, and all comments have their place then. -/
theorem file_made {cap : Nat} {text : List Char} {s s' : Session} {n : Node}
    (hs : s.Ordered cap text) (hr : file s = .ok (n, s')) :
    Grew cap text s [n] s' ∧ s'.AtEnd ∧ s'.extras = #[] := by
  rw [file_eq] at hr
  obtain ⟨⟨found, skipped⟩, s₁, hrecover, hr⟩ := bind_ok hr
  obtain ⟨schema, s₂, hschema, hr⟩ := bind_ok hr
  obtain ⟨rest, s₃, htrailing, hr⟩ := bind_ok hr
  obtain ⟨extras, s₄, hflush, hr⟩ := bind_ok hr
  obtain ⟨h₁, hfaced⟩ := recoverTo_made hs hrecover
  have h₂ := (fileSchema_makes found).after h₁ (fun hf => hfaced hf First.schemaValue_eof) hschema
  obtain ⟨h₃, hend⟩ := trailing_made h₂.ordered htrailing
  obtain ⟨hextras, hcursor, hempty⟩ := flush_made h₃.ordered hflush
  have h₄ := branch_made ((h₂.trans h₃).trans hextras) hr
  cases hr
  refine ⟨h₄, ?_, hempty⟩
  unfold Session.AtEnd
  rw [hcursor]
  exact hend

end Schema

end Parse

end AvroTree
