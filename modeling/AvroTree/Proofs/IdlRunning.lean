import AvroTree.Parse.Idl
import AvroTree.Proofs.Depths
import AvroTree.Proofs.Deriving
import AvroTree.Proofs.Starts

/-!
# The interface language is read

Where the words ahead are what a construct derives, its parser reads just them and does not
complain. What comes behind must not look like a part that was left out, such as the question mark
of a type.
-/

namespace AvroTree

open Token (Kind)
open Rule (mark commas commas1 commasTrailing)

namespace Writes

variable {n : Nat} {r : Rule} {us vs : List Word} {form : Parse.Parser.ListForm} {w : Word}

open Parse.Parser (ListWords)

theorem listMany (h : Writes n (.many (.seq [mark .comma, r])) us)
    (hvs : ListWords form (Writes n r) false true vs) :
    ListWords form (Writes n r) false true (us ++ vs) := by
  induction hn : us.length using Nat.strongRecOn generalizing us with
  | ind len ih =>
    rcases h.many with rfl | ⟨xs, ys, rfl, hxs, hys⟩
    · exact hvs
    · obtain ⟨c, zs, rfl, hc, hzs⟩ := hxs.head (.token (.punct .comma))
      have hlt : ys.length < len := by
        rw [← hn]
        simp only [List.cons_append, List.length_cons, List.length_append]
        omega
      rw [List.append_assoc]
      exact .comma hc (.item hzs.only (ih _ hlt hys rfl))

theorem listCommas (h : Writes n (commas r) us) (hw : w.kind = .punct form.close) :
    ListWords form (Writes n r) true false (us ++ [w]) := by
  rcases h.optional with rfl | h
  · exact .close (fun _ h => by cases h) hw
  · obtain ⟨xs, ys, rfl, hxs, hys⟩ := h.cons
    rw [List.append_assoc]
    exact .item hxs (hys.only.listMany (.close (fun h => by cases h) hw))

theorem listTrailing (htrailing : form.trailing) (h : Writes n (commasTrailing r) us)
    (hw : w.kind = .punct form.close) :
    ListWords form (Writes n r) true false (us ++ [w]) := by
  rcases h.optional with rfl | h
  · exact .close (fun _ h => by cases h) hw
  · obtain ⟨xs, ys, rfl, hxs, hys⟩ := h.cons
    obtain ⟨ys, zs, rfl, hys, hzs⟩ := hys.cons
    rw [List.append_assoc, List.append_assoc]
    refine .item hxs (hys.listMany ?_)
    rcases hzs.only.optional with rfl | hcomma
    · exact .close (fun h => by cases h) hw
    · obtain ⟨c, rfl, hc⟩ := hcomma.token
      exact .comma hc (.close (fun _ _ => htrailing) hw)

variable {name : String}

/-- A construct that is never empty starts with one of its first tokens. -/
theorem start (firsts : List Kind) (hname : (name, firsts) ∈ Grammar.constructs)
    (hfirsts : ∀ k ∈ firsts, k.isError = false)
    (h : Writes n (.symbol name) us) : ∃ w vs, us = w :: vs ∧ w.kind ∈ firsts := by
  cases us with
  | nil => exact absurd rfl (Grammar.ne_nil_of_derives hname h.derives)
  | cons w vs =>
    exact ⟨w, vs, rfl, TokenSet.mem_of_contains hfirsts (Grammar.head_of_derives hname h.derives)⟩

/-- The annotations in front of a type, and the rest of it. -/
theorem annotatedType (h : Writes n (.symbol "_type") us) : ∃ notes vs, us = notes ++ vs
    ∧ Writes n (.many (.symbol "annotation")) notes
    ∧ Writes n (.symbol "_unannotated_type") vs := by
  induction hn : us.length using Nat.strongRecOn generalizing us with
  | ind len ih =>
    obtain ⟨r, hr, h⟩ := (h.rule rfl (by decide)).choice
    rcases List.mem_pair.1 hr with rfl | rfl
    · obtain ⟨notes, ys, rfl, hnotes, hys⟩ := (h.rule rfl (by decide)).cons
      obtain ⟨a, as, rfl, -⟩ := hnotes.start [.atName] (by decide) (by decide)
      have hlt : ys.length < len := by
        rw [← hn]
        simp only [List.length_append, List.length_cons]
        omega
      obtain ⟨more, vs, rfl, hmore, hvs⟩ := ih _ hlt hys.only rfl
      refine ⟨(a :: as) ++ more, vs, by rw [List.append_assoc], ?_, hvs⟩
      rw [Writes, List.map_append]
      exact .manyCons hnotes hmore
    · exact ⟨[], us, rfl, .manyNil, h⟩

end Writes

namespace Parse

open AvroTree.Parse.Parser
open Word (Fits)

variable {max n : Nat} {text : List Char} {all : List Kind} {stack : List Bracket}
  {us ws : List Word} {v : Word} {sync : TokenSet}

theorem union_jsonSpan {s t : TokenSet} (hs : s.contains .jsonSpan = false)
    (ht : t.contains .jsonSpan = false) : (s ∪ t).contains .jsonSpan = false := by
  rw [TokenSet.contains_union, hs, ht, Bool.false_or]

/-- A word of this kind comes first, and it is none of `K`. -/
theorem Clear.of_kind {K : TokenSet} {k : Kind} (hv : v.kind = k)
    (hk : K.contains k = false ∧ k ≠ .jsonSpan) : Clear K (v :: ws) := by
  rintro _ ⟨⟩
  rwa [hv]

theorem Clear.of_mem {K : TokenSet} {ks : List Kind} (hv : v.kind ∈ ks)
    (hks : ∀ k ∈ ks, K.contains k = false ∧ k ≠ .jsonSpan) : Clear K (v :: ws) := by
  rintro _ ⟨⟩
  exact hks _ hv

namespace Idl

/-! ## Annotations and types -/

theorem annotationUse_words (hsync : sync.contains .jsonSpan = false)
    (h : Writes n (.symbol "annotation") us) : ∃ w vs, us = w :: vs ∧ w.kind = .atName
      ∧ ∀ ws, Runs (Seeing max text all stack stack w (vs ++ ws)) (annotationUse sync) fun _ =>
        Facing max text all stack ws := by
  obtain ⟨a, _, rfl, ha, h⟩ := (h.rule rfl (by decide)).head (.field (.rule rfl (by decide)))
  obtain ⟨l, _, rfl, hl, h⟩ := h.head (.token (.punct .lParen))
  obtain ⟨v, _, rfl, hv, h⟩ := h.head (.field Writes.jsonValue_one)
  obtain ⟨r, rfl, hr⟩ := h.last (.token (.punct .rParen))
  refine ⟨a, _, rfl, ha, fun ws => ?_⟩
  have hinner := union_jsonSpan hsync (t := .single (.punct .rParen)) rfl
  unfold annotationUse
  exact bump_word.bind fun name => (expect_word hl rfl hinner).bind fun opening =>
    (expect_word hv rfl hinner).bind fun value => (expect_word hr rfl hsync).bind fun closing =>
      branch_runs

/-- Annotations are read up to something that is none. -/
theorem annotations_words (hsync : sync.contains .jsonSpan = false)
    (h : Writes n (.many (.symbol "annotation")) us) (hws : Clear (.single .atName) ws) :
    Runs (Facing max text all stack (us ++ ws)) (annotations sync) fun _ =>
      Facing max text all stack ws := by
  refine gather_words (W := fun vs => ∃ us, vs = us ++ ws
    ∧ Writes n (.many (.symbol "annotation")) us) ?_ ⟨us, rfl, h⟩
  rintro nodes _ ⟨us, rfl, h⟩
  rcases h.many with rfl | ⟨note, us, rfl, hnote, hmore⟩
  · refine (nextIs_clear hws rfl (by simp) (by simp)).bind fun b => .given ?_
    rintro rfl
    exact .pure fun _ h => h
  · obtain ⟨w, vs, rfl, hw, hrun⟩ := annotationUse_words hsync hnote
    rw [List.append_assoc]
    refine (nextIs_word hw rfl).bind fun b => .given ?_
    rintro rfl
    refine flush_seeing.bind fun extras => (hrun (us ++ ws)).bind fun note => .pure fun _ hs => ?_
    refine ⟨us ++ ws, ⟨us, rfl, hmore⟩, hs, ?_⟩
    simp only [List.cons_append, List.length_cons, List.length_append]
    omega

/-- Where there are no annotations none are read. -/
theorem annotations_none (hws : Clear (.single .atName) ws) :
    Runs (Facing max text all stack ws) (annotations sync) fun ns s =>
      ns = [] ∧ Facing max text all stack ws s := by
  unfold annotations gather
  refine (loop_words (W := fun nodes vs => nodes = #[] ∧ vs = ws)
    (B := fun nodes s => nodes = #[] ∧ Facing max text all stack ws s) ?_ ⟨rfl, rfl⟩).bind
    fun nodes => .pure fun _ h => ⟨by rw [h.1], h.2⟩
  rintro _ _ ⟨rfl, rfl⟩
  refine (nextIs_clear hws rfl (by simp) (by simp)).bind fun b => .given ?_
  rintro rfl
  exact .pure fun _ h => ⟨rfl, h⟩

/-! The tokens that constructs start with are no brackets. -/

/-- What declarations start with can be looked for. -/
theorem plain_of_mem : ∀ k ∈ Grammar.declarationKinds,
    k.isError = false ∧ k ≠ .jsonSpan ∧ k ≠ .eof ∧ k ≠ .punct .rBrace := by
  decide

theorem typeKinds_subset : ∀ k ∈ Grammar.typeKinds, k ∈ Grammar.declarationKinds := by
  decide

theorem baseTypeKinds_subset : ∀ k ∈ Grammar.baseTypeKinds, k ∈ Grammar.declarationKinds := by
  decide

theorem turn_of_mem {k : Kind} (hk : k ∈ Grammar.declarationKinds) (stack : List Bracket) :
    k.turn stack = some stack := by
  have hnone (p : Punct) : Kind.punct p ∉ Grammar.declarationKinds := by cases p <;> decide
  cases k with
  | punct p => exact absurd hk (hnone p)
  | _ => rfl

/-- Where a construct starts with one of its first tokens the set of them says so. -/
theorem contains_first {V : TokenSet} {ks : List Kind} {k : Kind} (hV : V = .ofList ks)
    (hks : ∀ k ∈ ks, k.isError = false) (hk : k ∈ ks) : V.contains k := by
  rw [hV]
  exact (TokenSet.contains_ofList (hks k hk)).2 hk

theorem decimalType_words (hsync : sync.contains .jsonSpan = false)
    (h : Writes n (.symbol "decimal_type") us) : ∃ w vs, us = w :: vs
      ∧ w.kind = .keyword .decimal
      ∧ ∀ ws, Runs (Seeing max text all stack stack w (vs ++ ws)) (decimalType sync) fun _ =>
        Facing max text all stack ws := by
  obtain ⟨w, _, rfl, hw, h⟩ := (h.rule rfl (by decide)).head (.token _)
  obtain ⟨l, _, rfl, hl, h⟩ := h.head (.token (.punct .lParen))
  obtain ⟨p, _, rfl, hp, h⟩ := h.head (.field Writes.number_one)
  obtain ⟨scale, _, rfl, hscale, h⟩ := h.cons
  obtain ⟨r, rfl, hr⟩ := h.last (.token (.punct .rParen))
  refine ⟨w, _, rfl, hw, fun ws => ?_⟩
  have hinner := union_jsonSpan hsync (t := .single (.punct .rParen)) rfl
  simp only [List.cons_append, List.append_assoc, List.nil_append]
  unfold decimalType
  refine leaf_word.bind fun word => (expect_word hl rfl hinner).bind fun opening =>
    (expect_word hp rfl hinner).bind fun precision => ?_
  rcases hscale.optional with rfl | hscale
  · refine (nextIs_clear (.of_kind hr (by decide)) rfl (by simp) (by simp)).bind fun b => .given ?_
    rintro rfl
    simp only [Bool.false_eq_true, ↓reduceIte, pure_bind]
    exact (expect_word hr rfl hsync).bind fun closing => branch_runs
  · obtain ⟨c, _, rfl, hc, hscale⟩ := hscale.head (.token (.punct .comma))
    obtain ⟨s, rfl, hs⟩ := hscale.last (.field Writes.number_one)
    refine (nextIs_word hc rfl).bind fun b => .given ?_
    rintro rfl
    exact bump_word.bind fun comma => (expect_word hs rfl hinner).bind fun scale =>
      (expect_word hr rfl hsync).bind fun closing => branch_runs

/-- Constructs in a list that start as types do, in whatever form of list they are read. -/
theorem typeList_words {form : ListForm} {element : TokenSet → Parser (List Node)} {p : Punct}
    {b : Bracket} {name : String} (hform : form = ⟨p, .ofList Grammar.typeKinds, false⟩)
    (hsound : (⟨p, .ofList Grammar.typeKinds, false⟩ : ListForm).Sound)
    (hturn : (Kind.punct p).turn (b :: stack) = some stack)
    (hname : (name, Grammar.typeKinds) ∈ Grammar.constructs)
    (hsync : sync.contains .jsonSpan = false)
    (hitem : ∀ sync : TokenSet, sync.contains .jsonSpan = false → ∀ us v ws,
      Writes n (.symbol name) us → (v.kind = .punct .comma ∨ v.kind = .punct p) →
      Runs (Facing max text all (b :: stack) (us ++ v :: ws)) (element sync) fun _ =>
        Facing max text all (b :: stack) (v :: ws))
    (h : Writes n (commas (.symbol name)) us) (hv : v.kind = .punct p) :
    Runs (Facing max text all (b :: stack) (us ++ v :: ws)) (list sync form element) fun _ =>
      Facing max text all stack ws := by
  have hclose : form.close = p := by rw [hform]
  rw [List.append_cons]
  rw [← hclose] at hv
  refine list_words (hform ▸ hsound) (by rw [hclose, hturn]) hsync ?_ (h.listCommas hv)
  intro sync hsync us v ws hus hv
  rw [hclose] at hv
  obtain ⟨w, vs, rfl, hk⟩ := hus.start Grammar.typeKinds hname (by decide)
  refine ⟨w, vs, rfl, ?_, turn_of_mem (typeKinds_subset _ hk) _,
    (hitem _ hsync _ v ws hus hv).seeing⟩
  exact contains_first (by rw [hform]) (by decide) hk

/-- The reader reads types that hold no more than `n` types one inside the other. -/
def TypeWords (max n : Nat) (text : List Char) (all : List Kind) (type : TypeReader) : Prop :=
  ∀ (stack : List Bracket) (us ws : List Word) (sync : TokenSet) (field : Option String),
    sync.contains .jsonSpan = false → Writes n (.symbol "_type") us →
    Clear (.single (.punct .question)) ws →
    Runs (Facing max text all stack (us ++ ws)) (type sync field) fun _ =>
      Facing max text all stack ws

section Types

variable {type : TypeReader}

theorem container_words (htype : TypeWords max n text all type) {kind : NodeKind}
    {field label : String}
    {word : Keyword} (hsync : sync.contains .jsonSpan = false)
    (h : Writes n (.seq [.token (.keyword word), mark .lAngle, .field label (.symbol "_type"),
      mark .rAngle]) us) : ∃ w vs, us = w :: vs ∧ w.kind = .keyword word
      ∧ ∀ ws, Runs (Seeing max text all stack stack w (vs ++ ws))
        (container type kind field word sync) fun _ => Facing max text all stack ws := by
  obtain ⟨w, _, rfl, hw, h⟩ := h.head (.token _)
  obtain ⟨l, _, rfl, hl, h⟩ := h.head (.token (.punct .lAngle))
  obtain ⟨item, _, rfl, hitem, h⟩ := h.cons
  obtain ⟨r, rfl, hr⟩ := h.last (.token (.punct .rAngle))
  refine ⟨w, _, rfl, hw, fun ws => ?_⟩
  have hinner := union_jsonSpan hsync (t := .single (.punct .rAngle)) rfl
  simp only [List.cons_append, List.append_assoc, List.nil_append]
  unfold container
  exact leaf_word.bind fun word => (expect_word hl rfl hinner).bind fun opening =>
    (htype _ _ _ _ _ hinner hitem.field (.of_kind hr (by decide))).bind fun item =>
      (expect_word hr rfl hsync).bind fun closing => branch_runs

theorem unionType_words (htype : TypeWords max n text all type)
    (hsync : sync.contains .jsonSpan = false) (h : Writes n (.symbol "union_type") us) :
    ∃ w vs, us = w :: vs ∧ w.kind = .keyword .union
      ∧ ∀ ws, Runs (Seeing max text all stack stack w (vs ++ ws)) (unionType type sync) fun _ =>
        Facing max text all stack ws := by
  obtain ⟨w, _, rfl, hw, h⟩ := (h.rule rfl (by decide)).head (.token _)
  obtain ⟨l, _, rfl, hl, h⟩ := h.head (.token (.punct .lBrace))
  obtain ⟨members, _, rfl, hmembers, h⟩ := h.cons
  obtain ⟨r, rfl, hr⟩ := h.last (.token (.punct .rBrace))
  refine ⟨w, _, rfl, hw, fun ws => ?_⟩
  simp only [List.cons_append, List.append_assoc, List.nil_append]
  unfold unionType
  refine leaf_word.bind fun word => (expectAs?_word hl rfl hsync).bind ?_
  rintro ⟨opened, opening⟩
  refine .given fun hopened => ?_
  obtain rfl : opened = true := hopened
  refine Runs.bind (typeList_words (by rw [First.type_eq])
    ⟨by decide, by decide, by decide, by decide⟩ rfl (by decide) hsync ?_ hmembers hr)
    fun members => branch_runs
  exact fun sync hsync us v ws hus hv => htype _ _ _ _ _ hsync hus
    (hv.elim (.of_kind · (by decide)) (.of_kind · (by decide)))

/-- A word that types without annotations start with tells what is read. -/
theorem baseType_seen {g : Token → Parser Node} {w : Word} {A : Session → Prop}
    (hw : w.kind ∈ Grammar.baseTypeKinds)
    (h : ∀ t : Token, t.kind = w.kind →
      Runs (Seeing max text all stack stack w us) (g t) fun _ => A) :
    Runs (Seeing max text all stack stack w us) (peek First.baseType >>= g) fun _ => A := by
  have hspan : First.baseType.contains .jsonSpan = decide (w.kind = .jsonSpan) := by
    rw [First.baseType_eq, decide_eq_false]
    · decide
    · intro hk
      rw [hk] at hw
      exact absurd hw (by decide)
  exact ((peek_word (contains_first First.baseType_eq (by decide) hw) hspan
    (turn_of_mem (baseTypeKinds_subset _ hw) stack)).seeing).bind fun t => .given fun ht => h t ht

theorem baseType_words (htype : TypeWords max n text all type)
    (hsync : sync.contains .jsonSpan = false) (h : Writes (n + 1) (.symbol "_base_type") us) :
    ∃ w vs, us = w :: vs ∧ w.kind ∈ Grammar.baseTypeKinds
      ∧ ∀ ws, Runs (Seeing max text all stack stack w (vs ++ ws)) (baseType type sync) fun _ =>
        Facing max text all stack ws := by
  -- a form that one keyword starts
  have keyword {k : Keyword} (hk : Kind.keyword k ∈ Grammar.baseTypeKinds) {f : Parser Node}
      (hf : ∃ w vs, us = w :: vs ∧ w.kind = .keyword k
        ∧ ∀ ws, Runs (Seeing max text all stack stack w (vs ++ ws)) f fun _ =>
          Facing max text all stack ws) {g : Token → Parser Node}
      (hg : ∀ t : Token, t.kind = .keyword k → g t = f) :
      ∃ w vs, us = w :: vs ∧ w.kind ∈ Grammar.baseTypeKinds
        ∧ ∀ ws, Runs (Seeing max text all stack stack w (vs ++ ws)) (peek First.baseType >>= g)
          fun _ => Facing max text all stack ws := by
    obtain ⟨w, vs, rfl, hw, hrun⟩ := hf
    refine ⟨w, vs, rfl, hw ▸ hk, fun ws => baseType_seen (hw ▸ hk) fun t ht => ?_⟩
    rw [hg t (ht.trans hw)]
    exact hrun ws
  obtain ⟨m, hm, h⟩ := h.level rfl
  obtain rfl : n = m := Nat.succ.inj hm
  obtain ⟨r, hr, h⟩ := h.choice
  unfold baseType
  simp only [List.mem_cons, List.not_mem_nil, or_false] at hr
  rcases hr with rfl | rfl | rfl | rfl | rfl | rfl | rfl
  · obtain ⟨r, hr, h⟩ := (h.rule rfl (by decide)).choice
    obtain ⟨k, hk, rfl⟩ := List.mem_map.1 hr
    obtain ⟨w, rfl, hw⟩ := h.token
    refine keyword (by fin_cases hk <;> decide) (f := leaf .primitiveType)
      ⟨w, [], rfl, hw, fun ws => leaf_word⟩ fun t ht => ?_
    rw [ht]
    fin_cases hk <;> rfl
  · obtain ⟨r, hr, h⟩ := (h.rule rfl (by decide)).choice
    obtain ⟨k, hk, rfl⟩ := List.mem_map.1 hr
    obtain ⟨w, rfl, hw⟩ := h.token
    refine keyword (by fin_cases hk <;> decide) (f := leaf .logicalType)
      ⟨w, [], rfl, hw, fun ws => leaf_word⟩ fun t ht => ?_
    rw [ht]
    fin_cases hk <;> rfl
  · exact keyword (by decide) (decimalType_words hsync h) fun t ht => by rw [ht]
  · exact keyword (by decide) (container_words htype hsync (h.rule rfl (by decide)))
      fun t ht => by rw [ht]
  · exact keyword (by decide) (container_words htype hsync (h.rule rfl (by decide)))
      fun t ht => by rw [ht]
  · exact keyword (by decide) (unionType_words htype hsync h) fun t ht => by rw [ht]
  · obtain ⟨w, rfl, hw⟩ := (h.rule rfl (by decide)).token
    have hmem : w.kind ∈ Grammar.baseTypeKinds := by
      rw [hw]
      decide
    refine ⟨w, [], rfl, hmem, fun ws => baseType_seen hmem fun t ht => ?_⟩
    rw [ht, hw]
    exact leaf_word

/-- The question mark behind a type is taken as a part of it. -/
theorem nullableType_words (htype : TypeWords max n text all type)
    (hsync : sync.contains .jsonSpan = false)
    (h : Writes (n + 1) (.symbol "_unannotated_type") us) :
    ∃ w vs, us = w :: vs ∧ w.kind ∈ Grammar.baseTypeKinds
      ∧ ∀ ws, Clear (.single (.punct .question)) ws →
        Runs (Seeing max text all stack stack w (vs ++ ws)) (nullableType type sync) fun _ =>
          Facing max text all stack ws := by
  obtain ⟨r, hr, h⟩ := (h.rule rfl (by decide)).choice
  rcases List.mem_pair.1 hr with rfl | rfl
  · obtain ⟨base, _, rfl, hbase, h⟩ := (h.rule rfl (by decide)).cons
    obtain ⟨q, rfl, hq⟩ := h.last (.token (.punct .question))
    obtain ⟨w, vs, rfl, hw, hrun⟩ := baseType_words htype hsync hbase
    refine ⟨w, vs ++ [q], rfl, hw, fun ws _ => ?_⟩
    rw [List.append_assoc]
    refine (hrun _).bind fun base => (nextIs_word hq rfl).bind fun b => .given ?_
    rintro rfl
    exact bump_word.bind fun question => branch_runs
  · obtain ⟨w, vs, hus, hw, hrun⟩ := baseType_words htype hsync h
    refine ⟨w, vs, hus, hw, fun ws hws => (hrun ws).bind fun base => ?_⟩
    refine (nextIs_clear hws rfl (by simp) (by simp)).bind fun b => .given ?_
    rintro rfl
    exact .pure fun _ h => h

/-- What starts a construct is not skipped over. -/
theorem recoverTo_start {first : TokenSet} {ks : List Kind} {w : Word} (hfirst : first = .ofList ks)
    (hks : ∀ k ∈ ks, k ∈ Grammar.declarationKinds) (hw : w.kind ∈ ks)
    (hsync : sync.contains .jsonSpan = false) :
    Runs (Facing max text all stack (w :: us)) (recoverTo sync first) fun r s =>
      r = (true, []) ∧ Seeing max text all stack stack w us s := by
  have hspan : first.contains .jsonSpan = decide (w.kind = .jsonSpan) := by
    rw [decide_eq_false (plain_of_mem _ (hks _ hw)).2.1, hfirst, ← Bool.not_eq_true,
      TokenSet.contains_ofList rfl]
    exact fun h => (plain_of_mem _ (hks _ h)).2.1 rfl
  exact recoverTo_word (contains_first hfirst (fun k hk => (plain_of_mem k (hks k hk)).1) hw) hspan
    hsync (turn_of_mem (hks _ hw) stack)

theorem annotatedType_words {unannotated : TokenSet → Parser Node}
    (hrest : ∀ (stack : List Bracket) (us : List Word) (sync : TokenSet),
      sync.contains .jsonSpan = false → Writes n (.symbol "_unannotated_type") us →
      ∃ w vs, us = w :: vs ∧ w.kind ∈ Grammar.baseTypeKinds
        ∧ ∀ ws, Clear (.single (.punct .question)) ws →
          Runs (Seeing max text all stack stack w (vs ++ ws)) (unannotated sync) fun _ =>
            Facing max text all stack ws) :
    TypeWords max n text all (annotatedType unannotated) := by
  intro stack us ws sync field hsync h hws
  obtain ⟨first, more, hus, hfirst⟩ := h.start Grammar.typeKinds (by decide) (by decide)
  obtain ⟨notes, _, rfl, hnotes, h⟩ := h.annotatedType
  obtain ⟨w, vs, rfl, hw, hrun⟩ := hrest stack _ sync hsync h
  have hclear : Clear (.single .atName) (w :: (vs ++ ws)) := .of_mem hw (by decide)
  rw [List.append_assoc, List.cons_append]
  have hstart : notes ++ w :: (vs ++ ws) = first :: (more ++ ws) := by
    simpa using congrArg (· ++ ws) hus
  rw [hstart]
  unfold annotatedType
  refine (recoverTo_start First.type_eq typeKinds_subset hfirst hsync).bind fun r => .given ?_
  rintro rfl
  refine Runs.seeing ?_
  rw [← hstart]
  refine (annotations_words hsync hnotes hclear).bind fun notes =>
    (recoverTo_start First.baseType_eq baseTypeKinds_subset hw hsync).bind fun r =>
      .given ?_
  rintro rfl
  exact flush_seeing.bind fun extras => (hrun ws hws).bind fun type => .pure fun _ h => h

/-- The reader for a number of levels reads types no deeper than these. -/
theorem typeAt_words : ∀ {levels n : Nat}, n ≤ levels → TypeWords max n text all (typeAt levels)
  | 0, n, hn => by
    refine annotatedType_words fun stack us sync hsync h => ?_
    have hbase {us : List Word} (h : Writes n (.symbol "_base_type") us) : False := by
      obtain ⟨m, rfl, -⟩ := h.level rfl
      omega
    obtain ⟨r, hr, h⟩ := (h.rule rfl (by decide)).choice
    rcases List.mem_pair.1 hr with rfl | rfl
    · obtain ⟨_, _, rfl, h, -⟩ := (h.rule rfl (by decide)).cons
      exact (hbase h).elim
    · exact (hbase h).elim
  | levels + 1, n, hn => by
    refine annotatedType_words fun stack us sync hsync h => ?_
    exact nullableType_words (typeAt_words le_rfl) hsync (h.mono hn)

end Types

theorem type_words : TypeWords max max text all type := by
  intro stack us ws sync field hsync h hws
  refine get_runs.bind ?_
  rintro s _ ⟨rfl, hs⟩
  exact typeAt_words hs.here.cap_le stack us ws sync field hsync h hws s hs

/-! ## Fields and messages -/

theorem defaultValue_words (hsync : sync.contains .jsonSpan = false)
    (h : Writes n (.optional (.seq [mark .equals, .field "default" (.symbol "json_value")])) us)
    (hws : Clear (.single (.punct .equals)) ws) :
    Runs (Facing max text all stack (us ++ ws)) (defaultValue sync) fun _ =>
      Facing max text all stack ws := by
  rcases h.optional with rfl | h
  · refine (nextIs_clear hws rfl (by simp) (by simp)).bind fun b => .given ?_
    rintro rfl
    exact .pure fun _ h => h
  · obtain ⟨e, _, rfl, he, h⟩ := h.head (.token (.punct .equals))
    obtain ⟨v, rfl, hv⟩ := h.last (.field Writes.jsonValue_one)
    refine (nextIs_word he rfl).bind fun b => .given ?_
    rintro rfl
    exact bump_word.bind fun equals => (expect_word hv rfl hsync).bind fun value =>
      .pure fun _ h => h

theorem namedVariable_words (hsync : sync.contains .jsonSpan = false)
    (h : Writes n (.symbol "_variable") us) (hws : Clear (.single (.punct .equals)) ws) :
    Runs (Facing max text all stack (us ++ ws)) (namedVariable sync) fun _ =>
      Facing max text all stack ws := by
  obtain ⟨notes, _, rfl, hnotes, h⟩ := (h.rule rfl (by decide)).cons
  obtain ⟨name, _, rfl, hname, h⟩ := h.head (.field Writes.identifier_one)
  rw [List.append_assoc, List.cons_append]
  exact (annotations_words hsync hnotes (.of_kind hname (by decide))).bind fun notes =>
    (expect_word hname rfl hsync).bind fun name =>
      (defaultValue_words hsync h.only hws).bind fun value => .pure fun _ h => h

theorem variable_start (h : Writes n (.symbol "_variable") us) :
    ∃ w vs, us = w :: vs ∧ w.kind ∈ [Kind.atName, .identifier] := by
  obtain ⟨notes, _, rfl, hnotes, h⟩ := (h.rule rfl (by decide)).cons
  obtain ⟨name, vs, rfl, hname, -⟩ := h.head (.field Writes.identifier_one)
  rcases hnotes.many with rfl | ⟨note, more, rfl, hnote, -⟩
  · exact ⟨name, vs, rfl, by simp [hname]⟩
  · obtain ⟨a, as, rfl, ha⟩ := hnote.start [.atName] (by decide) (by decide)
    exact ⟨a, _, rfl, by simp_all⟩

theorem fieldDeclaration_words (hsync : sync.contains .jsonSpan = false)
    (h : Writes max (.symbol "field_declaration") us) :
    Runs (Facing max text all stack (us ++ ws)) (fieldDeclaration sync) fun _ =>
      Facing max text all stack ws := by
  obtain ⟨type, _, rfl, htype, h⟩ := (h.rule rfl (by decide)).cons
  obtain ⟨first, _, rfl, hfirst, h⟩ := h.cons
  obtain ⟨more, _, rfl, hmore, h⟩ := h.cons
  obtain ⟨e, rfl, he⟩ := h.last (.token (.punct .semicolon))
  have hinner := union_jsonSpan hsync (t := .ofList [.punct .comma, .punct .semicolon]) (by decide)
  simp only [List.append_assoc, List.cons_append, List.nil_append]
  have hname : Clear (.single (.punct .question)) (first ++ (more ++ e :: ws)) := by
    obtain ⟨w, vs, rfl, hw⟩ := variable_start hfirst
    exact .of_mem hw (by decide)
  -- behind a variable there is another one or the end of the field
  have hbehind {more : List Word}
      (h : Writes max (.many (.seq [mark .comma, .symbol "_variable"])) more) :
      Clear (.single (.punct .equals)) (more ++ e :: ws) := by
    rcases h.many with rfl | ⟨item, more, rfl, hitem, -⟩
    · exact .of_kind he (by decide)
    · obtain ⟨c, _, rfl, hc, -⟩ := hitem.head (.token (.punct .comma))
      exact .of_kind hc (by decide)
  unfold fieldDeclaration
  refine (type_words _ _ _ _ _ hsync htype.field hname).bind fun type =>
    (namedVariable_words hinner hfirst (hbehind hmore)).bind fun first => Runs.bind ?_ fun more =>
      (expect_word he rfl hsync).bind fun closing => branch_runs
  refine gather_words (W := fun vs => ∃ more, vs = more ++ e :: ws
    ∧ Writes max (.many (.seq [mark .comma, .symbol "_variable"])) more) ?_ ⟨more, rfl, hmore⟩
  rintro nodes _ ⟨more, rfl, h⟩
  rcases h.many with rfl | ⟨item, more, rfl, hitem, hmore⟩
  · refine (nextIs_clear (.of_kind he (by decide)) rfl (by simp) (by simp)).bind fun b => .given ?_
    rintro rfl
    exact .pure fun _ h => h
  · obtain ⟨c, item, rfl, hc, hitem⟩ := hitem.head (.token (.punct .comma))
    rw [List.append_assoc]
    refine (nextIs_word hc rfl).bind fun b => .given ?_
    rintro rfl
    refine bump_word.bind fun comma =>
      (namedVariable_words hinner hitem.only (hbehind hmore)).bind fun name => .pure fun _ hs => ?_
    refine ⟨_, ⟨more, rfl, hmore⟩, hs, ?_⟩
    simp only [List.cons_append, List.length_cons, List.length_append]
    omega

theorem parameter_words (hsync : sync.contains .jsonSpan = false)
    (h : Writes max (.symbol "parameter") us) (hws : Clear (.single (.punct .equals)) ws) :
    Runs (Facing max text all stack (us ++ ws)) (parameter sync) fun _ =>
      Facing max text all stack ws := by
  obtain ⟨type, _, rfl, htype, h⟩ := (h.rule rfl (by decide)).cons
  obtain ⟨name, value, rfl, hname, h⟩ := h.head (.field Writes.identifier_one)
  rw [List.append_assoc, List.cons_append]
  unfold parameter
  exact (type_words _ _ _ _ _ hsync htype.field (.of_kind hname (by decide))).bind fun type =>
    (expect_word hname rfl hsync).bind fun name =>
      (defaultValue_words hsync h.only hws).bind fun value => branch_runs

theorem parameterList_words (hsync : sync.contains .jsonSpan = false)
    (h : Writes max (.symbol "parameter_list") us) :
    Runs (Facing max text all stack (us ++ ws)) (parameterList sync) fun _ =>
      Facing max text all stack ws := by
  obtain ⟨l, _, rfl, hl, h⟩ := (h.rule rfl (by decide)).head (.token (.punct .lParen))
  obtain ⟨parameters, _, rfl, hparameters, h⟩ := h.cons
  obtain ⟨r, rfl, hr⟩ := h.last (.token (.punct .rParen))
  simp only [List.cons_append, List.append_assoc, List.nil_append]
  unfold parameterList
  refine (expectAs?_word hl rfl hsync).bind ?_
  rintro ⟨opened, opening⟩
  refine .given fun hopened => ?_
  obtain rfl : opened = true := hopened
  refine Runs.bind (typeList_words (by rw [First.parameter_eq])
    ⟨by decide, by decide, by decide, by decide⟩ rfl (by decide) hsync ?_ hparameters hr)
    fun parameters => branch_runs
  exact fun sync hsync us v ws hus hv => (parameter_words hsync hus
    (hv.elim (.of_kind · (by decide)) (.of_kind · (by decide)))).bind fun _ => .pure fun _ h => h

theorem throwsClause_words (hsync : sync.contains .jsonSpan = false)
    (h : Writes n (.symbol "throws_clause") us) (hws : Clear (.single (.punct .comma)) ws) :
    ∃ w vs, us = w :: vs ∧ w.kind = .keyword .throws
      ∧ Runs (Seeing max text all stack stack w (vs ++ ws)) (throwsClause sync) fun _ =>
        Facing max text all stack ws := by
  obtain ⟨w, _, rfl, hw, h⟩ := (h.rule rfl (by decide)).head (.token _)
  obtain ⟨name, more, rfl, hname, h⟩ := h.only.head (.rule rfl (by decide))
  refine ⟨w, _, rfl, hw, ?_⟩
  have hinner := union_jsonSpan hsync (t := .single (.punct .comma)) rfl
  rw [List.cons_append]
  unfold throwsClause
  refine bump_word.bind fun word => Runs.bind ?_ fun names => branch_runs
  refine gather_words (W := fun vs => ∃ name more, vs = name :: (more ++ ws)
    ∧ name.kind = .identifier
      ∧ Writes n (.many (.seq [mark .comma, .symbol "type_reference"])) more)
    ?_ ⟨name, more, rfl, hname, h.only⟩
  rintro nodes _ ⟨name, more, rfl, hname, h⟩
  refine (expectAs?_word hname rfl hinner).bind ?_
  rintro ⟨found, node⟩
  refine .given fun _ => ?_
  rcases h.many with rfl | ⟨item, more, rfl, hitem, hmore⟩
  · refine (nextIs_clear hws rfl (by simp) (by simp)).bind fun b => .given ?_
    rintro rfl
    exact .pure fun _ h => h
  · obtain ⟨c, item, rfl, hc, hitem⟩ := hitem.head (.token (.punct .comma))
    obtain ⟨name, rfl, hname⟩ := hitem.last (.rule rfl (by decide))
    refine (nextIs_word hc rfl).bind fun b => .given ?_
    rintro rfl
    refine bump_word.bind fun comma => .pure fun _ hs => ?_
    exact ⟨_, ⟨name, more, rfl, hname, hmore⟩, hs, by simp⟩

/-- What may stand between the parameters of a message and its end. -/
theorem clause_start
    (h : Writes n (.optional (.choice [.symbol "throws_clause", .symbol "oneway"])) us) :
    us = [] ∨ Writes n (.symbol "throws_clause") us
      ∨ ∃ w, us = [w] ∧ w.kind = .keyword .oneway := by
  rcases h.optional with rfl | h
  · exact .inl rfl
  · obtain ⟨r, hr, h⟩ := h.choice
    rcases List.mem_pair.1 hr with rfl | rfl
    · exact .inr (.inl h)
    · exact .inr (.inr (h.rule rfl (by decide)).token)

theorem returnType_words {α : Type} {g : List Node → Parser α} {B : α → Session → Prop}
    (hsync : sync.contains .jsonSpan = false) (h : Writes max (.symbol "_return_type") us)
    (hv : v.kind = .identifier)
    (hg : ∀ result, Runs (Facing max text all stack (v :: ws)) (g result) B) :
    Runs (Facing max text all stack (us ++ v :: ws)) (do
      let result ←
        if ← nextIs (.keyword .void) then bump .voidType (some "return")
        else type sync (some "return")
      g result) B := by
  obtain ⟨r, hr, h⟩ := (h.rule rfl (by decide)).choice
  rcases List.mem_pair.1 hr with rfl | rfl
  · obtain ⟨w, rfl, hw⟩ := (h.rule rfl (by decide)).token
    refine (nextIs_word hw rfl).bind fun b => .given ?_
    rintro rfl
    exact bump_word.bind hg
  · obtain ⟨w, vs, rfl, hw⟩ := h.start Grammar.typeKinds (by decide) (by decide)
    refine (nextIs_clear (.of_mem hw (by decide)) rfl (by simp) (by simp)).bind fun b => .given ?_
    rintro rfl
    exact (type_words _ _ _ _ _ hsync h (.of_kind hv (by decide))).bind hg

/-- What a message consists of behind its annotations. -/
theorem message_words (hsync : sync.contains .jsonSpan = false)
    (h : Writes max (.seq [.field "return" (.symbol "_return_type"),
      .field "name" (.symbol "identifier"), .field "parameters" (.symbol "parameter_list"),
      .optional (.choice [.symbol "throws_clause", .symbol "oneway"]), mark .semicolon]) us) :
    Runs (Facing max text all stack (us ++ ws)) (message sync) fun _ =>
      Facing max text all stack ws := by
  obtain ⟨result, _, rfl, hresult, h⟩ := h.cons
  obtain ⟨name, _, rfl, hname, h⟩ := h.head (.field Writes.identifier_one)
  obtain ⟨parameters, _, rfl, hparameters, h⟩ := h.cons
  obtain ⟨clause, _, rfl, hclause, h⟩ := h.cons
  obtain ⟨e, rfl, he⟩ := h.last (.token (.punct .semicolon))
  simp only [List.append_assoc, List.cons_append, List.nil_append]
  refine returnType_words hsync hresult.field hname fun result =>
    (expect_word hname rfl hsync).bind fun name =>
      (parameterList_words hsync hparameters.field).bind fun parameters => ?_
  have hspan : (TokenSet.ofList [.keyword .throws, .keyword .oneway, .punct .semicolon]).contains
      .jsonSpan = false := by decide
  rcases clause_start hclause with rfl | hthrows | ⟨w, rfl, hw⟩
  · refine (peek_word (by rw [he]; decide) (by rw [he]; decide) (by rw [he]; rfl)).bind fun t =>
      .given fun ht => ?_
    rw [ht, he]
    exact (Runs.pure fun _ h => h.facing).bind fun clause =>
      (expect_word he rfl hsync).bind fun closing => .pure fun _ h => h
  · obtain ⟨w, vs, rfl, hw, hrun⟩ := throwsClause_words hsync hthrows (.of_kind he (by decide))
    refine (peek_word (by rw [hw]; decide) (by rw [hw]; decide) (by rw [hw]; rfl)).bind fun t =>
      .given fun ht => ?_
    rw [ht, hw]
    refine flush_seeing.bind fun extras => hrun.bind fun clause => ?_
    rw [pure_bind]
    exact (expect_word he rfl hsync).bind fun closing => .pure fun _ h => h
  · refine (peek_word (by rw [hw]; decide) (by rw [hw]; decide) (by rw [hw]; rfl)).bind fun t =>
      .given fun ht => ?_
    rw [ht, hw]
    exact bump_word.bind fun clause =>
      (expect_word he rfl hsync).bind fun closing => .pure fun _ h => h

end Idl

end Parse

end AvroTree
