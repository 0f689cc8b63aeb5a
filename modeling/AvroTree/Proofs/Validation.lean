import AvroTree.Grammar.Validate
import AvroTree.Proofs.FirstTokens

/-!
# Sound grammars have no problems

What it means that a grammar is sound is said here without the rounds and searches that look for
problems (`Sound`), and a grammar is found to have none exactly if it is sound
(`problems_eq_nil_iff`). Each check is exact by itself: the names that are reached are those that a
chain of references leads to (`mem_reachable`), and the rules that come to an end are those that
derive something (`mem_productive`).
-/

namespace AvroTree

open Token (Kind)

namespace TokenSet

variable {s t : TokenSet}

@[simp]
theorem contains_inter (s t : TokenSet) (k : Kind) :
    (s ∩ t).contains k = (s.contains k && t.contains k) :=
  BitVec.getLsbD_and

theorem isEmpty_iff : s.isEmpty ↔ ∀ k, s.contains k = false := by
  rw [isEmpty, beq_iff_eq]
  refine ⟨fun h k => ?_, fun h => ?_⟩
  · rw [contains, h]
    exact BitVec.getLsbD_zero
  · have hs : s = .empty := ext_contains fun k _ => by rw [h k, contains_empty]
    rw [hs]
    rfl

end TokenSet

namespace Grammar

variable {g : Grammar} {name : String}

/-! ## Names -/

theorem repeats_eq_nil {seen l : List String} :
    repeats seen l = [] ↔ l.Nodup ∧ ∀ x ∈ l, x ∉ seen := by
  induction l generalizing seen with
  | nil => simp [repeats]
  | cons x l ih =>
    rw [repeats]
    by_cases hx : x ∈ seen
    · simp [hx]
    · rw [if_neg (by simpa using hx), ih, List.nodup_cons, List.forall_mem_cons]
      simp only [List.mem_cons, not_or]
      constructor
      · rintro ⟨hnodup, hall⟩
        exact ⟨⟨fun hmem => (hall x hmem).1 rfl, hnodup⟩, hx, fun y hy => (hall y hy).2⟩
      · rintro ⟨⟨hmem, hnodup⟩, -, hall⟩
        exact ⟨hnodup, fun y hy => ⟨ne_of_mem_of_not_mem hy hmem, hall y hy⟩⟩

theorem mem_insertName {x y : String} {l : List String} :
    x ∈ insertName y l ↔ x = y ∨ x ∈ l := by
  induction l with
  | nil => simp [insertName]
  | cons z l ih =>
    rw [insertName]
    split_ifs with heq hlt
    · rw [heq, List.mem_cons]
      exact ⟨.inr, fun h => h.elim .inl id⟩
    · exact List.mem_cons
    · rw [List.mem_cons, ih, List.mem_cons]
      exact or_left_comm

theorem mem_sortNames {x : String} {l : List String} : x ∈ sortNames l ↔ x ∈ l := by
  have hfold : ∀ sorted : List String,
      x ∈ l.foldl (fun sorted x => insertName x sorted) sorted ↔ x ∈ sorted ∨ x ∈ l := by
    induction l with
    | nil => simp
    | cons y l ih =>
      intro sorted
      rw [List.foldl_cons, ih, mem_insertName, List.mem_cons, or_assoc, or_left_comm]
  simpa [sortNames] using hfold []

theorem filter_undefined_eq_nil {l : List String} :
    l.filter (fun name => !g.defines name) = [] ↔ ∀ name ∈ l, name ∈ g.names := by
  simp [List.filter_eq_nil_iff, defines]

/-! ## Reachable names -/

/-- A definition of `a` mentions `b`. -/
def Refers (g : Grammar) (a b : String) : Prop :=
  ∃ r, (a, r) ∈ g.rules ∧ b ∈ r.symbols

/-- Where no rule is defined twice the last definition of one is the only one. -/
theorem lastRule?_eq_some_iff (h : g.names.Nodup) {r : Rule} :
    g.lastRule? name = some r ↔ (name, r) ∈ g.rules := by
  have hmem {r : Rule} (hr : g.lastRule? name = some r) : (name, r) ∈ g.rules := by
    obtain ⟨front, back, heq, -⟩ := List.lookup_eq_some_iff.1 hr
    rw [← List.mem_reverse, heq]
    simp
  refine ⟨hmem, fun hr => ?_⟩
  cases hl : g.lastRule? name with
  | none =>
    have hnone := List.lookup_eq_none_iff.1 hl (name, r) (List.mem_reverse.2 hr)
    simp at hnone
  | some r' =>
    have heq := List.inj_on_of_nodup_map h (hmem hl) hr rfl
    rw [(Prod.mk.inj heq).2]

theorem mem_references_iff (h : g.names.Nodup) (a b : String) :
    b ∈ ((g.lastRule? a).map Rule.symbols).getD [] ↔ g.Refers a b := by
  constructor
  · intro hb
    cases hl : g.lastRule? a with
    | none =>
      rw [hl] at hb
      cases hb
    | some r =>
      rw [hl] at hb
      exact ⟨r, (lastRule?_eq_some_iff h).1 hl, hb⟩
  · rintro ⟨r, hr, hb⟩
    rw [(lastRule?_eq_some_iff h).2 hr]
    exact hb

theorem mem_reachable (h : g.names.Nodup) :
    name ∈ g.reachable ↔ ∃ root ∈ g.roots, Relation.ReflTransGen g.Refers root name := by
  have hnext (a : String) : ∀ b ∈ ((g.lastRule? a).map Rule.symbols).getD [], b ∈ g.references := by
    intro b hb
    obtain ⟨r, hr, hb⟩ := (mem_references_iff h a b).1 hb
    exact mem_references.2 ⟨_, hr, hb⟩
  have hclosure := mem_closure hnext g.roots name
  simp only [mem_references_iff h] at hclosure
  exact hclosure

/-! ## Rules that come to an end -/

section Productive

variable {done : List String}

mutual

theorem exists_of_derives (h : ∀ name ∈ done, ∃ ks, g.Derives (.symbol name) ks) : ∀ r : Rule,
    derives done r → ∃ ks, g.Derives r ks
  | .token _, _ => ⟨_, .token _⟩
  | .many _, _ => ⟨_, .manyNil⟩
  | .optional _, _ => ⟨_, .absent⟩
  | .symbol name, hr => h name (List.contains_iff_mem.1 hr)
  | .seq members, hr => exists_of_allDerive h members hr
  | .choice members, hr => have ⟨_, hmem, _, hd⟩ := exists_of_anyDerives h members hr
    ⟨_, .choice hmem hd⟩
  | .many1 inner, hr => have ⟨_, hd⟩ := exists_of_derives h inner hr
    ⟨_, many1_of_derives hd⟩
  | .field _ inner, hr => have ⟨_, hd⟩ := exists_of_derives h inner hr
    ⟨_, .field hd⟩
  | .renamed inner _, hr => have ⟨_, hd⟩ := exists_of_derives h inner hr
    ⟨_, .renamed hd⟩

theorem exists_of_allDerive (h : ∀ name ∈ done, ∃ ks, g.Derives (.symbol name) ks) :
    ∀ rs : List Rule, allDerive done rs → ∃ ks, g.Derives (.seq rs) ks
  | [], _ => ⟨_, .seqNil⟩
  | r :: rs, hr => by
    rw [allDerive, Bool.and_eq_true] at hr
    obtain ⟨ks, hd⟩ := exists_of_derives h r hr.1
    obtain ⟨ls, hds⟩ := exists_of_allDerive h rs hr.2
    exact ⟨_, .seqCons hd hds⟩

theorem exists_of_anyDerives (h : ∀ name ∈ done, ∃ ks, g.Derives (.symbol name) ks) :
    ∀ rs : List Rule, anyDerives done rs → ∃ r ∈ rs, ∃ ks, g.Derives r ks
  | [], hr => by cases hr
  | r :: rs, hr => by
    rw [anyDerives, Bool.or_eq_true] at hr
    rcases hr with hr | hr
    · exact ⟨r, List.mem_cons_self, exists_of_derives h r hr⟩
    · obtain ⟨r', hmem, hd⟩ := exists_of_anyDerives h rs hr
      exact ⟨r', List.mem_cons_of_mem r hmem, hd⟩

end

theorem anyDerives_of_mem {r : Rule} : ∀ {rs : List Rule}, r ∈ rs → derives done r →
    anyDerives done rs
  | _ :: rs, hmem, hr => by
    rw [anyDerives, Bool.or_eq_true]
    rcases List.mem_cons.1 hmem with rfl | hmem
    · exact .inl hr
    · exact .inr (anyDerives_of_mem hmem hr)

/-- Where no further rule can be added, all that derive something are there. -/
theorem derives_of_exists (h : ∀ e ∈ g.rules, derives done e.2 → e.1 ∈ done) {r : Rule}
    {ks : List Kind} (hd : g.Derives r ks) : derives done r := by
  induction hd with
  | symbol hr _ ih => exact List.contains_iff_mem.2 (h _ (mem_bodies.1 hr) ih)
  | seqCons _ _ ih ihs =>
    rw [derives, allDerive, Bool.and_eq_true]
    exact ⟨ih, ihs⟩
  | choice hr _ ih => exact anyDerives_of_mem hr ih
  | many1 _ _ ih => exact ih
  | field _ ih => exact ih
  | renamed _ ih => exact ih
  | _ => rfl

end Productive

theorem mem_productive : name ∈ g.productive ↔ ∃ ks, g.Derives (.symbol name) ks := by
  let news (done : List String) := (g.rules.filter fun e => derives done e.2).map (·.1)
  have hnews {done : List String} {x : String} :
      x ∈ news done ↔ ∃ r, (x, r) ∈ g.rules ∧ derives done r := by
    simp [news]
  have hclimbs := addNames_climbs g.names news
    (P := fun done => done.Nodup ∧ ∀ x ∈ done, x ∈ g.names ∧ ∃ ks, g.Derives (.symbol x) ks)
    (fun _ h => h.1) (fun _ h x hx => (h.2 x hx).1) fun done h => by
      refine ⟨addNames_nodup h.1, fun x hx => ?_⟩
      rcases mem_addNames.1 hx with hx | hx
      · exact h.2 x hx
      · obtain ⟨r, hr, hd⟩ := hnews.1 hx
        obtain ⟨ks, hd⟩ := exists_of_derives (fun y hy => (h.2 y hy).2) r hd
        exact ⟨List.mem_map_of_mem hr, ks, .symbol (mem_bodies.2 hr) hd⟩
  have hnone : ∀ x ∈ ([] : List String), x ∈ g.names ∧ ∃ ks, g.Derives (.symbol x) ks :=
    List.forall_mem_nil _
  have hfix := hclimbs.settled (n := g.rules.length + 1) ⟨List.nodup_nil, hnone⟩
    (by rw [names, List.length_map]; exact (Nat.le_succ _).trans (Nat.le_add_left _ _))
  have hend := settle_keeps hclimbs.keeps (g.rules.length + 1) ⟨List.nodup_nil, hnone⟩
  rw [settle_eq_iterate] at hend
  have hproductive : g.productive =
      settle (fun done => addNames done (news done)) (g.rules.length + 1) [] := rfl
  rw [hproductive, settle_eq_iterate]
  refine ⟨fun h => (hend.2 name h).2, ?_⟩
  rintro ⟨ks, hd⟩
  refine List.contains_iff_mem.1 (derives_of_exists (fun e he hd => ?_) hd)
  rw [← hfix]
  exact mem_addNames.2 (.inr (hnews.2 ⟨e.2, he, hd⟩))

/-! ## Node kinds -/

/-- The grammar makes nodes of a name: a visible rule has it, or something is renamed to it. -/
def Makes (g : Grammar) (kind : String) : Prop :=
  (kind ∈ g.names ∧ isVisible kind) ∨ ∃ e ∈ g.rules, ∃ inner, (inner, kind) ∈ e.2.renamings

theorem mem_nodeKinds {kind : String} : kind ∈ g.nodeKinds ↔ g.Makes kind := by
  simp [nodeKinds, mem_sortNames, Makes]

theorem ofName?_isNone_iff {kind : String} :
    (NodeKind.ofName? kind).isNone ↔ ¬∃ k ∈ NodeKind.all, k.name = kind := by
  simp [NodeKind.ofName?]

theorem kindProblems_eq_nil_iff : g.kindProblems = [] ↔
    (∀ kind, g.Makes kind → ∃ k ∈ NodeKind.all, k.name = kind)
      ∧ ∀ k ∈ NodeKind.all, k ≠ .error → g.Makes k.name := by
  simp only [kindProblems, List.append_eq_nil_iff, List.map_eq_nil_iff, List.filter_eq_nil_iff,
    mem_nodeKinds, ofName?_isNone_iff, not_not, Bool.and_eq_true, bne_iff_ne, Bool.not_eq_true',
    List.contains_eq_mem, decide_eq_false_iff_not, not_and]

/-! ## Open choices -/

/-- Two alternatives of a choice in a rule are told apart: they start with different tokens, or they
are of different levels, or the rule is known to need more than one token. -/
def Apart (g : Grammar) (rule : String) (a b : Rule) : Prop :=
  (∃ k, (g.compile.ofRule a).tokens.contains k ∧ (g.compile.ofRule b).tokens.contains k) →
    g.alternativeLevel a ≠ g.alternativeLevel b ∨ ∃ c ∈ g.conflicts, c.rule = rule

theorem resolve_ne_unresolved_iff {rule : String} {a b : Rule} :
    g.resolve rule a b ≠ .unresolved ↔
      g.alternativeLevel a ≠ g.alternativeLevel b ∨ ∃ c ∈ g.conflicts, c.rule = rule := by
  rw [resolve]
  split_ifs with hlevel hconflict
  · exact ⟨fun _ => .inl hlevel, fun _ => nofun⟩
  · exact ⟨fun _ => .inr (by simpa using hconflict), fun _ => nofun⟩
  · refine ⟨fun h => absurd rfl h, fun h => ?_⟩
    exact absurd (h.resolve_left hlevel) (by simpa using hconflict)

theorem overlapsWith_resolved_iff {rule : String} {i : Nat} {a : Rule} {later : List (Rule × Nat)} :
    (∀ o ∈ g.overlapsWith g.compile rule i a later, o.resolution ≠ .unresolved) ↔
      ∀ b ∈ later.map (·.1), g.Apart rule a b := by
  have hempty (b : Rule) : ((g.compile.ofRule a).tokens ∩ (g.compile.ofRule b).tokens).isEmpty ↔
      ¬∃ k, (g.compile.ofRule a).tokens.contains k ∧ (g.compile.ofRule b).tokens.contains k := by
    simp [TokenSet.isEmpty_iff]
  rw [List.forall_mem_map]
  refine ⟨fun h e he hmeet => ?_, fun h o ho => ?_⟩
  · refine resolve_ne_unresolved_iff.1 (h ⟨rule, alternativeLabel a i, alternativeLabel e.1 e.2,
      (g.compile.ofRule a).tokens ∩ (g.compile.ofRule e.1).tokens, g.resolve rule a e.1⟩
      (List.mem_filterMap.2 ⟨e, he, ?_⟩))
    simp only []
    rw [if_neg (fun hne => (hempty e.1).1 hne hmeet)]
  · obtain ⟨e, he, ho⟩ := List.mem_filterMap.1 ho
    simp only [] at ho
    split at ho
    · cases ho
    · rename_i hmeet
      cases ho
      exact resolve_ne_unresolved_iff.2 (h e he (not_not.1 fun hne => hmeet ((hempty e.1).2 hne)))

theorem overlapsAmong_resolved_iff {rule : String} : ∀ {members : List (Rule × Nat)},
    (∀ o ∈ g.overlapsAmong g.compile rule members, o.resolution ≠ .unresolved) ↔
      (members.map (·.1)).Pairwise (g.Apart rule)
  | [] => by simp [overlapsAmong]
  | (a, i) :: later => by
    rw [overlapsAmong, List.forall_mem_append, overlapsWith_resolved_iff,
      overlapsAmong_resolved_iff, List.map_cons, List.pairwise_cons]

theorem overlapProblems_eq_nil_iff : g.overlapProblems = [] ↔
    ∀ e ∈ g.rules, ∀ members ∈ e.2.choices, members.Pairwise (g.Apart e.1) := by
  have hchoice (rule : String) (members : List Rule) :
      (∀ o ∈ g.overlapsAmong g.compile rule members.zipIdx, o.resolution ≠ .unresolved) ↔
        members.Pairwise (g.Apart rule) := by
    rw [overlapsAmong_resolved_iff, List.zipIdx_map_fst]
  simp only [overlapProblems, List.map_eq_nil_iff, List.filter_eq_nil_iff, beq_iff_eq, overlaps,
    List.forall_mem_flatMap]
  exact forall₂_congr fun e _ => forall₂_congr fun members _ => hchoice e.1 members

/-! ## Sound grammars -/

/-- A grammar in which every name that is used has one rule, every rule can be reached and come to
an end, the nodes are of the known kinds and no choice is left open. -/
structure Sound (g : Grammar) : Prop where
  unique : g.names.Nodup
  starts : ∀ name ∈ g.starts, name ∈ g.names
  extras : ∀ name ∈ g.extras, name ∈ g.names
  word : ∀ name ∈ g.word, name ∈ g.names
  symbols : ∀ e ∈ g.rules, ∀ name ∈ e.2.symbols, name ∈ g.names
  reachable : ∀ name ∈ g.names, ∃ root, (root ∈ g.starts ∨ root ∈ g.extras ∨ root ∈ g.word)
    ∧ Relation.ReflTransGen g.Refers root name
  productive : ∀ name ∈ g.names, ∃ ks, g.Derives (.symbol name) ks
  known : ∀ kind, g.Makes kind → ∃ k ∈ NodeKind.all, k.name = kind
  covered : ∀ k ∈ NodeKind.all, k ≠ .error → g.Makes k.name
  precedences : ∀ p ∈ g.precedences, p.rule ∈ g.names
  conflicts : ∀ c ∈ g.conflicts, c.rule ∈ g.names
  choices : ∀ e ∈ g.rules, ∀ members ∈ e.2.choices, members.Pairwise (g.Apart e.1)

theorem nameProblems_eq_nil_iff : g.nameProblems = [] ↔ g.names.Nodup
    ∧ (∀ name ∈ g.starts, name ∈ g.names)
    ∧ ((∀ name ∈ g.extras, name ∈ g.names) ∧ ∀ name ∈ g.word, name ∈ g.names)
    ∧ ∀ e ∈ g.rules, ∀ name ∈ e.2.symbols, name ∈ g.names := by
  simp only [nameProblems, List.append_eq_nil_iff, List.map_eq_nil_iff, filter_undefined_eq_nil,
    repeats_eq_nil, List.flatMap_eq_nil_iff, List.forall_mem_append, Option.mem_toList]
  simp [and_assoc]

/-- A grammar has no problems exactly if it is sound. -/
theorem problems_eq_nil_iff (g : Grammar) : g.problems = [] ↔ g.Sound := by
  have hroots {root : String} : root ∈ g.roots ↔
      root ∈ g.starts ∨ root ∈ g.extras ∨ root ∈ g.word := by
    rw [roots, List.mem_append, List.mem_append, Option.mem_toList, or_assoc, Option.mem_def]
  have hreach (h : g.names.Nodup) : g.names.filter (fun name => !g.reachable.contains name) = [] ↔
      ∀ name ∈ g.names, ∃ root, (root ∈ g.starts ∨ root ∈ g.extras ∨ root ∈ g.word)
        ∧ Relation.ReflTransGen g.Refers root name := by
    simp only [List.filter_eq_nil_iff, Bool.not_eq_true', Bool.not_eq_false, List.contains_iff_mem,
      mem_reachable h, hroots]
  have hproductive : g.names.filter (fun name => !g.productive.contains name) = [] ↔
      ∀ name ∈ g.names, ∃ ks, g.Derives (.symbol name) ks := by
    simp only [List.filter_eq_nil_iff, Bool.not_eq_true', Bool.not_eq_false, List.contains_iff_mem,
      mem_productive]
  simp only [problems, List.append_eq_nil_iff, List.map_eq_nil_iff, nameProblems_eq_nil_iff,
    hproductive, kindProblems_eq_nil_iff, filter_undefined_eq_nil, List.forall_mem_map,
    overlapProblems_eq_nil_iff]
  constructor
  · rintro ⟨⟨⟨⟨⟨⟨⟨hunique, hstarts, ⟨hextras, hword⟩, hsymbols⟩, hreachable⟩, hends⟩, hknown,
      hcovered⟩, hprecedences⟩, hconflicts⟩, hchoices⟩
    exact ⟨hunique, hstarts, hextras, hword, hsymbols, (hreach hunique).1 hreachable, hends, hknown,
      hcovered, hprecedences, hconflicts, hchoices⟩
  · intro h
    exact ⟨⟨⟨⟨⟨⟨⟨h.unique, h.starts, ⟨h.extras, h.word⟩, h.symbols⟩,
      (hreach h.unique).2 h.reachable⟩, h.productive⟩, h.known, h.covered⟩, h.precedences⟩,
      h.conflicts⟩, h.choices⟩

end Grammar

end AvroTree
