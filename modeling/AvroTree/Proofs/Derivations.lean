import AvroTree.Proofs.FirstSets

/-!
# What rules derive

The token sequences that a rule stands for (`Derives`). A sequence that a rule derives starts with
a token of its first set (`Closed.first`), as soon as another round would not change the table. The
table of Avro is such a table, and the first sets the parsers ask for are written out here.
-/

namespace AvroTree

open Token (Kind)

namespace TokenSet

theorem getElem?_all {k : Kind} (h : k.isError = false) : Kind.all[k.index]? = some k := by
  cases k with
  | keyword w => cases w <;> rfl
  | punct p => cases p <;> rfl
  | error e => cases h
  | _ => rfl

theorem index_inj {j k : Kind} (hk : k.isError = false) (h : j.index = k.index) : j = k := by
  cases hj : j.isError with
  | false =>
    have hsome := getElem?_all hj
    rw [h, getElem?_all hk] at hsome
    exact (Option.some.inj hsome).symm
  | true =>
    cases j with
    | error e =>
      cases k with
      | keyword w => cases w <;> cases h
      | punct p => cases p <;> cases h
      | error e => cases hk
      | _ => cases h
    | _ => cases hj

@[simp]
theorem contains_insert (s : TokenSet) (j k : Kind) :
    (s.insert j).contains k = (s.contains k || decide (k.index = j.index)) := by
  rw [insert, contains_union, contains_single]

theorem contains_foldl_insert (l : List Kind) (s : TokenSet) (k : Kind) :
    (l.foldl insert s).contains k
      = (s.contains k || l.any fun j => decide (k.index = j.index)) := by
  induction l generalizing s with
  | nil => simp
  | cons j l ih => rw [List.foldl_cons, ih, contains_insert, List.any_cons, Bool.or_assoc]

/-- A set that is given by its elements holds a kind, errors apart, if it is one of them. -/
theorem contains_ofList {l : List Kind} {k : Kind} (hk : k.isError = false) :
    (ofList l).contains k ↔ k ∈ l := by
  rw [ofList, contains_foldl_insert, contains_empty, Bool.false_or, List.any_eq_true]
  constructor
  · rintro ⟨j, hj, h⟩
    rwa [← index_inj hk (of_decide_eq_true h).symm]
  · exact fun h => ⟨k, h, decide_eq_true rfl⟩

theorem isError_of_contains {l : List Kind} {k : Kind} (hl : ∀ j ∈ l, j.isError = false)
    (h : (ofList l).contains k) : k.isError = false := by
  rw [ofList, contains_foldl_insert, contains_empty, Bool.false_or, List.any_eq_true] at h
  obtain ⟨j, hj, hi⟩ := h
  rw [index_inj (hl j hj) (of_decide_eq_true hi)]
  exact hl j hj

theorem mem_of_contains {l : List Kind} {k : Kind} (hl : ∀ j ∈ l, j.isError = false)
    (h : (ofList l).contains k) : k ∈ l :=
  (contains_ofList (isError_of_contains hl h)).1 h

theorem eq_of_contains_single {j k : Kind} (hj : j.isError = false)
    (h : (single j).contains k) : k = j := by
  rw [contains_single] at h
  exact index_inj hj (of_decide_eq_true h)

@[simp]
theorem contains_single_self (k : Kind) : (single k).contains k := by
  rw [contains_single]
  exact decide_eq_true rfl

end TokenSet

namespace Grammar

/-- The sequences of token kinds that a rule derives. Fields and renamings do not show in them. -/
inductive Derives (g : Grammar) : Rule → List Kind → Prop
  | token (k : Kind) : Derives g (.token k) [k]
  | symbol {name : String} {r : Rule} {ks : List Kind} (hr : r ∈ g.bodies name)
      (h : Derives g r ks) : Derives g (.symbol name) ks
  | seqNil : Derives g (.seq []) []
  | seqCons {r : Rule} {rs : List Rule} {ks ls : List Kind} (h : Derives g r ks)
      (hs : Derives g (.seq rs) ls) : Derives g (.seq (r :: rs)) (ks ++ ls)
  | choice {r : Rule} {rs : List Rule} {ks : List Kind} (hr : r ∈ rs) (h : Derives g r ks) :
      Derives g (.choice rs) ks
  | manyNil {r : Rule} : Derives g (.many r) []
  | manyCons {r : Rule} {ks ls : List Kind} (h : Derives g r ks) (hs : Derives g (.many r) ls) :
      Derives g (.many r) (ks ++ ls)
  | many1 {r : Rule} {ks ls : List Kind} (h : Derives g r ks) (hs : Derives g (.many r) ls) :
      Derives g (.many1 r) (ks ++ ls)
  | absent {r : Rule} : Derives g (.optional r) []
  | present {r : Rule} {ks : List Kind} (h : Derives g r ks) : Derives g (.optional r) ks
  | field {name : String} {r : Rule} {ks : List Kind} (h : Derives g r ks) :
      Derives g (.field name r) ks
  | renamed {name : String} {r : Rule} {ks : List Kind} (h : Derives g r ks) :
      Derives g (.renamed r name) ks

variable {g : Grammar}

theorem mem_bodies {name : String} {r : Rule} : r ∈ g.bodies name ↔ (name, r) ∈ g.rules := by
  simp [bodies]

/-! ## What a derived sequence starts with -/

/-- Every rule has told the table all it can start with. -/
def Table.Closed (g : Grammar) (t : Table) : Prop :=
  ∀ e ∈ g.rules, (t.get e.1).or (t.ofRule e.2) = t.get e.1

namespace Table

variable {t : Table} {r : Rule} {rs : List Rule} {k : Kind} {ks : List Kind}

theorem ofChoice_of_mem (hr : r ∈ rs) :
    (∀ k, (t.ofRule r).tokens.contains k → (t.ofChoice rs).tokens.contains k)
      ∧ ((t.ofRule r).nullable → (t.ofChoice rs).nullable) := by
  induction rs with
  | nil => simp at hr
  | cons r' rs ih =>
    rcases List.mem_cons.1 hr with rfl | hr
    · simp +contextual [ofChoice, First.or]
    · obtain ⟨htokens, hnull⟩ := ih hr
      simp +contextual [ofChoice, First.or, htokens, hnull]

theorem Closed.get (ht : t.Closed g) {name : String} (hr : r ∈ g.bodies name) :
    (∀ k, (t.ofRule r).tokens.contains k → (t.get name).tokens.contains k)
      ∧ ((t.ofRule r).nullable → (t.get name).nullable) := by
  have h := ht _ (mem_bodies.1 hr)
  rw [← h]
  simp +contextual [First.or]

theorem append_head {α : Type} {xs ys : List α} {x : α} (h : x ∈ (xs ++ ys).head?) :
    x ∈ xs.head? ∨ x ∈ ys.head? := by
  rcases xs with _ | ⟨y, xs⟩
  · exact .inr h
  · exact .inl h

/-- A derived sequence starts with a token of the first set, and is nothing only where the table
says so. -/
theorem Closed.first (ht : t.Closed g) (h : g.Derives r ks) :
    (∀ k ∈ ks.head?, (t.ofRule r).tokens.contains k) ∧ (ks = [] → (t.ofRule r).nullable) := by
  have append {a b : First} {ks ls : List Kind}
      (ha : (∀ k ∈ ks.head?, a.tokens.contains k) ∧ (ks = [] → a.nullable))
      (hb : (∀ k ∈ ls.head?, b.tokens.contains k) ∧ (ls = [] → b.nullable)) :
      (∀ k ∈ (ks ++ ls).head?, (a.andThen b).tokens.contains k)
        ∧ (ks ++ ls = [] → (a.andThen b).nullable) := by
    obtain ⟨ha, han⟩ := ha
    obtain ⟨hb, hbn⟩ := hb
    unfold First.andThen
    rcases ks with _ | ⟨k, ks⟩
    · simp +contextual [han rfl, hbn]
      exact fun k hk => .inr (hb k hk)
    · have hk := ha k rfl
      split <;> simp [hk]
  induction h with
  | token k => simp [ofRule]
  | symbol hr _ ih =>
    obtain ⟨htokens, hnull⟩ := ht.get hr
    exact ⟨fun k hk => htokens k (ih.1 k hk), fun h => hnull (ih.2 h)⟩
  | seqNil => simp [ofRule, ofSeq]
  | seqCons _ _ ih ihs => exact append ih ihs
  | choice hr _ ih =>
    obtain ⟨htokens, hnull⟩ := ofChoice_of_mem (t := t) hr
    exact ⟨fun k hk => htokens k (ih.1 k hk), fun h => hnull (ih.2 h)⟩
  | manyNil => simp [ofRule]
  | manyCons _ _ ih ihs =>
    exact ⟨fun k hk => (append_head hk).elim (ih.1 k) (ihs.1 k), fun _ => rfl⟩
  | many1 _ _ ih ihs =>
    refine ⟨fun k hk => (append_head hk).elim (ih.1 k) (ihs.1 k), fun h => ih.2 ?_⟩
    exact (List.append_eq_nil_iff.1 h).1
  | absent => simp [ofRule]
  | present _ ih => exact ⟨ih.1, fun _ => rfl⟩
  | field _ ih => exact ih
  | renamed _ ih => exact ih

end Table

/-! ## The first sets of Avro -/

/-- What types start with behind their annotations. -/
def baseTypeKinds : List Kind :=
  .identifier ::
    ([Keyword.decimal, .array, .map, .union] ++ Keyword.primitives ++ Keyword.logicals).map
      .keyword

def typeKinds : List Kind :=
  .atName :: baseTypeKinds

def returnTypeKinds : List Kind :=
  .keyword .void :: typeKinds

def memberKinds : List Kind :=
  [Keyword.importFile, .record, .error, .enum, .fixed].map Kind.keyword ++ returnTypeKinds

def declarationKinds : List Kind :=
  [Keyword.protocol, .nameSpace, .schema].map Kind.keyword ++ memberKinds

def importKinds : List Kind :=
  [.identifier, .keyword .protocol, .keyword .schema]

def schemaKinds : List Kind :=
  [.string, .punct .lBrace, .punct .lBracket]

instance (g : Grammar) (t : Table) : Decidable (t.Closed g) :=
  inferInstanceAs (Decidable (∀ e ∈ g.rules, _))

/-- Constructs that are never empty, and what they start with. -/
def constructs : List (String × List Kind) :=
  [("_declaration", declarationKinds), ("_protocol_member", memberKinds),
   ("_return_type", returnTypeKinds), ("import_kind", importKinds),
   ("field_declaration", typeKinds), ("parameter", typeKinds), ("_type", typeKinds),
   ("_base_type", baseTypeKinds), ("annotation", [.atName]), ("enum_symbol", [.identifier]),
   ("_schema_value", schemaKinds), ("_json_object", [.punct .lBrace]), ("json_pair", [.string])]

/-- The table is evaluated once, here. -/
theorem avroTable_facts : avroTable.Closed avro
    ∧ ∀ e ∈ constructs, avroTable.get e.1 = ⟨.ofList e.2, false⟩ := by
  decide +kernel

theorem avroTable_closed : avroTable.Closed avro :=
  avroTable_facts.1

section Constructs

variable {name : String} {firsts ks : List Kind} {k : Kind}

theorem avroTable_get (h : (name, firsts) ∈ constructs) :
    avroTable.get name = ⟨.ofList firsts, false⟩ :=
  avroTable_facts.2 (name, firsts) h

theorem avroTable_first (h : (name, firsts) ∈ constructs) :
    avroTable.first name = .ofList firsts := by
  rw [Table.first, avroTable_get h]

theorem ne_nil_of_derives (hname : (name, firsts) ∈ constructs)
    (h : avro.Derives (.symbol name) ks) : ks ≠ [] := by
  intro hks
  have hnull : (avroTable.get name).nullable := (avroTable_closed.first h).2 hks
  rw [avroTable_get hname] at hnull
  cases hnull

theorem head_of_derives (hname : (name, firsts) ∈ constructs)
    (h : avro.Derives (.symbol name) (k :: ks)) : (TokenSet.ofList firsts).contains k := by
  have hk : (avroTable.get name).tokens.contains k := (avroTable_closed.first h).1 k rfl
  rwa [avroTable_get hname] at hk

end Constructs

end Grammar

end AvroTree
