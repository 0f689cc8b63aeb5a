import AvroTree.Proofs.Taking

/-!
# Behind a JSON value

What the grammar of Avro derives holds neither errors nor the end (`meant_of_derives`), and wherever
there is a JSON value, a punctuation mark comes behind it (`mark_behind_value`). Rules that may end
in a value are told by their names; that no rule puts anything else behind one of them is read off
the first sets.
-/

namespace AvroTree

open Token (Kind)

namespace Grammar

/-- The second token may stand behind the first: behind a JSON value only a mark may. -/
def Behind (j k : Kind) : Prop :=
  j = .jsonSpan → ∃ p, k = .punct p

/-- The rules of Avro that may end in a JSON value. -/
def valued : List String :=
  ["json_value", "_json_member_value", "json_pair", "_variable", "parameter"]

/-- The set of the punctuation marks. -/
def marks : TokenSet :=
  .ofList (Punct.all.map .punct)

namespace Table

variable (t : Table)

mutual

/-- The last token that a rule derives may be a JSON value. -/
def endsInValue : Rule → Bool
  | .token kind => kind == .jsonSpan
  | .symbol name => valued.contains name
  | .seq members => seqEndsInValue members
  | .choice members => choiceEndsInValue members
  | .many inner | .many1 inner | .optional inner | .field _ inner | .renamed inner _ =>
    endsInValue inner

def seqEndsInValue : List Rule → Bool
  | [] => false
  | r :: rest => seqEndsInValue rest || (endsInValue r && (t.ofSeq rest).nullable)

def choiceEndsInValue : List Rule → Bool
  | [] => false
  | r :: rest => endsInValue r || choiceEndsInValue rest

end

/-- Where a rule ends in a JSON value, what comes next starts with a mark. -/
def closes (r : Rule) (next : First) : Bool :=
  !t.endsInValue r || next.tokens ∪ marks == marks

mutual

/-- Inside of a rule only marks come behind JSON values, and all tokens are meant. -/
def guards : Rule → Bool
  | .token kind => kind.isMeant
  | .symbol _ => true
  | .seq members => seqGuards members
  | .choice members => choiceGuards members
  | .many inner | .many1 inner => guards inner && t.closes inner (t.ofRule inner)
  | .optional inner | .field _ inner | .renamed inner _ => guards inner

def seqGuards : List Rule → Bool
  | [] => true
  | r :: rest => guards r && t.closes r (t.ofSeq rest) && seqGuards rest

def choiceGuards : List Rule → Bool
  | [] => true
  | r :: rest => guards r && choiceGuards rest

end

variable {t : Table} {g : Grammar} {r : Rule} {rs : List Rule} {ks ls : List Kind}

theorem guards_of_mem (h : t.choiceGuards rs) (hr : r ∈ rs) : t.guards r := by
  induction rs with
  | nil => cases hr
  | cons r' rs ih =>
    rw [choiceGuards, Bool.and_eq_true] at h
    rcases List.mem_cons.1 hr with rfl | hr
    · exact h.1
    · exact ih h.2 hr

theorem choiceEndsInValue_of_mem (hr : r ∈ rs) (h : t.endsInValue r) : t.choiceEndsInValue rs := by
  induction rs with
  | nil => cases hr
  | cons r' rs ih =>
    rw [choiceEndsInValue, Bool.or_eq_true]
    rcases List.mem_cons.1 hr with rfl | hr
    · exact .inl h
    · exact .inr (ih hr)

theorem closes_mark {next : First} {k : Kind} (h : t.closes r next) (hr : t.endsInValue r)
    (hk : next.tokens.contains k) : ∃ p, k = .punct p := by
  rw [closes, hr, Bool.not_true, Bool.false_or, beq_iff_eq] at h
  have hmark : marks.contains k := by
    rw [← h, TokenSet.contains_union, hk, Bool.true_or]
  obtain ⟨p, -, rfl⟩ := List.mem_map.1 (TokenSet.mem_of_contains (by simp [Kind.isError]) hmark)
  exact ⟨p, rfl⟩

/-- The tokens of a sequence are meant and stand behind each other as they may, and if the last is a
JSON value its rule is one that may end in a value. -/
structure Marked (t : Table) (r : Rule) (ks : List Kind) : Prop where
  meant : ∀ k ∈ ks, k.isMeant
  chain : ks.IsChain Behind
  last : ks.getLast? = some .jsonSpan → t.endsInValue r

theorem Marked.mono {q : Rule} (h : t.Marked r ks) (hq : t.endsInValue r → t.endsInValue q) :
    t.Marked q ks :=
  ⟨h.meant, h.chain, fun hlast => hq (h.last hlast)⟩

/-- Two sequences, one behind the other. -/
theorem Marked.append {q s : Rule} {next : First} (h : t.Marked r ks) (h' : t.Marked q ls)
    (hnext : (∀ k ∈ ls.head?, next.tokens.contains k) ∧ (ls = [] → next.nullable))
    (hclose : t.closes r next)
    (hs : t.endsInValue q ∨ t.endsInValue r ∧ next.nullable → t.endsInValue s) :
    t.Marked s (ks ++ ls) where
  meant k hk := (List.mem_append.1 hk).elim (h.meant k) (h'.meant k)
  chain := by
    refine List.isChain_append.2 ⟨h.chain, h'.chain, fun j hj k hk hvalue => ?_⟩
    exact closes_mark hclose (h.last (hvalue ▸ hj)) (hnext.1 k hk)
  last hlast := by
    by_cases hnil : ls = []
    · rw [hnil, List.append_nil] at hlast
      exact hs (.inr ⟨h.last hlast, hnext.2 hnil⟩)
    · rw [List.getLast?_append_of_ne_nil _ hnil] at hlast
      exact hs (.inl (h'.last hlast))

/-- Every rule has only marks behind the JSON values inside of it, and those that may end in one are
told by name. -/
def Guarded (g : Grammar) (t : Table) : Prop :=
  ∀ e ∈ g.rules, t.guards e.2 ∧ (t.endsInValue e.2 → valued.contains e.1)

instance (g : Grammar) (t : Table) : Decidable (t.Guarded g) :=
  inferInstanceAs (Decidable (∀ e ∈ g.rules, _))

theorem Marked.nil : t.Marked r [] :=
  ⟨fun _ h => (List.not_mem_nil h).elim, .nil, fun h => nomatch h⟩

theorem Guarded.marked (hg : t.Guarded g) (ht : t.Closed g) (h : g.Derives r ks) :
    t.guards r → t.Marked r ks := by
  induction h with
  | token k =>
    intro h
    refine ⟨fun j hj => ?_, .singleton _, fun hk => by simpa [endsInValue] using hk⟩
    obtain rfl := List.mem_singleton.1 hj
    exact h
  | symbol hr _ ih =>
    obtain ⟨hguards, hnamed⟩ := hg _ (mem_bodies.1 hr)
    exact fun _ => (ih hguards).mono hnamed
  | seqNil => exact fun _ => .nil
  | seqCons _ hs ih ihs =>
    intro h
    rw [guards, seqGuards, Bool.and_eq_true, Bool.and_eq_true] at h
    obtain ⟨⟨hr, hclose⟩, hrest⟩ := h
    refine (ih hr).append (ihs hrest) (ht.first hs) hclose fun h => ?_
    simpa [endsInValue, seqEndsInValue, ofRule] using h
  | choice hr _ ih =>
    exact fun h => (ih (guards_of_mem h hr)).mono (choiceEndsInValue_of_mem hr)
  | manyNil => exact fun _ => .nil
  | manyCons _ hs ih ihs =>
    intro h
    have hpart := h
    rw [guards, Bool.and_eq_true] at hpart
    exact (ih hpart.1).append (ihs h) (ht.first hs) hpart.2 fun h => h.elim id And.left
  | many1 _ hs ih ihs =>
    intro h
    have hpart := h
    rw [guards, Bool.and_eq_true] at hpart
    exact (ih hpart.1).append (ihs h) (ht.first hs) hpart.2 fun h => h.elim id And.left
  | absent => exact fun _ => .nil
  | present _ ih => exact fun h => (ih h).mono id
  | field _ ih => exact fun h => (ih h).mono id
  | renamed _ ih => exact fun h => (ih h).mono id

end Table

theorem avroTable_guarded : avroTable.Guarded avro := by
  decide +kernel

theorem meant_of_derives {name : String} {ks : List Kind} (h : avro.Derives (.symbol name) ks) :
    ∀ k ∈ ks, k.isMeant :=
  (avroTable_guarded.marked avroTable_closed h rfl).meant

/-- A JSON value is followed by a mark, if by anything. -/
theorem mark_behind_value {name : String} {ks ls : List Kind} {k : Kind}
    (h : avro.Derives (.symbol name) (ks ++ .jsonSpan :: k :: ls)) : ∃ p, k = .punct p := by
  have hchain := (avroTable_guarded.marked avroTable_closed h rfl).chain
  rw [List.isChain_append] at hchain
  exact (List.isChain_cons_cons.1 hchain.2.1).1 rfl

end Grammar

end AvroTree
