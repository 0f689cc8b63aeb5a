import AvroTree.Proofs.Derivations
import AvroTree.Proofs.Settling

/-!
# First sets are exact

The rounds that find the first sets of a grammar come to an end, whether a round reads every rule by
the table before it or by what the rules in front of it have told already (`refine_compile`,
`sweep_settled`). The table they end in holds all that the rules can start with and can be nothing
that they cannot; and where every rule comes to an end it holds nothing else (`compile_exact`).
-/

namespace AvroTree

open Token (Kind)

/-! ## How many kinds a set holds -/

namespace TokenSet

variable {s t : TokenSet}

theorem exists_kind : ∀ i < Kind.count, ∃ k ∈ Kind.all, k.index = i := by
  decide

theorem ext_contains (h : ∀ k ∈ Kind.all, s.contains k = t.contains k) : s = t := by
  obtain ⟨a⟩ := s
  obtain ⟨b⟩ := t
  congr 1
  refine BitVec.eq_of_getLsbD_eq fun i hi => ?_
  obtain ⟨k, hk, rfl⟩ := exists_kind i hi
  exact h k hk

theorem toList_inj (h : s.toList = t.toList) : s = t := by
  refine ext_contains fun k hk => ?_
  have hmem : k ∈ s.toList ↔ k ∈ t.toList := by rw [h]
  rw [toList, toList, List.mem_filter, List.mem_filter] at hmem
  exact Bool.eq_iff_iff.2 (by simpa only [hk, true_and] using hmem)

theorem size_le (s : TokenSet) : s.size ≤ Kind.count :=
  List.length_filter_le _ _

/-- A set that is joined with something new holds more kinds than before. -/
theorem size_lt_union (h : s ∪ t ≠ s) : s.size < (s ∪ t).size := by
  have hsub : s.toList.Sublist (s ∪ t).toList :=
    List.monotone_filter_right _ fun k hk => by rw [contains_union, hk, Bool.true_or]
  refine lt_of_le_of_ne hsub.length_le fun hlen => h ?_
  exact (toList_inj (hsub.eq_of_length hlen)).symm

theorem size_le_union (s t : TokenSet) : s.size ≤ (s ∪ t).size := by
  by_cases h : s ∪ t = s
  · rw [h]
  · exact (size_lt_union h).le

end TokenSet

namespace Grammar

namespace First

variable {a b c : First}

/-- How much is known: one for every token and one for being nothing. -/
def weight (f : First) : Nat :=
  f.tokens.size + f.nullable.toNat

theorem weight_le (f : First) : f.weight ≤ Kind.count + 1 :=
  Nat.add_le_add f.tokens.size_le (Bool.toNat_le _)

theorem weight_lt_or (h : a.or b ≠ a) : a.weight < (a.or b).weight := by
  have htokens := TokenSet.size_le_union a.tokens b.tokens
  show a.tokens.size + a.nullable.toNat <
    (a.tokens ∪ b.tokens).size + (a.nullable || b.nullable).toNat
  by_cases hnew : a.tokens ∪ b.tokens = a.tokens
  · have hnull : (a.nullable || b.nullable) ≠ a.nullable := fun hn =>
      h (by rw [First.or, hnew, hn])
    obtain ⟨ha, hb⟩ : a.nullable = false ∧ b.nullable = true := by
      revert hnull
      cases a.nullable <;> cases b.nullable <;> decide
    rw [ha, hb, hnew]
    exact Nat.lt_succ_self _
  · have hlt := TokenSet.size_lt_union hnew
    have hle : a.nullable.toNat ≤ (a.nullable || b.nullable).toNat := by
      cases a.nullable <;> cases b.nullable <;> decide
    omega

/-- What `a` knows `b` knows as well. -/
structure Le (a b : First) : Prop where
  tokens : ∀ k, a.tokens.contains k → b.tokens.contains k
  nullable : a.nullable → b.nullable

theorem Le.refl (a : First) : a.Le a :=
  ⟨fun _ h => h, fun h => h⟩

theorem Le.trans (h : a.Le b) (h' : b.Le c) : a.Le c :=
  ⟨fun k hk => h'.tokens k (h.tokens k hk), fun hn => h'.nullable (h.nullable hn)⟩

theorem Le.antisymm (h : a.Le b) (h' : b.Le a) : a = b := by
  obtain ⟨s, m⟩ := a
  obtain ⟨t, n⟩ := b
  have hs : s = t := TokenSet.ext_contains fun k _ =>
    Bool.eq_iff_iff.2 ⟨h.tokens k, h'.tokens k⟩
  have hm : m = n := Bool.eq_iff_iff.2 ⟨h.nullable, h'.nullable⟩
  rw [hs, hm]

theorem empty_le (a : First) : ({} : First).Le a :=
  ⟨fun k hk => by simp at hk, fun hn => by cases hn⟩

theorem or_le (h : a.Le c) (h' : b.Le c) : (a.or b).Le c := by
  refine ⟨fun k hk => ?_, fun hn => ?_⟩
  · rw [First.or, TokenSet.contains_union, Bool.or_eq_true] at hk
    exact hk.elim (h.tokens k) (h'.tokens k)
  · exact (Bool.or_eq_true _ _ ▸ hn : a.nullable ∨ b.nullable).elim h.nullable h'.nullable

theorem le_or_left (a b : First) : a.Le (a.or b) :=
  ⟨fun k hk => by simp [First.or, hk], fun hn => by simp [First.or, hn]⟩

theorem le_or_right (a b : First) : b.Le (a.or b) :=
  ⟨fun k hk => by simp [First.or, hk], fun hn => by simp [First.or, hn]⟩

theorem or_mono {a' b' : First} (h : a.Le a') (h' : b.Le b') : (a.or b).Le (a'.or b') :=
  or_le (h.trans (le_or_left _ _)) (h'.trans (le_or_right _ _))

theorem andThen_mono {a' b' : First} (h : a.Le a') (h' : b.Le b') :
    (a.andThen b).Le (a'.andThen b') := by
  unfold andThen
  by_cases ha : a.nullable
  · rw [if_pos ha, if_pos (h.nullable ha)]
    exact ⟨(or_mono h h').tokens, h'.nullable⟩
  · rw [if_neg ha]
    split
    · exact ⟨(h.trans (le_or_left _ _)).tokens, fun hn => absurd hn ha⟩
    · exact h

end First

namespace Table

variable {g : Grammar} {t u : Table} {r : Rule} {name : String}

/-! ## Tables that learn -/

def names (t : Table) : List String :=
  t.entries.map (·.1)

def weight (t : Table) : Nat :=
  (t.entries.map fun e => e.2.weight).sum

/-- The table told about every rule what `f` says of it. -/
def learn (f : String → First) (t : Table) : Table :=
  ⟨t.entries.map fun (name, old) => (name, old.or (f name))⟩

/-- The table told about one rule. -/
def tell (name : String) (f : First) (t : Table) : Table :=
  t.learn fun n => if n = name then f else {}

/-- A round in place: every rule in turn is read by the table as the rules in front of it have left
it. -/
def sweep (g : Grammar) (t : Table) : Table :=
  g.rules.foldl (fun t (name, r) => t.tell name (t.ofRule r)) t

theorem refine_eq (g : Grammar) (t : Table) :
    refine g t = t.learn fun name => t.ofChoice (g.bodies name) :=
  rfl

@[simp]
theorem names_learn (f : String → First) (t : Table) : (t.learn f).names = t.names := by
  rw [names, learn, List.map_map]
  rfl

theorem get_learn (f : String → First) (h : name ∈ t.names) :
    (t.learn f).get name = (t.get name).or (f name) := by
  have hlookup : ∀ l : List (String × First), name ∈ l.map (·.1) →
      (((l.map fun (n, old) => (n, old.or (f n))).lookup name).getD {})
        = ((l.lookup name).getD {}).or (f name) := by
    intro l hl
    induction l with
    | nil => cases hl
    | cons e l ih =>
      obtain ⟨n, old⟩ := e
      rw [List.map_cons, List.lookup_cons, List.lookup_cons]
      by_cases hn : name = n
      · subst hn
        simp
      · have hne : (name == n) = false := beq_false_of_ne hn
        rw [hne]
        exact ih ((List.mem_cons.1 hl).resolve_left hn)
  exact hlookup t.entries h

theorem get_of_notMem (h : name ∉ t.names) : t.get name = {} := by
  have hnone : t.entries.lookup name = none := by
    rw [List.lookup_eq_none_iff]
    intro e he
    have hne : name ≠ e.1 := by
      rintro rfl
      exact h (List.mem_map_of_mem he)
    simpa using hne
  rw [get, hnone]
  rfl

theorem mem_entries (h : name ∈ t.names) : (name, t.get name) ∈ t.entries := by
  rw [get]
  cases hl : t.entries.lookup name with
  | none =>
    rw [List.lookup_eq_none_iff] at hl
    obtain ⟨e, he, rfl⟩ := List.mem_map.1 h
    simpa using hl e he
  | some f =>
    obtain ⟨front, back, heq, -⟩ := List.lookup_eq_some_iff.1 hl
    rw [heq]
    simp

theorem weight_lt_learn {f : String → First} (h : t.learn f ≠ t) :
    t.weight < (t.learn f).weight := by
  have hmap : (t.learn f).weight = (t.entries.map fun e => (e.2.or (f e.1)).weight).sum := by
    rw [weight, learn, List.map_map]
    rfl
  rw [hmap, weight]
  refine List.sum_lt_sum _ _ (fun e _ => ?_) ?_
  · by_cases he : e.2.or (f e.1) = e.2
    · rw [he]
    · exact (First.weight_lt_or he).le
  · by_contra hall
    push Not at hall
    refine h ?_
    have hsame : ∀ e ∈ t.entries, (e.1, e.2.or (f e.1)) = e := fun e he => by
      by_contra hne
      exact absurd (hall e he) (not_le_of_gt (First.weight_lt_or fun h => hne (by rw [h])))
    rw [learn, List.map_congr_left hsame, List.map_id']

theorem length_eraseDups_le : ∀ l : List String, l.eraseDups.length ≤ l.length
  | [] => le_rfl
  | x :: l => by
    have hle := length_eraseDups_le (l.filter fun y => !y == x)
    rw [List.eraseDups_cons, List.length_cons, List.length_cons]
    exact Nat.succ_le_succ (hle.trans (List.length_filter_le _ l))
termination_by l => l.length
decreasing_by exact Nat.lt_succ_of_le (List.length_filter_le _ l)

/-- No table over the names of a grammar knows more than this. -/
theorem weight_le (h : t.names = g.names.eraseDups) :
    t.weight ≤ g.rules.length * (Kind.count + 1) := by
  have hlen : t.entries.length ≤ g.rules.length := by
    have hle := length_eraseDups_le g.names
    rwa [← h, names, List.length_map, Grammar.names, List.length_map] at hle
  refine (List.sum_le_card_nsmul _ (Kind.count + 1) fun n hn => ?_).trans ?_
  · obtain ⟨e, -, rfl⟩ := List.mem_map.1 hn
    exact e.2.weight_le
  · rw [List.length_map, smul_eq_mul]
    exact Nat.mul_le_mul_right _ hlen

/-! ## Rounds -/

/-- If each step of a fold makes everything larger that it changes, so does the fold, and it changes
nothing only if none of its steps would. -/
theorem foldl_fixed {α β : Type} {f : β → α → β} {size : β → Nat}
    (hf : ∀ b a, f b a ≠ b → size b < size (f b a)) : ∀ (l : List α) (b : β),
    size b ≤ size (l.foldl f b)
      ∧ (size (l.foldl f b) ≤ size b → l.foldl f b = b ∧ ∀ a ∈ l, f b a = b)
  | [], b => ⟨le_rfl, fun _ => ⟨rfl, nofun⟩⟩
  | a :: l, b => by
    obtain ⟨hle, hfix⟩ := foldl_fixed hf l (f b a)
    rw [List.foldl_cons]
    by_cases ha : f b a = b
    · rw [ha] at hle hfix ⊢
      exact ⟨hle, fun h => ⟨(hfix h).1, List.forall_mem_cons.2 ⟨ha, (hfix h).2⟩⟩⟩
    · have hlt := hf b a ha
      exact ⟨hlt.le.trans hle, fun h => absurd (hlt.trans_le hle) (not_lt_of_ge h)⟩

theorem refine_climbs (g : Grammar) : Climbs (fun t => t.names = g.names.eraseDups) weight
    (g.rules.length * (Kind.count + 1)) (refine g) where
  keeps t ht := by rw [refine_eq, names_learn, ht]
  le _ ht := weight_le ht
  lt t _ h := weight_lt_learn (f := fun name => t.ofChoice (g.bodies name)) h

theorem names_sweep (g : Grammar) (t : Table) : (sweep g t).names = t.names := by
  have hfold : ∀ (l : List (String × Rule)) (t : Table),
      (l.foldl (fun t (name, r) => t.tell name (t.ofRule r)) t).names = t.names := by
    intro l
    induction l with
    | nil => exact fun _ => rfl
    | cons e l ih => exact fun t => (ih _).trans (names_learn _ t)
  exact hfold g.rules t

theorem tell_fixed (g : Grammar) (t : Table) : t.weight ≤ (sweep g t).weight
    ∧ ((sweep g t).weight ≤ t.weight →
      sweep g t = t ∧ ∀ e ∈ g.rules, t.tell e.1 (t.ofRule e.2) = t) :=
  foldl_fixed (fun t e h => weight_lt_learn (f := fun n => if n = e.1 then t.ofRule e.2 else {}) h)
    g.rules t

theorem sweep_climbs (g : Grammar) : Climbs (fun t => t.names = g.names.eraseDups) weight
    (g.rules.length * (Kind.count + 1)) (sweep g) where
  keeps t ht := by rw [names_sweep, ht]
  le _ ht := weight_le ht
  lt t _ h := lt_of_not_ge fun hle => h ((tell_fixed g t).2 hle).1

theorem names_blank (g : Grammar) : (blank g).names = g.names.eraseDups := by
  rw [names, blank, List.map_map]
  exact List.map_id' _

/-! ## The least table -/

theorem or_eq_left_iff {a b : First} : a.or b = a ↔ b.Le a :=
  ⟨fun h => h ▸ First.le_or_right a b, fun h =>
    (First.or_le (.refl a) h).antisymm (First.le_or_left a b)⟩

theorem mem_names_of_rule {e : String × Rule} (ht : t.names = g.names.eraseDups)
    (he : e ∈ g.rules) : e.1 ∈ t.names := by
  rw [ht, List.mem_eraseDups]
  exact List.mem_map_of_mem he

theorem ofRule_le_ofChoice {rs : List Rule} (hr : r ∈ rs) : (t.ofRule r).Le (t.ofChoice rs) :=
  ⟨(ofChoice_of_mem hr).1, (ofChoice_of_mem hr).2⟩

theorem ofChoice_le {a : First} : ∀ {rs : List Rule}, (∀ r ∈ rs, (t.ofRule r).Le a) →
    (t.ofChoice rs).Le a
  | [], _ => First.empty_le a
  | _ :: _, h => First.or_le (h _ List.mem_cons_self)
      (ofChoice_le fun r hr => h r (List.mem_cons_of_mem _ hr))

theorem closed_of_refine (ht : t.names = g.names.eraseDups) (h : refine g t = t) : t.Closed g := by
  intro e he
  have hget := get_learn (fun name => t.ofChoice (g.bodies name)) (mem_names_of_rule ht he)
  rw [← refine_eq, h] at hget
  exact or_eq_left_iff.2
    ((ofRule_le_ofChoice (mem_bodies.2 he)).trans (or_eq_left_iff.1 hget.symm))

theorem closed_of_sweep (ht : t.names = g.names.eraseDups) (h : sweep g t = t) : t.Closed g := by
  intro e he
  have htell := ((tell_fixed g t).2 (by rw [h])).2 e he
  have hget := get_learn (fun n => if n = e.1 then t.ofRule e.2 else {}) (mem_names_of_rule ht he)
  rw [← tell, htell, if_pos rfl] at hget
  exact hget.symm

/-- What one table knows the other knows as well. -/
def Below (t u : Table) : Prop :=
  ∀ name, (t.get name).Le (u.get name)

mutual

theorem Below.ofRule (h : t.Below u) : ∀ r : Rule, (t.ofRule r).Le (u.ofRule r)
  | .token _ => .refl _
  | .symbol name => h name
  | .seq members => Below.ofSeq h members
  | .choice members => Below.ofChoice h members
  | .many inner => ⟨(Below.ofRule h inner).tokens, fun h => h⟩
  | .optional inner => ⟨(Below.ofRule h inner).tokens, fun h => h⟩
  | .many1 inner => Below.ofRule h inner
  | .field _ inner => Below.ofRule h inner
  | .renamed inner _ => Below.ofRule h inner

theorem Below.ofSeq (h : t.Below u) : ∀ rs : List Rule, (t.ofSeq rs).Le (u.ofSeq rs)
  | [] => .refl _
  | r :: rs => First.andThen_mono (Below.ofRule h r) (Below.ofSeq h rs)

theorem Below.ofChoice (h : t.Below u) : ∀ rs : List Rule, (t.ofChoice rs).Le (u.ofChoice rs)
  | [] => .refl _
  | r :: rs => First.or_mono (Below.ofRule h r) (Below.ofChoice h rs)

end

theorem Closed.ofRule_le (hu : u.Closed g) (hr : r ∈ g.bodies name) :
    (u.ofRule r).Le (u.get name) :=
  ⟨(hu.get hr).1, (hu.get hr).2⟩

theorem Below.learn (h : t.Below u) {f : String → First}
    (hf : ∀ name, (f name).Le (u.get name)) : (t.learn f).Below u := by
  intro name
  by_cases hn : name ∈ t.names
  · rw [get_learn f hn]
    exact First.or_le (h name) (hf name)
  · rw [get_of_notMem (by rwa [names_learn])]
    exact First.empty_le _

theorem Below.refine (hu : u.Closed g) (h : t.Below u) : (refine g t).Below u :=
  h.learn fun _ => ofChoice_le fun r hr => (h.ofRule r).trans (hu.ofRule_le hr)

theorem Below.sweep (hu : u.Closed g) (h : t.Below u) : (sweep g t).Below u := by
  have hfold : ∀ l ⊆ g.rules, ∀ t : Table, t.Below u →
      (l.foldl (fun t (name, r) => t.tell name (t.ofRule r)) t).Below u := by
    intro l hl
    induction l with
    | nil => exact fun _ h => h
    | cons e l ih =>
      obtain ⟨he, hl⟩ := List.cons_subset.1 hl
      refine fun t h => ih hl _ (h.learn fun name => ?_)
      split
      · rename_i hname
        subst hname
        exact (h.ofRule e.2).trans (hu.ofRule_le (mem_bodies.2 he))
      · exact First.empty_le _
  exact hfold g.rules (List.Subset.refl _) t h

theorem blank_below (g : Grammar) (u : Table) : (blank g).Below u := by
  intro name
  have hempty : (blank g).get name = {} := by
    by_cases hn : name ∈ (blank g).names
    · obtain ⟨_, -, heq⟩ := List.mem_map.1 (mem_entries hn)
      exact (congrArg Prod.snd heq).symm
    · exact get_of_notMem hn
  rw [hempty]
  exact First.empty_le _

end Table

variable {g : Grammar} {name : String} {r : Rule} {k : Kind} {ks : List Kind}

theorem names_compile (g : Grammar) : g.compile.names = g.names.eraseDups :=
  settle_keeps (Table.refine_climbs g).keeps _ (Table.names_blank g)

/-- The rounds have come to an end. -/
theorem refine_compile (g : Grammar) : Table.refine g g.compile = g.compile := by
  rw [compile, settle_eq_iterate]
  exact (Table.refine_climbs g).settled (Table.names_blank g)
    ((Nat.le_succ _).trans (Nat.le_add_left _ _))

theorem compile_closed (g : Grammar) : g.compile.Closed g :=
  Table.closed_of_refine (names_compile g) (refine_compile g)

/-- No table that the rules have told everything knows less. -/
theorem compile_below {u : Table} (hu : u.Closed g) : g.compile.Below u :=
  settle_keeps (P := fun t : Table => t.Below u) (fun _ => .refine hu) _ (Table.blank_below g u)

/-- Rounds in place come to an end as well, and they end in the same table. -/
theorem sweep_settled (g : Grammar) : ∃ n ≤ g.rules.length * (Kind.count + 1),
    Table.sweep g ((Table.sweep g)^[n] (.blank g)) = (Table.sweep g)^[n] (.blank g)
      ∧ ∀ name, ((Table.sweep g)^[n] (.blank g)).get name = g.compile.get name := by
  have hclimbs := Table.sweep_climbs g
  have hfix := hclimbs.settled (n := g.rules.length * (Kind.count + 1)) (Table.names_blank g)
    (Nat.le_add_left _ _)
  have hkeeps (t : Table) (ht : t.names = g.names.eraseDups ∧ t.Below g.compile) :
      (Table.sweep g t).names = g.names.eraseDups ∧ (Table.sweep g t).Below g.compile :=
    ⟨hclimbs.keeps t ht.1, .sweep (compile_closed g) ht.2⟩
  have hend := settle_keeps hkeeps (g.rules.length * (Kind.count + 1))
    ⟨Table.names_blank g, Table.blank_below g _⟩
  rw [settle_eq_iterate] at hend
  refine ⟨_, le_rfl, hfix, fun name => (hend.2 name).antisymm ?_⟩
  exact compile_below (Table.closed_of_sweep hend.1 hfix) name

/-! ## Nothing that is not derived -/

theorem many_of_derives (h : g.Derives r ks) : g.Derives (.many r) ks := by
  rw [← List.append_nil ks]
  exact .manyCons h .manyNil

theorem many1_of_derives (h : g.Derives r ks) : g.Derives (.many1 r) ks := by
  rw [← List.append_nil ks]
  exact .many1 h .manyNil

/-- The rule derives a sequence that starts with a kind of the same index as `k`. -/
def Starts (g : Grammar) (r : Rule) (k : Kind) : Prop :=
  ∃ j ks, j.index = k.index ∧ g.Derives r (j :: ks)

theorem Starts.mono {r' : Rule} (h : g.Starts r k) (hr : ∀ ks, g.Derives r ks → g.Derives r' ks) :
    g.Starts r' k :=
  have ⟨j, ks, hj, hd⟩ := h
  ⟨j, ks, hj, hr _ hd⟩

/-- Some rules come to an end: what they refer to derives something, and no choice among them is
empty. -/
structure Fertile (g : Grammar) (parts : List Rule) : Prop where
  symbol : ∀ name, .symbol name ∈ parts → ∃ ks, g.Derives (.symbol name) ks
  choice : .choice [] ∉ parts

namespace Fertile

variable {p : Rule} {ps qs : List Rule}

theorem subset (h : g.Fertile ps) (hsub : qs ⊆ ps) : g.Fertile qs :=
  ⟨fun name hn => h.symbol name (hsub hn), fun hc => h.choice (hsub hc)⟩

theorem tail (h : g.Fertile (p :: ps)) : g.Fertile ps :=
  h.subset (List.subset_cons_self p ps)

theorem left (h : g.Fertile (ps ++ qs)) : g.Fertile ps :=
  h.subset (List.subset_append_left ps qs)

theorem right (h : g.Fertile (ps ++ qs)) : g.Fertile qs :=
  h.subset (List.subset_append_right ps qs)

mutual

theorem derives : ∀ r : Rule, g.Fertile r.parts → ∃ ks, g.Derives r ks
  | .token k, _ => ⟨_, .token k⟩
  | .symbol name, h => h.symbol name List.mem_cons_self
  | .seq members, h => derivesAll members h.tail
  | .choice [], h => absurd List.mem_cons_self h.choice
  | .choice (r :: _), h => have ⟨_, hd⟩ := derives r h.tail.left
    ⟨_, .choice List.mem_cons_self hd⟩
  | .many _, _ => ⟨_, .manyNil⟩
  | .optional _, _ => ⟨_, .absent⟩
  | .many1 inner, h => have ⟨_, hd⟩ := derives inner h.tail
    ⟨_, many1_of_derives hd⟩
  | .field _ inner, h => have ⟨_, hd⟩ := derives inner h.tail
    ⟨_, .field hd⟩
  | .renamed inner _, h => have ⟨_, hd⟩ := derives inner h.tail
    ⟨_, .renamed hd⟩

theorem derivesAll : ∀ rs : List Rule, g.Fertile (Rule.partsList rs) →
    ∃ ks, g.Derives (.seq rs) ks
  | [], _ => ⟨_, .seqNil⟩
  | r :: rs, h => have ⟨_, hd⟩ := derives r h.left
    have ⟨_, hds⟩ := derivesAll rs h.right
    ⟨_, .seqCons hd hds⟩

end

end Fertile

namespace Table

variable {t : Table}

/-- The table holds no rule for empty that is not. -/
def NullSound (g : Grammar) (t : Table) : Prop :=
  ∀ name, (t.get name).nullable → g.Derives (.symbol name) []

/-- The table holds nothing for the start of a rule that is not. -/
def FirstSound (g : Grammar) (t : Table) : Prop :=
  ∀ name k, (t.get name).tokens.contains k → g.Starts (.symbol name) k

mutual

theorem NullSound.ofRule (ht : t.NullSound g) : ∀ r : Rule, (t.ofRule r).nullable → g.Derives r []
  | .token _, h => by cases h
  | .symbol name, h => ht name h
  | .seq members, h => NullSound.ofSeq ht members h
  | .choice members, h => have ⟨_, hr, hd⟩ := NullSound.ofChoice ht members h
    .choice hr hd
  | .many _, _ => .manyNil
  | .optional _, _ => .absent
  | .many1 inner, h => many1_of_derives (NullSound.ofRule ht inner h)
  | .field _ inner, h => .field (NullSound.ofRule ht inner h)
  | .renamed inner _, h => .renamed (NullSound.ofRule ht inner h)

theorem NullSound.ofSeq (ht : t.NullSound g) : ∀ rs : List Rule, (t.ofSeq rs).nullable →
    g.Derives (.seq rs) []
  | [], _ => .seqNil
  | r :: rs, h => by
    rw [Table.ofSeq, First.andThen] at h
    split at h
    · exact .seqCons (NullSound.ofRule ht r ‹_›) (NullSound.ofSeq ht rs h)
    · exact absurd h ‹_›

theorem NullSound.ofChoice (ht : t.NullSound g) : ∀ rs : List Rule, (t.ofChoice rs).nullable →
    ∃ r ∈ rs, g.Derives r []
  | [], h => by cases h
  | r :: rs, h => by
    rw [Table.ofChoice, First.or, Bool.or_eq_true] at h
    rcases h with h | h
    · exact ⟨r, List.mem_cons_self, NullSound.ofRule ht r h⟩
    · obtain ⟨r', hr, hd⟩ := NullSound.ofChoice ht rs h
      exact ⟨r', List.mem_cons_of_mem r hr, hd⟩

end

theorem NullSound.refine (ht : t.NullSound g) : (refine g t).NullSound g := by
  intro name h
  by_cases hn : name ∈ t.names
  · rw [refine_eq, get_learn _ hn, First.or, Bool.or_eq_true] at h
    rcases h with h | h
    · exact ht name h
    · obtain ⟨r, hr, hd⟩ := ht.ofChoice _ h
      exact .symbol hr hd
  · rw [get_of_notMem (by rwa [refine_eq, names_learn])] at h
    cases h

mutual

theorem FirstSound.ofRule (hn : t.NullSound g) (ht : t.FirstSound g) :
    ∀ r : Rule, g.Fertile r.parts → (t.ofRule r).tokens.contains k → g.Starts r k
  | .token j, _, h => by
    rw [Table.ofRule, TokenSet.contains_single] at h
    exact ⟨j, [], (of_decide_eq_true h).symm, .token j⟩
  | .symbol name, _, h => ht name k h
  | .seq members, hr, h => FirstSound.ofSeq hn ht members hr.tail h
  | .choice members, hr, h => have ⟨_, hmem, hs⟩ := FirstSound.ofChoice hn ht members hr.tail h
    hs.mono fun _ => .choice hmem
  | .many inner, hr, h => have ⟨j, ks, hj, hd⟩ := FirstSound.ofRule hn ht inner hr.tail h
    ⟨j, ks, hj, many_of_derives hd⟩
  | .optional inner, hr, h => (FirstSound.ofRule hn ht inner hr.tail h).mono fun _ => .present
  | .many1 inner, hr, h => have ⟨j, ks, hj, hd⟩ := FirstSound.ofRule hn ht inner hr.tail h
    ⟨j, ks, hj, many1_of_derives hd⟩
  | .field _ inner, hr, h => (FirstSound.ofRule hn ht inner hr.tail h).mono fun _ => .field
  | .renamed inner _, hr, h => (FirstSound.ofRule hn ht inner hr.tail h).mono fun _ => .renamed

/-- What starts a sequence starts its first member, or one behind members that are nothing. The
members behind it have to come to an end. -/
theorem FirstSound.ofSeq (hn : t.NullSound g) (ht : t.FirstSound g) : ∀ rs : List Rule,
    g.Fertile (Rule.partsList rs) → (t.ofSeq rs).tokens.contains k → g.Starts (.seq rs) k
  | [], _, h => by
    rw [Table.ofSeq, TokenSet.contains_empty] at h
    cases h
  | r :: rs, hr, h => by
    have hfirst (h : (t.ofRule r).tokens.contains k) : g.Starts (.seq (r :: rs)) k := by
      obtain ⟨j, ks, hj, hd⟩ := FirstSound.ofRule hn ht r hr.left h
      obtain ⟨ls, hds⟩ := Fertile.derivesAll rs hr.right
      exact ⟨j, ks ++ ls, hj, .seqCons hd hds⟩
    rw [Table.ofSeq, First.andThen] at h
    split at h
    · rename_i hnull
      rw [TokenSet.contains_union, Bool.or_eq_true] at h
      rcases h with h | h
      · exact hfirst h
      · exact (FirstSound.ofSeq hn ht rs hr.right h).mono fun _ => .seqCons (hn.ofRule r hnull)
    · exact hfirst h

theorem FirstSound.ofChoice (hn : t.NullSound g) (ht : t.FirstSound g) : ∀ rs : List Rule,
    g.Fertile (Rule.partsList rs) → (t.ofChoice rs).tokens.contains k → ∃ r ∈ rs, g.Starts r k
  | [], _, h => by
    rw [Table.ofChoice, TokenSet.contains_empty] at h
    cases h
  | r :: rs, hr, h => by
    rw [Table.ofChoice, First.or, TokenSet.contains_union, Bool.or_eq_true] at h
    rcases h with h | h
    · exact ⟨r, List.mem_cons_self, FirstSound.ofRule hn ht r hr.left h⟩
    · obtain ⟨r', hmem, hs⟩ := FirstSound.ofChoice hn ht rs hr.right h
      exact ⟨r', List.mem_cons_of_mem r hmem, hs⟩

end

theorem FirstSound.refine (hn : t.NullSound g) (ht : t.FirstSound g)
    (hg : ∀ name, g.Fertile (Rule.partsList (g.bodies name))) : (refine g t).FirstSound g := by
  intro name k h
  by_cases hname : name ∈ t.names
  · rw [refine_eq, get_learn _ hname, First.or, TokenSet.contains_union, Bool.or_eq_true] at h
    rcases h with h | h
    · exact ht name k h
    · obtain ⟨r, hr, hs⟩ := FirstSound.ofChoice hn ht _ (hg name) h
      exact hs.mono fun _ => .symbol hr
  · rw [get_of_notMem (by rwa [refine_eq, names_learn]), TokenSet.contains_empty] at h
    cases h

theorem blank_sound (g : Grammar) : (blank g).NullSound g ∧ (blank g).FirstSound g := by
  refine ⟨fun name h => ?_, fun name k h => ?_⟩
  · cases (blank_below g ⟨[]⟩ name).nullable h
  · have hk := (blank_below g ⟨[]⟩ name).tokens k h
    rw [get_of_notMem List.not_mem_nil, TokenSet.contains_empty] at hk
    cases hk

end Table

theorem compile_nullSound (g : Grammar) : g.compile.NullSound g :=
  settle_keeps (fun _ => .refine) _ (Table.blank_sound g).1

/-- Rules whose names all come to an end, without empty choices. -/
theorem fertile_bodies (hdefined : ∀ e ∈ g.rules, ∀ name ∈ e.2.symbols, name ∈ g.names)
    (hends : ∀ name ∈ g.names, ∃ ks, g.Derives (.symbol name) ks)
    (hchoices : ∀ e ∈ g.rules, [] ∉ e.2.choices) (name : String) :
    g.Fertile (Rule.partsList (g.bodies name)) := by
  refine ⟨fun symbol hs => ?_, fun hc => ?_⟩
  · obtain ⟨r, hr, hs⟩ := mem_partsList.1 hs
    exact hends symbol (hdefined _ (mem_bodies.1 hr) symbol (List.mem_filterMap.2 ⟨_, hs, rfl⟩))
  · obtain ⟨r, hr, hc⟩ := mem_partsList.1 hc
    exact hchoices _ (mem_bodies.1 hr) (List.mem_filterMap.2 ⟨_, hc, rfl⟩)

theorem compile_firstSound (hg : ∀ name, g.Fertile (Rule.partsList (g.bodies name))) :
    g.compile.FirstSound g :=
  (settle_keeps (P := fun t : Table => t.NullSound g ∧ t.FirstSound g)
    (fun _ ht => ⟨ht.1.refine, .refine ht.1 ht.2 hg⟩) _ (Table.blank_sound g)).2

/-- The first sets of a grammar are found, and they are what its rules say. -/
theorem compile_exact (g : Grammar) :
    (Table.refine g g.compile = g.compile
      ∧ ∃ n ≤ g.rules.length * (Kind.count + 1),
        Table.sweep g ((Table.sweep g)^[n] (.blank g)) = (Table.sweep g)^[n] (.blank g)
          ∧ ∀ name, ((Table.sweep g)^[n] (.blank g)).get name = g.compile.get name)
      ∧ (∀ name, g.compile.isNullable name ↔ g.Derives (.symbol name) [])
      ∧ (∀ name k ks, g.Derives (.symbol name) (k :: ks) → (g.compile.first name).contains k)
      ∧ ((∀ e ∈ g.rules, ∀ name ∈ e.2.symbols, name ∈ g.names) →
        (∀ name ∈ g.names, ∃ ks, g.Derives (.symbol name) ks) →
        (∀ e ∈ g.rules, [] ∉ e.2.choices) →
        ∀ name k, (g.compile.first name).contains k ↔
          ∃ j ks, j.index = k.index ∧ g.Derives (.symbol name) (j :: ks)) := by
  have hfirst (name : String) (k : Kind) (ks : List Kind) (h : g.Derives (.symbol name) (k :: ks)) :
      (g.compile.first name).contains k :=
    ((compile_closed g).first h).1 k rfl
  refine ⟨⟨refine_compile g, sweep_settled g⟩, fun name => ?_, hfirst, ?_⟩
  · exact ⟨compile_nullSound g name, fun h => ((compile_closed g).first h).2 rfl⟩
  · intro hdefined hends hchoices name k
    refine ⟨compile_firstSound (fertile_bodies hdefined hends hchoices) name k, ?_⟩
    rintro ⟨j, ks, hj, h⟩
    have hcontains := hfirst name j ks h
    rwa [TokenSet.contains, hj] at hcontains

/-- A list may be empty by its second definition, so by its first it may start with an item. -/
theorem compile_exact_list :
    let g : Grammar :=
      { name := "list", starts := ["list"],
        rules :=
          [("list", .seq [.symbol "list", .symbol "item"]),
           ("list", .optional (.token .identifier)), ("item", .token .number)] }
    (∀ e ∈ g.rules, ∀ name ∈ e.2.symbols, name ∈ g.names)
      ∧ (∀ name ∈ g.names, ∃ ks, g.Derives (.symbol name) ks)
      ∧ (∀ e ∈ g.rules, [] ∉ e.2.choices)
      ∧ g.compile.isNullable "list" ∧ g.Derives (.symbol "list") []
      ∧ (g.compile.first "list").contains .number
      ∧ (∃ j ks, j.index = Kind.number.index ∧ g.Derives (.symbol "list") (j :: ks))
      ∧ ¬∃ j ks, j.index = Kind.string.index ∧ g.Derives (.symbol "list") (j :: ks) := by
  intro g
  have hdefined : ∀ e ∈ g.rules, ∀ name ∈ e.2.symbols, name ∈ g.names := by decide
  have hlist : g.Derives (.symbol "list") [] :=
    .symbol (mem_bodies.2 (List.mem_cons_of_mem _ List.mem_cons_self)) .absent
  have hitem : g.Derives (.symbol "item") [.number] :=
    .symbol (mem_bodies.2 (List.mem_cons_of_mem _ (List.mem_cons_of_mem _ List.mem_cons_self)))
      (.token _)
  have hends : ∀ name ∈ g.names, ∃ ks, g.Derives (.symbol name) ks := by
    intro name hname
    have hcases : name = "list" ∨ name = "item" := by simpa [g, names] using hname
    rcases hcases with rfl | rfl
    · exact ⟨_, hlist⟩
    · exact ⟨_, hitem⟩
  have hchoices : ∀ e ∈ g.rules, [] ∉ e.2.choices := by
    simp [g, Rule.choices, Rule.parts, Rule.partsList]
  have hnumber : (g.compile.first "list").contains .number := by decide +kernel
  have hstring : (g.compile.first "list").contains .string = false := by decide +kernel
  obtain ⟨-, hnull, -, hfirst⟩ := compile_exact g
  have hiff := hfirst hdefined hends hchoices "list"
  exact ⟨hdefined, hends, hchoices, (hnull "list").2 hlist, hlist, hnumber,
    (hiff .number).1 hnumber, fun h => by rw [(hiff .string).2 h] at hstring; cases hstring⟩

end Grammar

end AvroTree
