import AvroTree.Proofs.Derivations
import AvroTree.Proofs.Rendering

/-!
# How deep rules nest

A derivation in which a rule is used inside itself no more than some number of times
(`Grammar.DerivesWithin`). Every derivation is such a one for some number (`Derives.within`). For
the grammar of Avro and the rule of types it is said of words what their tokens are derived from
(`Writes`), and read backwards rule by rule.
-/

namespace AvroTree

open Token (Kind)

namespace Grammar

/-- What a rule derives when no more than `n` rules called `name` are one inside the other. -/
inductive DerivesWithin (g : Grammar) (name : String) : Nat → Rule → List Kind → Prop
  | token {n : Nat} (k : Kind) : DerivesWithin g name n (.token k) [k]
  | symbol {n : Nat} {other : String} {r : Rule} {ks : List Kind} (hother : other ≠ name)
      (hr : r ∈ g.bodies other) (h : DerivesWithin g name n r ks) :
      DerivesWithin g name n (.symbol other) ks
  | level {n : Nat} {r : Rule} {ks : List Kind} (hr : r ∈ g.bodies name)
      (h : DerivesWithin g name n r ks) : DerivesWithin g name (n + 1) (.symbol name) ks
  | seqNil {n : Nat} : DerivesWithin g name n (.seq []) []
  | seqCons {n : Nat} {r : Rule} {rs : List Rule} {ks ls : List Kind}
      (h : DerivesWithin g name n r ks) (hs : DerivesWithin g name n (.seq rs) ls) :
      DerivesWithin g name n (.seq (r :: rs)) (ks ++ ls)
  | choice {n : Nat} {r : Rule} {rs : List Rule} {ks : List Kind} (hr : r ∈ rs)
      (h : DerivesWithin g name n r ks) : DerivesWithin g name n (.choice rs) ks
  | manyNil {n : Nat} {r : Rule} : DerivesWithin g name n (.many r) []
  | manyCons {n : Nat} {r : Rule} {ks ls : List Kind} (h : DerivesWithin g name n r ks)
      (hs : DerivesWithin g name n (.many r) ls) : DerivesWithin g name n (.many r) (ks ++ ls)
  | many1 {n : Nat} {r : Rule} {ks ls : List Kind} (h : DerivesWithin g name n r ks)
      (hs : DerivesWithin g name n (.many r) ls) : DerivesWithin g name n (.many1 r) (ks ++ ls)
  | absent {n : Nat} {r : Rule} : DerivesWithin g name n (.optional r) []
  | present {n : Nat} {r : Rule} {ks : List Kind} (h : DerivesWithin g name n r ks) :
      DerivesWithin g name n (.optional r) ks
  | field {n : Nat} {label : String} {r : Rule} {ks : List Kind}
      (h : DerivesWithin g name n r ks) : DerivesWithin g name n (.field label r) ks
  | renamed {n : Nat} {label : String} {r : Rule} {ks : List Kind}
      (h : DerivesWithin g name n r ks) : DerivesWithin g name n (.renamed r label) ks

variable {g : Grammar} {name : String} {n m : Nat} {r : Rule} {ks : List Kind}

theorem DerivesWithin.derives (h : g.DerivesWithin name n r ks) : g.Derives r ks := by
  induction h with
  | token k => exact .token k
  | symbol _ hr _ ih => exact .symbol hr ih
  | level hr _ ih => exact .symbol hr ih
  | seqNil => exact .seqNil
  | seqCons _ _ ih ihs => exact .seqCons ih ihs
  | choice hr _ ih => exact .choice hr ih
  | manyNil => exact .manyNil
  | manyCons _ _ ih ihs => exact .manyCons ih ihs
  | many1 _ _ ih ihs => exact .many1 ih ihs
  | absent => exact .absent
  | present _ ih => exact .present ih
  | field _ ih => exact .field ih
  | renamed _ ih => exact .renamed ih

theorem DerivesWithin.mono (h : g.DerivesWithin name n r ks) (hm : n ≤ m) :
    g.DerivesWithin name m r ks := by
  induction h generalizing m with
  | token k => exact .token k
  | symbol hother hr _ ih => exact .symbol hother hr (ih hm)
  | level hr _ ih =>
    obtain ⟨m, rfl⟩ := Nat.exists_eq_add_of_le' (Nat.one_le_of_lt hm)
    exact .level hr (ih (Nat.le_of_succ_le_succ hm))
  | seqNil => exact .seqNil
  | seqCons _ _ ih ihs => exact .seqCons (ih hm) (ihs hm)
  | choice hr _ ih => exact .choice hr (ih hm)
  | manyNil => exact .manyNil
  | manyCons _ _ ih ihs => exact .manyCons (ih hm) (ihs hm)
  | many1 _ _ ih ihs => exact .many1 (ih hm) (ihs hm)
  | absent => exact .absent
  | present _ ih => exact .present (ih hm)
  | field _ ih => exact .field (ih hm)
  | renamed _ ih => exact .renamed (ih hm)

theorem DerivesWithin.many_append {ls : List Kind} (h : g.DerivesWithin name n (.many r) ks)
    (hs : g.DerivesWithin name n (.many r) ls) : g.DerivesWithin name n (.many r) (ks ++ ls) := by
  generalize hmany : Rule.many r = rule at h
  induction h with
  | manyNil =>
    cases hmany
    exact hs
  | manyCons h _ _ ih =>
    cases hmany
    rw [List.append_assoc]
    exact .manyCons h (ih hs rfl)
  | _ => cases hmany

/-- In every derivation a rule is inside itself some number of times. -/
theorem Derives.within (name : String) (h : g.Derives r ks) :
    ∃ n, g.DerivesWithin name n r ks := by
  have both {r r' : Rule} {ks ls : List Kind} (h : ∃ n, g.DerivesWithin name n r ks)
      (h' : ∃ n, g.DerivesWithin name n r' ls) :
      ∃ n, g.DerivesWithin name n r ks ∧ g.DerivesWithin name n r' ls := by
    obtain ⟨n, hn⟩ := h
    obtain ⟨m, hm⟩ := h'
    exact ⟨max n m, hn.mono (le_max_left n m), hm.mono (le_max_right n m)⟩
  induction h with
  | token k => exact ⟨0, .token k⟩
  | @symbol other _ _ hr _ ih =>
    obtain ⟨n, hn⟩ := ih
    by_cases hother : other = name
    · subst hother
      exact ⟨n + 1, .level hr hn⟩
    · exact ⟨n, .symbol hother hr hn⟩
  | seqNil => exact ⟨0, .seqNil⟩
  | seqCons _ _ ih ihs =>
    obtain ⟨n, hn, hm⟩ := both ih ihs
    exact ⟨n, .seqCons hn hm⟩
  | choice hr _ ih => exact ih.imp fun _ => .choice hr
  | manyNil => exact ⟨0, .manyNil⟩
  | manyCons _ _ ih ihs =>
    obtain ⟨n, hn, hm⟩ := both ih ihs
    exact ⟨n, .manyCons hn hm⟩
  | many1 _ _ ih ihs =>
    obtain ⟨n, hn, hm⟩ := both ih ihs
    exact ⟨n, .many1 hn hm⟩
  | absent => exact ⟨0, .absent⟩
  | present _ ih => exact ih.imp fun _ => .present
  | field _ ih => exact ih.imp fun _ => .field
  | renamed _ ih => exact ih.imp fun _ => .renamed

end Grammar

open Grammar (DerivesWithin avro)
open Rule (mark commas commasTrailing)

/-- The tokens of these words are what a rule of Avro derives with at most `n` types one inside the
other. -/
def Writes (n : Nat) (r : Rule) (us : List Word) : Prop :=
  avro.DerivesWithin "_base_type" n r (us.map (·.kind))

namespace Writes

variable {n m : Nat} {r : Rule} {rs : List Rule} {us vs ws : List Word} {name : String} {k : Kind}

theorem mono (h : Writes n r us) (hm : n ≤ m) : Writes m r us :=
  DerivesWithin.mono h hm

theorem derives (h : Writes n r us) : avro.Derives r (us.map (·.kind)) :=
  DerivesWithin.derives h

/-! ## Rules read backwards -/

theorem token (h : Writes n (.token k) us) : ∃ w, us = [w] ∧ w.kind = k := by
  unfold Writes at h
  generalize hks : us.map (·.kind) = ks at h
  cases h
  obtain ⟨w, hw, rfl⟩ := List.map_eq_singleton_iff.1 hks
  exact ⟨w, hw, rfl⟩

theorem rule (h : Writes n (.symbol name) us) (hr : avro.bodies name = [r])
    (hname : name ≠ "_base_type") : Writes n r us := by
  unfold Writes at h ⊢
  cases h with
  | symbol _ hr' h =>
    rw [hr, List.mem_singleton] at hr'
    rwa [← hr']
  | level => exact absurd rfl hname

theorem level (h : Writes n (.symbol "_base_type") us) (hr : avro.bodies "_base_type" = [r]) :
    ∃ m, n = m + 1 ∧ Writes m r us := by
  unfold Writes at h
  cases h with
  | symbol hother => exact absurd rfl hother
  | @level m _ _ hr' h =>
    rw [hr, List.mem_singleton] at hr'
    exact ⟨m, rfl, hr' ▸ h⟩

theorem nil (h : Writes n (.seq []) us) : us = [] := by
  unfold Writes at h
  generalize hks : us.map (·.kind) = ks at h
  cases h
  exact List.map_eq_nil_iff.1 hks

theorem cons (h : Writes n (.seq (r :: rs)) us) :
    ∃ vs ws, us = vs ++ ws ∧ Writes n r vs ∧ Writes n (.seq rs) ws := by
  unfold Writes at h
  generalize hks : us.map (·.kind) = ks at h
  cases h with
  | seqCons h hs =>
    obtain ⟨vs, ws, rfl, rfl, rfl⟩ := List.map_eq_append_iff.1 hks
    exact ⟨vs, ws, rfl, h, hs⟩

theorem choice (h : Writes n (.choice rs) us) : ∃ r ∈ rs, Writes n r us := by
  unfold Writes at h
  cases h with
  | choice hr h => exact ⟨_, hr, h⟩

theorem optional (h : Writes n (.optional r) us) : us = [] ∨ Writes n r us := by
  unfold Writes at h
  generalize hks : us.map (·.kind) = ks at h
  cases h with
  | absent => exact .inl (List.map_eq_nil_iff.1 hks)
  | present h => exact .inr (by rwa [Writes, hks])

theorem many (h : Writes n (.many r) us) :
    us = [] ∨ ∃ vs ws, us = vs ++ ws ∧ Writes n r vs ∧ Writes n (.many r) ws := by
  unfold Writes at h
  generalize hks : us.map (·.kind) = ks at h
  cases h with
  | manyNil => exact .inl (List.map_eq_nil_iff.1 hks)
  | manyCons h hs =>
    obtain ⟨vs, ws, rfl, rfl, rfl⟩ := List.map_eq_append_iff.1 hks
    exact .inr ⟨vs, ws, rfl, h, hs⟩

theorem many_append (h : Writes n (.many r) us) (hs : Writes n (.many r) vs) :
    Writes n (.many r) (us ++ vs) := by
  rw [Writes, List.map_append]
  exact DerivesWithin.many_append h hs

theorem seqCons (h : Writes n r us) (hs : Writes n (.seq rs) vs) :
    Writes n (.seq (r :: rs)) (us ++ vs) := by
  rw [Writes, List.map_append]
  exact DerivesWithin.seqCons h hs

theorem field {label : String} (h : Writes n (.field label r) us) : Writes n r us := by
  unfold Writes at h ⊢
  cases h with
  | field h => exact h

/-! ## Single tokens -/

/-- Just one token comes of the rule, of kind `k`. -/
def One (r : Rule) (k : Kind) : Prop :=
  ∀ n us, Writes n r us → ∃ w, us = [w] ∧ w.kind = k

theorem One.token (k : Kind) : One (.token k) k :=
  fun _ _ h => h.token

theorem One.field {label : String} (h : One r k) : One (.field label r) k :=
  fun n us hus => h n us hus.field

theorem One.rule (hr : avro.bodies name = [.token k]) (hname : name ≠ "_base_type") :
    One (.symbol name) k :=
  fun _ _ h => (h.rule hr hname).token

theorem identifier_one : One (.symbol "identifier") .identifier :=
  .rule rfl (by decide)

theorem jsonValue_one : One (.symbol "json_value") .jsonSpan :=
  .rule rfl (by decide)

theorem number_one : One (.symbol "number") .number :=
  .rule rfl (by decide)

/-- The first word of a sequence that starts with a token. -/
theorem head (h : Writes n (.seq (r :: rs)) us) (hr : One r k) :
    ∃ w vs, us = w :: vs ∧ w.kind = k ∧ Writes n (.seq rs) vs := by
  obtain ⟨ws, vs, rfl, hw, hvs⟩ := h.cons
  obtain ⟨w, rfl, hk⟩ := hr n ws hw
  exact ⟨w, vs, rfl, hk, hvs⟩

/-- The last word of a sequence. -/
theorem last (h : Writes n (.seq [r]) us) (hr : One r k) : ∃ w, us = [w] ∧ w.kind = k := by
  obtain ⟨w, vs, rfl, hk, hvs⟩ := h.head hr
  exact ⟨w, by rw [hvs.nil], hk⟩

/-- The last part of a sequence. -/
theorem only (h : Writes n (.seq [r]) us) : Writes n r us := by
  obtain ⟨vs, ws, rfl, hvs, hws⟩ := h.cons
  rwa [hws.nil, List.append_nil]

end Writes

end AvroTree
