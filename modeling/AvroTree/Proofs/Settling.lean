import AvroTree.Proofs.FirstSets
import Mathlib.Data.List.Perm.Subperm
import Mathlib.Logic.Function.Iterate
import Mathlib.Logic.Relation

/-!
# Rounds come to an end

A step is repeated until it changes nothing, or until a bound is met. If whatever it changes it
makes larger, and nothing can be larger than what the bound allows for, then the bound is never in
the way (`Climbs.settled`). So the names that some names lead to are found to the last one
(`mem_closure`).
-/

namespace AvroTree

namespace Grammar

/-! ## Repeated steps -/

section Settle

variable {α : Type} {P : α → Prop} {size : α → Nat} {bound : Nat} {step : α → α}

/-- Among the things that satisfy `P` a step makes everything larger that it changes, and none of
them is larger than `bound`. -/
structure Climbs (P : α → Prop) (size : α → Nat) (bound : Nat) (step : α → α) : Prop where
  keeps : ∀ x, P x → P (step x)
  le : ∀ x, P x → size x ≤ bound
  lt : ∀ x, P x → step x ≠ x → size x < size (step x)

/-- Where nothing changes any more it makes no difference to stop. -/
theorem settle_eq_iterate [DecidableEq α] (step : α → α) : ∀ (n : Nat) (x : α),
    settle step n x = step^[n] x
  | 0, _ => rfl
  | n + 1, x => by
    rw [settle, Function.iterate_succ_apply]
    split
    · rename_i h
      rw [h, Function.iterate_fixed h]
    · exact settle_eq_iterate step n (step x)

/-- As many steps as there is room for growth are enough. -/
theorem Climbs.settled (h : Climbs P size bound step) : ∀ {n : Nat} {x : α}, P x →
    bound ≤ size x + n → step (step^[n] x) = step^[n] x
  | 0, x, hx, hn => by
    by_contra hne
    have hlt := h.lt x hx hne
    have hle := h.le _ (h.keeps x hx)
    omega
  | n + 1, x, hx, hn => by
    rw [Function.iterate_succ_apply]
    by_cases hfix : step x = x
    · rw [hfix, Function.iterate_fixed hfix, hfix]
    · have hlt := h.lt x hx hfix
      exact h.settled (h.keeps x hx) (by omega)

end Settle

/-! ## Growing lists of names -/

section Names

variable {known new : List String} {name : String}

theorem addNames_cons (known new : List String) (name : String) : addNames known (name :: new)
    = addNames (if known.contains name then known else known ++ [name]) new :=
  rfl

theorem prefix_addNames (known new : List String) : known <+: addNames known new := by
  induction new generalizing known with
  | nil => exact List.prefix_rfl
  | cons y new ih =>
    rw [addNames_cons]
    split
    · exact ih known
    · exact (List.prefix_append known [y]).trans (ih _)

theorem mem_addNames : name ∈ addNames known new ↔ name ∈ known ∨ name ∈ new := by
  induction new generalizing known with
  | nil => simp [addNames]
  | cons y new ih =>
    rw [addNames_cons, ih, List.mem_cons]
    split
    · rename_i hy
      rw [List.contains_iff_mem] at hy
      exact ⟨Or.imp_right .inr, fun h => h.elim .inl fun h => h.elim (fun h => .inl (h ▸ hy)) .inr⟩
    · rw [List.mem_append, List.mem_singleton, or_assoc]

theorem addNames_nodup (h : known.Nodup) : (addNames known new).Nodup := by
  induction new generalizing known with
  | nil => exact h
  | cons y new ih =>
    rw [addNames_cons]
    split
    · exact ih h
    · rename_i hy
      rw [List.contains_iff_mem] at hy
      exact ih (List.nodup_append.2 ⟨h, List.nodup_singleton y, by
        simpa using fun a ha => ne_of_mem_of_not_mem ha hy⟩)

/-- Adding names to a list that must not repeat any, nor hold others than those of `pool`. -/
theorem addNames_climbs {P : List String → Prop} (pool : List String)
    (news : List String → List String)
    (hnodup : ∀ l, P l → l.Nodup) (hpool : ∀ l, P l → ∀ x ∈ l, x ∈ pool)
    (hkeeps : ∀ l, P l → P (addNames l (news l))) :
    Climbs P List.length pool.length fun l => addNames l (news l) where
  keeps := hkeeps
  le l hl := (List.subperm_of_subset (hnodup l hl) (hpool l hl)).length_le
  lt l _ hne := by
    have hfront := prefix_addNames l (news l)
    refine lt_of_le_of_ne hfront.length_le fun hlen => hne ?_
    exact (hfront.eq_of_length hlen).symm

end Names

/-! ## The names that others lead to -/

variable {g : Grammar} {next : String → List String} {start : List String} {name : String}

/-- All references of all rules. -/
def references (g : Grammar) : List String :=
  g.rules.flatMap fun e => e.2.symbols

theorem mem_references : name ∈ g.references ↔ ∃ e ∈ g.rules, name ∈ e.2.symbols :=
  List.mem_flatMap

theorem symbolCount_eq (g : Grammar) : g.symbolCount = g.references.length :=
  rfl

/-- A list of names on the way to the closure of `start`. -/
structure Reaches (g : Grammar) (next : String → List String) (start l : List String) : Prop where
  nodup : l.Nodup
  init : ∀ x ∈ addNames [] start, x ∈ l
  pool : ∀ x ∈ l, x ∈ addNames [] start ++ g.references
  chain : ∀ x ∈ l, ∃ root ∈ start, Relation.ReflTransGen (fun a b => b ∈ next a) root x

theorem Reaches.base : g.Reaches next start (addNames [] start) where
  nodup := addNames_nodup List.nodup_nil
  init _ hx := hx
  pool _ hx := List.mem_append_left _ hx
  chain x hx := ⟨x, (mem_addNames.1 hx).resolve_left List.not_mem_nil, .refl⟩

theorem Reaches.step {l : List String} (h : g.Reaches next start l)
    (hnext : ∀ a, ∀ b ∈ next a, b ∈ g.references) :
    g.Reaches next start (addNames l (l.flatMap next)) where
  nodup := addNames_nodup h.nodup
  init x hx := mem_addNames.2 (.inl (h.init x hx))
  pool x hx := by
    rcases mem_addNames.1 hx with hx | hx
    · exact h.pool x hx
    · obtain ⟨a, -, hx⟩ := List.mem_flatMap.1 hx
      exact List.mem_append_right _ (hnext a x hx)
  chain x hx := by
    rcases mem_addNames.1 hx with hx | hx
    · exact h.chain x hx
    · obtain ⟨a, ha, hx⟩ := List.mem_flatMap.1 hx
      obtain ⟨root, hroot, hchain⟩ := h.chain a ha
      exact ⟨root, hroot, hchain.tail hx⟩

/-- The names found are those that a chain of references leads to. -/
theorem mem_closure (hnext : ∀ a, ∀ b ∈ next a, b ∈ g.references) (start : List String)
    (name : String) : name ∈ g.closure next start ↔
      ∃ root ∈ start, Relation.ReflTransGen (fun a b => b ∈ next a) root name := by
  have hclimbs := addNames_climbs (P := g.Reaches next start) _ (fun l => l.flatMap next)
    (fun l hl => hl.nodup) (fun l hl => hl.pool) fun l hl => hl.step hnext
  have hfix := hclimbs.settled (n := g.symbolCount + 1) .base (by
    rw [List.length_append, symbolCount_eq]
    omega)
  have hend := settle_keeps hclimbs.keeps (g.symbolCount + 1) (.base : g.Reaches next start _)
  rw [settle_eq_iterate] at hend
  rw [closure, settle_eq_iterate]
  refine ⟨hend.chain name, ?_⟩
  rintro ⟨root, hroot, hchain⟩
  induction hchain with
  | refl => exact hend.init _ (mem_addNames.2 (.inr hroot))
  | tail _ hstep ih =>
    rw [← hfix]
    exact mem_addNames.2 (.inr (List.mem_flatMap.2 ⟨_, ih, hstep⟩))

end Grammar

end AvroTree
