import AvroTree.Grammar.Avro
import AvroTree.Proofs.TokenShape

/-!
# What first sets hold

The rounds that find the first sets of a grammar never put in a token that no rule names
(`compile_avoids`). So no construct of Avro starts with the end of the text.
-/

namespace AvroTree

namespace TokenSet

@[simp]
theorem contains_empty (k : Token.Kind) : empty.contains k = false := by
  show (BitVec.ofNat Token.Kind.count 0).getLsbD k.index = false
  simp

@[simp]
theorem contains_union (s t : TokenSet) (k : Token.Kind) :
    (s ∪ t).contains k = (s.contains k || t.contains k) :=
  BitVec.getLsbD_or

end TokenSet

namespace Grammar

/-- Repeating a step keeps what the step keeps. -/
theorem settle_keeps {α : Type} [DecidableEq α] {P : α → Prop} {step : α → α}
    (h : ∀ x, P x → P (step x)) : ∀ (n : Nat) {x : α}, P x → P (settle step n x)
  | 0, _, hx => hx
  | n + 1, x, hx => by
    unfold settle
    split
    · exact hx
    · exact settle_keeps h n (h x hx)

/-- Some rules name no token of the same index as `k`. -/
def Spares (k : Token.Kind) (parts : List Rule) : Prop :=
  ∀ kind ∈ parts.filterMap Rule.leaf?, kind.index ≠ k.index

namespace Spares

variable {k : Token.Kind} {r : Rule} {rs ps : List Rule}

theorem tail (h : Spares k (r :: rs)) : Spares k rs := by
  intro kind hkind
  refine h kind ?_
  rw [List.filterMap_cons]
  split
  · exact hkind
  · exact List.mem_cons_of_mem _ hkind

theorem append (h : Spares k (rs ++ ps)) : Spares k rs ∧ Spares k ps := by
  unfold Spares at h ⊢
  rw [List.filterMap_append] at h
  exact ⟨fun kind hk => h kind (List.mem_append_left _ hk),
    fun kind hk => h kind (List.mem_append_right _ hk)⟩

end Spares

namespace Table

/-- Nothing known to start with `k`. -/
def Avoids (k : Token.Kind) (t : Table) : Prop :=
  ∀ e ∈ t.entries, e.2.tokens.contains k = false

variable {k : Token.Kind} {t : Table}

theorem Avoids.get (h : t.Avoids k) (name : String) : (t.get name).tokens.contains k = false := by
  unfold Table.get
  cases hl : t.entries.lookup name with
  | none => exact TokenSet.contains_empty k
  | some f =>
    obtain ⟨front, back, heq, -⟩ := List.lookup_eq_some_iff.1 hl
    exact h (name, f) (by rw [heq]; simp)

mutual

/-- What a rule starts with is a token it names, or comes from the table. -/
theorem Avoids.ofRule (h : t.Avoids k) : ∀ r : Rule, Spares k r.parts →
    (t.ofRule r).tokens.contains k = false
  | .token kind, hr => by
    have hkind : kind.index ≠ k.index := hr kind (by simp [Rule.parts, Rule.leaf?])
    show (TokenSet.single kind).contains k = false
    rw [TokenSet.contains_single]
    exact decide_eq_false hkind.symm
  | .symbol name, _ => h.get name
  | .seq members, hr => Avoids.ofSeq h members hr.tail
  | .choice members, hr => Avoids.ofChoice h members hr.tail
  | .many inner, hr => Avoids.ofRule h inner hr.tail
  | .many1 inner, hr => Avoids.ofRule h inner hr.tail
  | .optional inner, hr => Avoids.ofRule h inner hr.tail
  | .field _ inner, hr => Avoids.ofRule h inner hr.tail
  | .renamed inner _, hr => Avoids.ofRule h inner hr.tail

theorem Avoids.ofSeq (h : t.Avoids k) : ∀ rs : List Rule, Spares k (Rule.partsList rs) →
    (t.ofSeq rs).tokens.contains k = false
  | [], _ => TokenSet.contains_empty k
  | r :: rs, hr => by
    have hfirst := Avoids.ofRule h r hr.append.1
    have hrest := Avoids.ofSeq h rs hr.append.2
    unfold Table.ofSeq First.andThen
    split
    · rw [TokenSet.contains_union, hfirst, hrest]
      rfl
    · exact hfirst

theorem Avoids.ofChoice (h : t.Avoids k) : ∀ rs : List Rule, Spares k (Rule.partsList rs) →
    (t.ofChoice rs).tokens.contains k = false
  | [], _ => TokenSet.contains_empty k
  | r :: rs, hr => by
    have hfirst := Avoids.ofRule h r hr.append.1
    have hrest := Avoids.ofChoice h rs hr.append.2
    unfold Table.ofChoice First.or
    rw [TokenSet.contains_union, hfirst, hrest]
    rfl

end

theorem Avoids.refine {g : Grammar} (h : t.Avoids k)
    (hg : ∀ name, Spares k (Rule.partsList (g.bodies name))) : (Table.refine g t).Avoids k := by
  intro e he
  obtain ⟨⟨name, old⟩, hold, rfl⟩ := List.mem_map.1 he
  show (old.or (t.ofChoice (g.bodies name))).tokens.contains k = false
  unfold First.or
  rw [TokenSet.contains_union, h _ hold, h.ofChoice _ (hg name)]
  rfl

theorem blank_avoids (g : Grammar) (k : Token.Kind) : (blank g).Avoids k := by
  intro e he
  obtain ⟨name, -, rfl⟩ := List.mem_map.1 he
  exact TokenSet.contains_empty k

end Table

theorem mem_partsList {p : Rule} : ∀ {rs : List Rule}, p ∈ Rule.partsList rs ↔ ∃ r ∈ rs, p ∈ r.parts
  | [] => by simp [Rule.partsList]
  | r :: rs => by simp [Rule.partsList, mem_partsList]

/-- A first set holds no token that the rules do not name. -/
theorem compile_avoids (g : Grammar) (k : Token.Kind)
    (h : Spares k (Rule.partsList (g.rules.map (·.2)))) (name : String) :
    (g.compile.first name).contains k = false := by
  have hbodies (name : String) : Spares k (Rule.partsList (g.bodies name)) := by
    intro kind hkind
    obtain ⟨p, hp, hleaf⟩ := List.mem_filterMap.1 hkind
    obtain ⟨r, hr, hp⟩ := mem_partsList.1 hp
    obtain ⟨e, he, rfl⟩ := List.mem_map.1 hr
    refine h kind (List.mem_filterMap.2 ⟨p, mem_partsList.2 ⟨e.2, ?_, hp⟩, hleaf⟩)
    exact List.mem_map_of_mem (List.mem_of_mem_filter he)
  have hcompile : g.compile.Avoids k :=
    settle_keeps (fun t ht => ht.refine hbodies) _ (Table.blank_avoids g k)
  exact hcompile.get name

theorem avro_spares_eof : Spares .eof (Rule.partsList (avro.rules.map (·.2))) := by
  unfold Spares
  decide +kernel

/-- Nothing in Avro starts with the end of the text. -/
theorem first_eof (name : String) : (avroTable.first name).contains .eof = false :=
  compile_avoids avro .eof avro_spares_eof name

end Grammar

end AvroTree
