import AvroTree.Proofs.NodeLayout

/-!
# What the check of a tree certifies

`Node.check` compares neighbours only: a node with its first and its last child, and each child with
the next. In a tree whose leaves do not end before they start this puts every node inside all nodes
above it (`Checked.inside`) and the leaves behind one another (`Checked.leaves`), in the order in
which a walk with a stack comes to them (`walk_eq_forest`).
-/

namespace AvroTree

namespace Node

/-! ## Walks -/

/-- One step of a walk. The node on top of the stack is visited and its children take its place, the
first of them on top. -/
def visit? : List Node → Option (Node × List Node)
  | [] => none
  | n :: stack => some (n, n.children ++ stack)

theorem forest_of_visit? {n : Node} {stack stack' : List Node}
    (h : visit? stack = some (n, stack')) : forest stack = n :: forest stack' := by
  cases stack with
  | nil => cases h
  | cons m stack =>
    cases h
    rw [forest, descendants_eq, forest_append, List.cons_append]

/-- The nodes that a walk visits until its stack is empty. -/
def walk (stack : List Node) : List Node :=
  match h : visit? stack with
  | none => []
  | some (n, stack') =>
    have : (forest stack').length < (forest stack).length := by
      rw [forest_of_visit? h]
      exact Nat.lt_succ_self _
    n :: walk stack'
termination_by (forest stack).length

/-- A walk visits parents before children and first children first. -/
theorem walk_eq_forest (stack : List Node) : walk stack = forest stack := by
  fun_induction walk stack with
  | case1 stack h =>
    cases stack with
    | nil => rfl
    | cons n stack => cases h
  | case2 stack n stack' h _ ih => rw [forest_of_visit? h, ih]

/-! ## Trees that pass -/

def isLeaf (n : Node) : Bool :=
  n.children.isEmpty

theorem self_mem (n : Node) : n ∈ n.descendants := by
  rw [descendants_eq]
  exact List.mem_cons_self

theorem forest_eq_flatMap (ns : List Node) : forest ns = ns.flatMap descendants := by
  induction ns with
  | nil => rfl
  | cons n ns ih => rw [forest, ih, List.flatMap_cons]

mutual

/-- What holds of every node whose children it holds of. -/
theorem induct {P : Node → Prop} (step : ∀ n : Node, (∀ c ∈ n.children, P c) → P n) :
    ∀ n, P n
  | ⟨kind, span, field, children, isExtra, isMissing⟩ =>
    step ⟨kind, span, field, children, isExtra, isMissing⟩ (inductAll step children)

theorem inductAll {P : Node → Prop} (step : ∀ n : Node, (∀ c ∈ n.children, P c) → P n)
    (ns : List Node) : ∀ c ∈ ns, P c := by
  cases ns with
  | nil => exact List.forall_mem_nil _
  | cons n ns => exact List.forall_mem_cons.2 ⟨induct step n, inductAll step ns⟩

end

theorem descendants_trans {a d e : Node} (hd : d ∈ a.descendants) (he : e ∈ d.descendants) :
    e ∈ a.descendants := by
  induction a using induct with
  | step a ih =>
    rw [descendants_eq, List.mem_cons, mem_forest] at hd
    rcases hd with rfl | ⟨c, hc, hd⟩
    · exact he
    · rw [descendants_eq, List.mem_cons, mem_forest]
      exact .inr ⟨c, hc, ih c hc hd⟩

/-- A node that the check lets pass, with everything beneath it. Of its leaves none ends before it
starts. -/
structure Checked (n : Node) : Prop where
  here : ∀ d ∈ n.descendants, d.checkHere = .ok ()
  leaf : ∀ d ∈ n.descendants, d.children = [] → d.span.start.byte ≤ d.span.stop.byte

/-- One node lies inside another and does not end before it starts. -/
structure Inside (d n : Node) : Prop where
  start : n.span.start.byte ≤ d.span.start.byte
  le : d.span.start.byte ≤ d.span.stop.byte
  stop : d.span.stop.byte ≤ n.span.stop.byte

variable {n d : Node} {ns : List Node}

mutual

theorem here_of_check : ∀ {n : Node}, n.check = .ok () →
    ∀ d ∈ n.descendants, d.checkHere = .ok ()
  | ⟨kind, span, field, children, isExtra, isMissing⟩, h => by
    rw [check] at h
    cases hhere : checkHere ⟨kind, span, field, children, isExtra, isMissing⟩ with
    | error e =>
      rw [hhere] at h
      cases h
    | ok =>
      rw [hhere] at h
      exact List.forall_mem_cons.2 ⟨hhere, here_of_checkAll h⟩

theorem here_of_checkAll : ∀ {ns : List Node}, checkAll ns = .ok () →
    ∀ d ∈ forest ns, d.checkHere = .ok ()
  | [], _ => fun _ hd => nomatch hd
  | n :: ns, h => by
    rw [checkAll] at h
    cases hn : n.check with
    | error e =>
      rw [hn] at h
      cases h
    | ok =>
      rw [hn] at h
      exact List.forall_mem_append.2 ⟨here_of_check hn, here_of_checkAll h⟩

end

namespace Checked

theorem down (h : n.Checked) (hd : d ∈ n.descendants) : d.Checked where
  here e he := h.here e (descendants_trans hd he)
  leaf e he := h.leaf e (descendants_trans hd he)

theorem child (h : n.Checked) (hd : d ∈ n.children) : d.Checked := by
  refine h.down ?_
  rw [descendants_eq, List.mem_cons, mem_forest]
  exact .inr ⟨d, hd, d.self_mem⟩

end Checked

/-- Neighbours that do not overlap stand behind one another, however far apart they are. -/
theorem pairwise_of_overlap? : ∀ {ns : List Node}, overlap? ns = none →
    (∀ n ∈ ns, n.span.start.byte ≤ n.span.stop.byte) →
    ns.Pairwise fun a b => a.span.stop.byte ≤ b.span.start.byte
  | [], _, _ => .nil
  | [n], _, _ => List.pairwise_singleton _ n
  | a :: b :: ns, h, hle => by
    rw [overlap?] at h
    split_ifs at h with hab
    have hrest := pairwise_of_overlap? h fun n hn => hle n (List.mem_cons_of_mem a hn)
    have hb := hle b (List.mem_cons_of_mem a List.mem_cons_self)
    refine List.pairwise_cons.2 ⟨List.forall_mem_cons.2 ⟨Nat.not_lt.1 hab, fun c hc => ?_⟩, hrest⟩
    exact (Nat.not_lt.1 hab).trans (hb.trans ((List.pairwise_cons.1 hrest).1 c hc))

/-- A node that passes goes from the start of its first child to the stop of its last. -/
theorem ends_of_checkHere (h : n.checkHere = .ok ()) (hc : d ∈ n.children) :
    overlap? n.children = none ∧ ∃ first last, n.children.head? = some first
      ∧ n.children.getLast? = some last ∧ first.span.start.byte = n.span.start.byte
      ∧ last.span.stop.byte = n.span.stop.byte := by
  have hne := List.ne_nil_of_mem hc
  have hfirst := List.head?_eq_some_head hne
  have hlast := List.getLast?_eq_some_getLast hne
  rw [checkHere, spans, hfirst, hlast] at h
  split_ifs at h with hspans
  · simp only [Bool.and_eq_true, beq_iff_eq] at hspans
    refine ⟨?_, _, _, hfirst, hlast, hspans.1, hspans.2⟩
    cases hover : overlap? n.children with
    | none => rfl
    | some c =>
      rw [hover] at h
      cases h

/-- The children of a node that passes lie inside it, one behind the other. -/
theorem children_of_checkHere (h : n.checkHere = .ok ())
    (hle : ∀ c ∈ n.children, c.span.start.byte ≤ c.span.stop.byte) :
    (∀ c ∈ n.children, c.Inside n)
      ∧ n.children.Pairwise fun a b => a.span.stop.byte ≤ b.span.start.byte := by
  rcases eq_or_ne n.children [] with hnil | hne
  · rw [hnil]
    exact ⟨fun _ hc => (List.not_mem_nil hc).elim, .nil⟩
  obtain ⟨c, hc⟩ := List.exists_mem_of_ne_nil _ hne
  obtain ⟨hover, first, last, hfirst, hlast, hstart, hstop⟩ := ends_of_checkHere h hc
  have hrow := pairwise_of_overlap? hover hle
  refine ⟨fun c hc => ⟨?_, hle c hc, ?_⟩, hrow⟩
  · obtain ⟨rest, hrest⟩ := List.head?_eq_some_iff.1 hfirst
    rw [hrest] at hc hrow hle
    rw [← hstart]
    rcases List.mem_cons.1 hc with rfl | hc
    · exact le_rfl
    · exact (hle first List.mem_cons_self).trans ((List.pairwise_cons.1 hrow).1 c hc)
  · obtain ⟨front, hfront⟩ := List.getLast?_eq_some_iff.1 hlast
    rw [hfront] at hc hrow hle
    rw [← hstop]
    have hlast := hle last (List.mem_append_right front (List.mem_singleton_self last))
    rcases List.mem_append.1 hc with hc | hc
    · exact ((List.pairwise_append.1 hrow).2.2 c hc last (List.mem_singleton_self last)).trans hlast
    · rw [List.mem_singleton.1 hc]

namespace Checked

theorem inside (h : n.Checked) : ∀ d ∈ n.descendants, d.Inside n := by
  induction n using induct with
  | step n ih =>
    have hle (c : Node) (hc : c ∈ n.children) : c.span.start.byte ≤ c.span.stop.byte :=
      (ih c hc (h.child hc) c c.self_mem).le
    obtain ⟨hchildren, -⟩ := children_of_checkHere (h.here n n.self_mem) hle
    intro d hd
    rw [descendants_eq, List.mem_cons, mem_forest] at hd
    rcases hd with rfl | ⟨c, hc, hd⟩
    · refine ⟨le_rfl, ?_, le_rfl⟩
      rcases eq_or_ne d.children [] with hnil | hne
      · exact h.leaf d d.self_mem hnil
      · obtain ⟨c, hc⟩ := List.exists_mem_of_ne_nil _ hne
        have hin := hchildren c hc
        exact hin.start.trans (hin.le.trans hin.stop)
    · have hin := hchildren c hc
      have hdown := ih c hc (h.child hc) d hd
      exact ⟨hin.start.trans hdown.start, hdown.le, hdown.stop.trans hin.stop⟩

theorem leaves (h : n.Checked) :
    (n.descendants.filter isLeaf).Pairwise fun a b => a.span.stop.byte ≤ b.span.start.byte := by
  induction n using induct with
  | step n ih =>
    rw [descendants_eq, List.filter_cons, forest_eq_flatMap, List.filter_flatMap]
    split_ifs with hleaf
    · rw [List.isEmpty_iff.1 hleaf]
      exact List.pairwise_singleton _ n
    have hle (c : Node) (hc : c ∈ n.children) : c.span.start.byte ≤ c.span.stop.byte :=
      ((h.child hc).inside c c.self_mem).le
    obtain ⟨-, hrow⟩ := children_of_checkHere (h.here n n.self_mem) hle
    refine List.pairwise_flatMap.2 ⟨fun c hc => ih c hc (h.child hc), ?_⟩
    refine hrow.imp_of_mem fun {c d} hc hd hcd a ha b hb => ?_
    have hain := (h.child hc).inside a (List.mem_of_mem_filter ha)
    have hbin := (h.child hd).inside b (List.mem_of_mem_filter hb)
    exact hain.stop.trans (hcd.trans hbin.start)

end Checked

/-- A tree that passes its check, with no leaf that ends before it starts, is in order. A walk comes
to its nodes from the top down and from the first child to the last, each node lies inside all those
above it, and the leaves stand behind one another. -/
theorem check_certifies {n : Node}
    (hleaf : ∀ d ∈ n.descendants, d.children = [] → d.span.start.byte ≤ d.span.stop.byte)
    (h : n.check = .ok ()) :
    walk [n] = n.descendants
      ∧ (∀ a ∈ n.descendants, ∀ d ∈ a.descendants, d.Inside a)
      ∧ ((walk [n]).filter isLeaf).Pairwise fun a b =>
        a.span.stop.byte ≤ b.span.start.byte ∧ a.span.start.byte ≤ b.span.start.byte
          ∧ a.span.stop.byte ≤ b.span.stop.byte := by
  have hn : n.Checked := ⟨here_of_check h, hleaf⟩
  have hwalk : walk [n] = n.descendants := by
    rw [walk_eq_forest, forest_singleton, descendants_eq]
  refine ⟨hwalk, fun a ha => (hn.down ha).inside, ?_⟩
  rw [hwalk]
  refine hn.leaves.imp_of_mem fun {a b} ha hb hab => ⟨hab, ?_, ?_⟩
  · exact (hn.inside a (List.mem_of_mem_filter ha)).le.trans hab
  · exact hab.trans (hn.inside b (List.mem_of_mem_filter hb)).le

/-- A node over two, the first over three of which the second has no width. -/
theorem check_certifies_missing :
    let node (start stop : Nat) (children : List Node) : Node :=
      { kind := .typeList, span := ⟨⟨start, {}⟩, ⟨stop, {}⟩⟩, children }
    let n := node 0 5 [node 0 3 [node 0 1 [], node 1 1 [], node 2 3 []], node 3 5 []]
    n.check = .ok () ∧ (node 1 1 []).Inside n
      ∧ [node 0 1 [], node 1 1 [], node 2 3 [], node 3 5 []].Pairwise fun a b =>
        a.span.stop.byte ≤ b.span.start.byte ∧ a.span.start.byte ≤ b.span.start.byte
          ∧ a.span.stop.byte ≤ b.span.stop.byte := by
  intro node n
  have h : n.check = .ok () := rfl
  have hleaf : ∀ d ∈ n.descendants, d.children = [] → d.span.start.byte ≤ d.span.stop.byte := by
    decide
  obtain ⟨hwalk, hinside, hleaves⟩ := check_certifies hleaf h
  rw [hwalk] at hleaves
  exact ⟨h, hinside n n.self_mem (node 1 1 []) (by decide), hleaves⟩

end Node

end AvroTree
