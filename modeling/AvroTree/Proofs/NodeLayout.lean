import AvroTree.Proofs.Places
import AvroTree.Tree.Check

/-!
# Nodes laid along a text

A row of nodes is laid from one byte to another when each node starts where the one before it has
ended, or later, and everything beneath it is in place (`Laid`). Wrapping the nodes of a row into
one keeps the row laid (`Laid.wrap`) and keeps the tokens it shows (`marks_wrap`).
-/

namespace AvroTree

open Location (Within)

namespace Node

/-! ## The tokens that nodes show -/

/-- A node that stands for a token: it has no children, is not missing and has some text. -/
def isToken (n : Node) : Bool :=
  n.children.isEmpty && !n.isMissing && !n.span.isEmpty

/-- What a node for a token tells of it: where it stands, and whether it is a comment. -/
def mark (n : Node) : Span × Bool :=
  (n.span, n.isExtra)

/-- The tokens that some nodes and everything beneath them stand for, in order. -/
def marks (ns : List Node) : List (Span × Bool) :=
  ((forest ns).filter isToken).map mark

theorem forest_append : ∀ ns ms : List Node, forest (ns ++ ms) = forest ns ++ forest ms
  | [], _ => rfl
  | n :: ns, ms => by
    simp only [List.cons_append, forest, forest_append ns ms, List.append_assoc]

theorem descendants_eq (n : Node) : n.descendants = n :: forest n.children := by
  cases n
  rfl

theorem forest_singleton (n : Node) : forest [n] = n :: forest n.children := by
  simp only [forest, descendants_eq, List.append_nil]

theorem mem_forest {d : Node} : ∀ {ns : List Node}, d ∈ forest ns ↔ ∃ n ∈ ns, d ∈ n.descendants
  | [] => by simp [forest]
  | n :: ns => by simp [forest, mem_forest]

@[simp]
theorem marks_nil : marks [] = [] := rfl

@[simp]
theorem marks_append (ns ms : List Node) : marks (ns ++ ms) = marks ns ++ marks ms := by
  unfold marks
  rw [forest_append, List.filter_append, List.map_append]

theorem marks_singleton (n : Node) :
    marks [n] = (if n.isToken then [n.mark] else []) ++ marks n.children := by
  unfold marks
  rw [forest_singleton, List.filter_cons]
  split <;> simp

/-- A node over others shows what they show. -/
theorem marks_wrap (kind : NodeKind) (ns : List Node) (place : Location) :
    marks [branch kind ns place] = marks ns := by
  have hself : isToken (branch kind ns place) = false := by
    cases ns with
    | nil => simp [isToken, branch, spanOf, Span.empty, Span.isEmpty]
    | cons n ns => simp [isToken, branch]
  rw [marks_singleton, hself]
  rfl

theorem marks_missing (kind : NodeKind) (place : Location) : marks [missing kind place] = [] := by
  simp [marks_singleton, isToken, missing]

theorem marks_leaf (kind : NodeKind) {t : Token} (h : t.span.start.byte < t.span.stop.byte) :
    marks [leaf kind t] = [(t.span, t.kind.isExtra)] := by
  have hne : (t.span.start.byte == t.span.stop.byte) = false := by
    rw [beq_eq_false_iff_ne]
    omega
  simp [marks_singleton, isToken, leaf, mark, Span.isEmpty, hne]

theorem marks_label (field : Option String) (n : Node) : marks [n.label field] = marks [n] := by
  cases field with
  | none => rfl
  | some f => simp [marks_singleton, label, isToken, mark]

/-! ## Nodes in place -/

/-- A node whose ends are places of the text and whose children reach from one to the other. -/
structure Placed (text : List Char) (n : Node) : Prop where
  start : Within text n.span.start
  stop : Within text n.span.stop
  le : n.span.start.byte ≤ n.span.stop.byte
  check : n.checkHere = .ok ()

/-- A node that is placed, with everything beneath it. -/
def Good (text : List Char) (n : Node) : Prop :=
  ∀ d ∈ n.descendants, d.Placed text

variable {text : List Char}

namespace Good

variable {n : Node}

theorem mk (h : n.Placed text) (hn : ∀ m ∈ n.children, m.Good text) : n.Good text := by
  intro d hd
  rw [descendants_eq, List.mem_cons, mem_forest] at hd
  rcases hd with rfl | ⟨m, hm, hd⟩
  · exact h
  · exact hn m hm d hd

theorem placed (h : n.Good text) : n.Placed text :=
  h n (by rw [descendants_eq]; exact List.mem_cons_self)

theorem children (h : n.Good text) {m : Node} (hm : m ∈ n.children) : m.Good text := by
  intro d hd
  refine h d ?_
  rw [descendants_eq, List.mem_cons, mem_forest]
  exact .inr ⟨m, hm, hd⟩

theorem of_childless (h : n.Placed text) (hn : n.children = []) : n.Good text :=
  mk h (by simp [hn])

theorem missing (kind : NodeKind) {place : Location} (h : Within text place) :
    (Node.missing kind place).Good text := by
  refine of_childless ⟨h, h, le_rfl, ?_⟩ rfl
  simp [checkHere, Node.missing, spans, overlap?]

theorem leaf (kind : NodeKind) {t : Token} (hstart : Within text t.span.start)
    (hstop : Within text t.span.stop) (hle : t.span.start.byte ≤ t.span.stop.byte) :
    (Node.leaf kind t).Good text := by
  refine of_childless ⟨hstart, hstop, hle, ?_⟩ rfl
  simp [checkHere, Node.leaf, spans, overlap?]

theorem label (h : n.Good text) (field : Option String) : (n.label field).Good text := by
  cases field with
  | none => exact h
  | some f =>
    have hp := h.placed
    exact mk ⟨hp.start, hp.stop, hp.le, hp.check⟩ fun m hm => h.children hm

end Good

mutual

/-- Nothing is found out of place in a good node. -/
theorem check_of_good : ∀ n : Node, n.Good text → n.check = .ok ()
  | ⟨kind, span, field, children, isExtra, isMissing⟩, h => by
    rw [check, h.placed.check]
    exact checkAll_of_good children fun m hm => h.children hm

theorem checkAll_of_good : ∀ ns : List Node, (∀ n ∈ ns, n.Good text) → checkAll ns = .ok ()
  | [], _ => rfl
  | n :: ns, h => by
    rw [checkAll, check_of_good n (h n List.mem_cons_self)]
    exact checkAll_of_good ns fun m hm => h m (List.mem_cons_of_mem n hm)

end

/-! ## Rows of nodes -/

/-- Nodes from byte `a` to byte `b`, one behind the other. -/
def Laid (text : List Char) : Nat → List Node → Nat → Prop
  | a, [], b => a ≤ b
  | a, n :: ns, b => a ≤ n.span.start.byte ∧ n.Good text ∧ Laid text n.span.stop.byte ns b

namespace Laid

variable {a b c : Nat} {n : Node} {ns ms : List Node} {place : Location}

theorem le : ∀ {a : Nat} {ns : List Node}, Laid text a ns b → a ≤ b
  | _, [], h => h
  | _, _ :: _, ⟨hstart, hgood, h⟩ => hstart.trans (hgood.placed.le.trans (le h))

theorem good : ∀ {a : Nat} {ns : List Node}, Laid text a ns b → ∀ n ∈ ns, n.Good text
  | _, [], _ => fun _ h => nomatch h
  | _, _ :: _, ⟨_, hgood, h⟩ => List.forall_mem_cons.2 ⟨hgood, good h⟩

theorem append_iff : ∀ {a : Nat} {ns : List Node},
    Laid text a (ns ++ ms) c ↔ ∃ b, Laid text a ns b ∧ Laid text b ms c
  | a, [] => ⟨fun h => ⟨a, le_refl a, h⟩, fun ⟨b, hab, h⟩ => by
      cases ms with
      | nil => exact Nat.le_trans hab h
      | cons m ms => exact ⟨Nat.le_trans hab h.1, h.2⟩⟩
  | a, n :: ns => by
    simp only [List.cons_append, Laid]
    rw [append_iff]
    constructor
    · rintro ⟨h1, h2, b, h3, h4⟩
      exact ⟨b, ⟨h1, h2, h3⟩, h4⟩
    · rintro ⟨b, ⟨h1, h2, h3⟩, h4⟩
      exact ⟨h1, h2, b, h3, h4⟩

theorem append (h : Laid text a ns b) (h' : Laid text b ms c) : Laid text a (ns ++ ms) c :=
  append_iff.2 ⟨b, h, h'⟩

/-- Every node of a row starts behind where the row starts. -/
theorem le_start (h : Laid text a ns b) (hn : n ∈ ns) : a ≤ n.span.start.byte := by
  obtain ⟨front, back, rfl⟩ := List.append_of_mem hn
  obtain ⟨c, hfront, hstart, -⟩ := append_iff.1 h
  exact hfront.le.trans hstart

/-- A row may be taken to stop where its last node does. -/
theorem upto_last (h : Laid text a ns b) (hn : ns.getLast? = some n) :
    Laid text a ns n.span.stop.byte := by
  obtain ⟨front, rfl⟩ := List.getLast?_eq_some_iff.1 hn
  obtain ⟨c, hfront, hstart, hgood, -⟩ := append_iff.1 h
  exact hfront.append ⟨hstart, hgood, le_rfl⟩

theorem overlap?_eq : ∀ {a : Nat} {ns : List Node}, Laid text a ns b → overlap? ns = none
  | _, [], _ => rfl
  | _, [_], _ => rfl
  | _, n :: m :: ns, ⟨_, _, h⟩ => by
    rw [overlap?, if_neg (Nat.not_lt.2 h.1)]
    exact overlap?_eq h

/-- A node over a row reaches from the start of the first node to the stop of the last. -/
theorem spanOf_eq {last : Node} (h : Laid text a (n :: ns) b)
    (hlast : (n :: ns).getLast? = some last) (place : Location) :
    spanOf (n :: ns) place = ⟨n.span.start, last.span.stop⟩ := by
  have hmem : last ∈ n :: ns := List.mem_of_getLast? hlast
  have hle : n.span.start.byte ≤ last.span.start.byte ∧ n.span.stop.byte ≤ last.span.stop.byte := by
    rcases List.mem_cons.1 hmem with rfl | hmem'
    · exact ⟨le_rfl, le_rfl⟩
    · have hstart := h.2.2.le_start hmem'
      have hn := h.2.1.placed.le
      have hl := (h.good last hmem).placed.le
      exact ⟨by omega, by omega⟩
  have hstop : (if n.span.stop.byte < last.span.stop.byte then last.span.stop else n.span.stop)
      = last.span.stop := by
    split
    · rfl
    · exact h.2.1.placed.stop.ext (h.good last hmem).placed.stop (by omega)
  unfold spanOf
  rw [hlast, List.head?_cons]
  simp only [Span.cover, hstop, Nat.not_lt.2 hle.1, ↓reduceIte]

theorem wrap_cons (kind : NodeKind) (h : Laid text a (n :: ns) b) (place : Location) :
    Laid text a [branch kind (n :: ns) place] b := by
  obtain ⟨last, hlast⟩ : ∃ last, (n :: ns).getLast? = some last :=
    ⟨_, List.getLast?_eq_some_getLast (List.cons_ne_nil n ns)⟩
  have hspan : (branch kind (n :: ns) place).span = ⟨n.span.start, last.span.stop⟩ :=
    h.spanOf_eq hlast place
  obtain ⟨front, hfront⟩ := List.getLast?_eq_some_iff.1 hlast
  have hgood := h.good last (List.mem_of_getLast? hlast)
  have hle : n.span.start.byte ≤ last.span.stop.byte := by
    have hrow : Laid text n.span.start.byte (n :: ns) last.span.stop.byte :=
      ⟨le_rfl, h.2.1, (h.upto_last hlast).2.2⟩
    exact hrow.le
  have hstop : last.span.stop.byte ≤ b := by
    rw [hfront] at h
    obtain ⟨c, -, -, -, hb⟩ := append_iff.1 h
    exact hb
  refine ⟨?_, Good.mk ⟨?_, ?_, ?_, ?_⟩ h.good, ?_⟩
  · rw [hspan]
    exact h.1
  · rw [hspan]
    exact h.2.1.placed.start
  · rw [hspan]
    exact hgood.placed.stop
  · rw [hspan]
    exact hle
  · have hover : overlap? (branch kind (n :: ns) place).children = none := h.overlap?_eq
    have hspans : (branch kind (n :: ns) place).spans := by
      unfold spans
      rw [hspan]
      simp [branch, hlast]
    unfold checkHere
    rw [if_pos hspans, hover]
  · rw [hspan]
    exact hstop

/-- Wrapping a row into one node; an empty one is put where the row stops. -/
theorem wrap (kind : NodeKind) (h : Laid text a ns place.byte) (hp : Within text place) :
    Laid text a [branch kind ns place] place.byte := by
  cases ns with
  | cons n ns => exact h.wrap_cons kind place
  | nil =>
    refine ⟨h, .of_childless ⟨hp, hp, le_rfl, ?_⟩ rfl, le_rfl⟩
    simp [checkHere, branch, spans, overlap?]

theorem label (h : Laid text a [n] b) (field : Option String) : Laid text a [n.label field] b := by
  cases field with
  | none => exact h
  | some f => exact ⟨h.1, h.2.1.label (some f), h.2.2⟩

end Laid

end Node

end AvroTree
