import AvroTree.Proofs.Lossless

/-!
# Where nodes and complaints stand

Every node of a tree stands between two characters of its text, around its children and behind its
neighbours, and every complaint names such a place. Complaints come in the order of the text.
-/

namespace AvroTree

namespace Location.Within

variable {text : String} {l : Location}

theorem le_size (h : Within text.toList l) : l.byte ≤ text.utf8ByteSize := by
  rw [Text.utf8ByteSize_eq]
  exact h.byte_le

theorem isBoundary (h : Within text.toList l) : Text.isBoundary text l.byte := by
  obtain ⟨pre, rest, htext, rfl⟩ := h
  rw [Text.isBoundary, htext, behind_byte, Text.dropBytes?_append]
  rfl

theorem point_eq (h : Within text.toList l) : l.point = Point.ofOffset text l.byte := by
  obtain ⟨pre, rest, htext, rfl⟩ := h
  rw [behind_byte]
  exact (congrArg Location.point (ofOffset_append htext)).symm

end Location.Within

namespace Parse

theorem mem_sortByOffset {d : Diagnostic} {l : List Diagnostic} : d ∈ sortByOffset l ↔ d ∈ l :=
  List.mem_mergeSort

theorem sortByOffset_pairwise (l : List Diagnostic) :
    (sortByOffset l).Pairwise fun d e => d.offset.getD 0 ≤ e.offset.getD 0 := by
  have hsorted := @List.pairwise_mergeSort Diagnostic
    (fun d e => decide (d.offset.getD 0 ≤ e.offset.getD 0))
    (fun a b c hab hbc => by
      simp only [decide_eq_true_eq] at hab hbc ⊢
      exact hab.trans hbc)
    (fun a b => by
      simp only [Bool.or_eq_true, decide_eq_true_eq]
      exact Nat.le_total _ _) l
  exact hsorted.imp of_decide_eq_true

end Parse

/-- A tree passes its own check. Its nodes start and stop between characters of the text, in this
order, and their points are those of their bytes. Its complaints come in the order of their offsets,
which fall between characters too, and their lines and columns are those of their offsets, counting
from one. -/
theorem parse_positions {config : Parse.Config} {text : String} {tree : Tree}
    (h : parse config text = .ok tree) :
    tree.root.check = .ok ()
      ∧ (∀ n ∈ tree.root.descendants,
        n.span.start.byte ≤ n.span.stop.byte ∧ n.span.stop.byte ≤ text.utf8ByteSize
          ∧ Text.isBoundary text n.span.start.byte ∧ Text.isBoundary text n.span.stop.byte
          ∧ n.span.start.point = Point.ofOffset text n.span.start.byte
          ∧ n.span.stop.point = Point.ofOffset text n.span.stop.byte)
      ∧ tree.diagnostics.Pairwise (fun d e => d.offset.getD 0 ≤ e.offset.getD 0)
      ∧ ∀ d ∈ tree.diagnostics, ∃ offset, d.offset = some offset ∧ offset ≤ text.utf8ByteSize
        ∧ Text.isBoundary text offset
        ∧ d.line = some ((Point.ofOffset text offset).row + 1)
        ∧ d.column = some ((Point.ofOffset text offset).column + 1) := by
  obtain ⟨mode, s, htree, hgrew, -, -⟩ := Parse.parse_made h
  have hgood : tree.root.Good text.toList := hgrew.good (List.mem_singleton_self _)
  have hdiagnostics : tree.diagnostics
      = Parse.sortByOffset (s.lexical.toList ++ s.syntactic.toList) := by
    rw [htree]
    rfl
  refine ⟨Node.check_of_good tree.root hgood, fun n hn => ?_, ?_, fun d hd => ?_⟩
  · have hplaced := hgood n hn
    exact ⟨hplaced.le, hplaced.stop.le_size, hplaced.start.isBoundary, hplaced.stop.isBoundary,
      hplaced.start.point_eq, hplaced.stop.point_eq⟩
  · rw [hdiagnostics]
    exact Parse.sortByOffset_pairwise _
  · rw [hdiagnostics, Parse.mem_sortByOffset, List.mem_append] at hd
    have hpoints : d.PointsInto text.toList := by
      rcases hd with hd | hd
      · exact hgrew.ordered.lexical d hd
      · exact hgrew.ordered.syntactic d hd
    obtain ⟨category, message, l, hl, rfl⟩ := hpoints
    refine ⟨l.byte, rfl, hl.le_size, hl.isBoundary, ?_, ?_⟩
    · rw [← hl.point_eq]
      rfl
    · rw [← hl.point_eq]
      rfl

theorem parse_positions_unclosed :
    let text := "// é\nenum E \x7b A ; \"open"
    ∃ tree, parse {} text = .ok tree ∧ tree.root.descendants.length = 12
      ∧ tree.diagnostics.length = 3 ∧ tree.root.check = .ok ()
      ∧ (∀ n ∈ tree.root.descendants,
        n.span.start.byte ≤ n.span.stop.byte ∧ n.span.stop.byte ≤ text.utf8ByteSize
          ∧ Text.isBoundary text n.span.start.byte ∧ Text.isBoundary text n.span.stop.byte
          ∧ n.span.start.point = Point.ofOffset text n.span.start.byte
          ∧ n.span.stop.point = Point.ofOffset text n.span.stop.byte)
      ∧ tree.diagnostics.Pairwise (fun d e => d.offset.getD 0 ≤ e.offset.getD 0)
      ∧ ∀ d ∈ tree.diagnostics, ∃ offset, d.offset = some offset ∧ offset ≤ text.utf8ByteSize
        ∧ Text.isBoundary text offset
        ∧ d.line = some ((Point.ofOffset text offset).row + 1)
        ∧ d.column = some ((Point.ofOffset text offset).column + 1) := by
  obtain ⟨tree, h, -, hnodes, hdiagnostics⟩ := Parse.parse_unclosed
  exact ⟨tree, h, hnodes, hdiagnostics, parse_positions h⟩

end AvroTree
