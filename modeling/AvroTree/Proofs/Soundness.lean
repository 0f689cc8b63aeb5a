import AvroTree.Proofs.IdlTaking
import AvroTree.Proofs.Lossless
import AvroTree.Proofs.SchemaTaking

/-!
# What parses without complaints

The constructs of both languages are put together here: the tokens of a text about which a parse
does not complain, comments apart, are derived from the rule its language starts at
(`parse_derives`).
-/

namespace AvroTree

open Token (Kind)
open Grammar (avro)

namespace Parse

open AvroTree.Parse.Parser

variable {config : Config} {text : String} {tree : Tree}

theorem start_sits (text : String) (maxDepth : Nat) (mode : Mode) :
    (Session.start text maxDepth mode none).Sits (Lexer.Config.ofDepth maxDepth).cap text.toList :=
  ⟨⟨_, start_stands fun _ h => nomatch h⟩, fun h => absurd rfl h⟩

theorem modeFor_cases (config : Config) (text : String) :
    modeFor config text = .json ∨ modeFor config text = .idl := by
  unfold modeFor
  split
  · exact .inl rfl
  · exact .inr rfl
  · simp only []
    split
    · exact .inl rfl
    · exact .inr rfl

/-- No complaints in a tree are no complaints in the session that has made it. -/
theorem diagnostics_eq_nil_iff {mode : Mode} {r : Node × Session} :
    (treeOf mode r).diagnostics = [] ↔ r.2.faults = 0 := by
  rw [← List.length_eq_zero_iff, length_diagnostics, Session.faults]

/-- What a parse without complaints has taken. -/
theorem parse_taken {L : List Token → Prop} (h : parse config text = .ok tree)
    (hclean : tree.diagnostics = [])
    (hroot : Spends (Lexer.Config.ofDepth config.maxDepth).cap text.toList Session.Anywhere
      (rootOf (modeFor config text)) L) :
    L ((tree.tokens.map (·.token)).filter fun t => !t.kind.isExtra) := by
  obtain ⟨s, hs, htree⟩ := parse_ok h
  rw [htree] at hclean
  obtain ⟨-, ts, htook, hl⟩ := hroot _ _ _ (start_sits _ _ _) trivial hs
  have hfaults : s.faults = 0 := diagnostics_eq_nil_iff.1 hclean
  have htaken : s.taken = ts := htook.taken
  rw [htree]
  show L s.taken
  rw [htaken]
  exact hl hfaults

end Parse

namespace Tree

/-- The kinds of the tokens of a tree, comments apart. -/
def kinds (t : Tree) : List Kind :=
  ((t.tokens.map (·.token)).filter fun t => !t.kind.isExtra).map (·.kind)

end Tree

open Parse in
/-- A parse that does not complain has read what the grammar derives. -/
theorem parse_derives {config : Config} {text : String} {tree : Tree}
    (h : parse config text = .ok tree) (hclean : tree.diagnostics = []) :
    tree.mode = .idl ∧ avro.Derives (.symbol "program") tree.kinds
      ∨ tree.mode = .json ∧ avro.Derives (.symbol "schema") tree.kinds := by
  have hmode : tree.mode = modeFor config text := by
    obtain ⟨s, -, htree⟩ := parse_ok h
    rw [htree]
    rfl
  rw [hmode]
  rcases modeFor_cases config text with hm | hm
  · refine .inr ⟨hm, parse_taken (L := Derived (.symbol "schema")) h hclean ?_⟩
    rw [hm]
    exact Schema.file_spends.imp (fun _ h => h) (fun _ _ h => h) fun _ _ ⟨_, h⟩ =>
      Schema.schema_derived h
  · refine .inl ⟨hm, parse_taken (L := Derived (.symbol "program")) h hclean ?_⟩
    rw [hm]
    exact Idl.program_spends

/-- An enumeration with an annotation and a default. -/
theorem parse_derives_annotated :
    let kinds : List Kind := [.atName, .punct .lParen, .jsonSpan, .punct .rParen, .keyword .enum,
      .identifier, .punct .lBrace, .identifier, .punct .comma, .identifier, .punct .rBrace,
      .punct .equals, .identifier, .punct .semicolon]
    ∃ tree, parse {} "@a(1) enum E \x7bA, B\x7d = B;" = .ok tree ∧ tree.diagnostics = []
      ∧ tree.mode = .idl ∧ tree.kinds = kinds ∧ avro.Derives (.symbol "program") kinds := by
  intro kinds
  obtain ⟨r, h, hread⟩ := @Parse.parse_of_program "@a(1) enum E \x7bA, B\x7d = B;"
    (fun r => decide ((Parse.treeOf .idl r).kinds = kinds ∧ r.2.faults = 0)) (by decide)
    (by decide +kernel) (by
      unfold Parse.Idl.program Parse.Idl.programStep Parse.Idl.declaration
        Parse.Idl.declarationWith
      simp only [Parse.First.declaration_eq]
      decide +kernel)
  obtain ⟨hkinds, hfaults⟩ := of_decide_eq_true hread
  have hclean : (Parse.treeOf .idl r).diagnostics = [] := Parse.diagnostics_eq_nil_iff.2 hfaults
  rcases parse_derives h hclean with ⟨hmode, hderives⟩ | ⟨hmode, -⟩
  · exact ⟨_, h, hclean, hmode, hkinds, hkinds ▸ hderives⟩
  · cases hmode

end AvroTree
