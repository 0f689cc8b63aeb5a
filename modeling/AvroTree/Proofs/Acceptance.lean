import AvroTree.Proofs.SchemaReading
import AvroTree.Proofs.Soundness

/-!
# What parses, exactly

A text is parsed as a schema without complaints just if it is one (`parse_clean_iff_isSchema`).
-/

namespace AvroTree

open Text (Gap)
open SchemaText (IsSchema layer)

namespace Parse

open AvroTree.Parse.Parser
open Session (At)

variable {config : Config} {text : String}

/-- A session that has just started is at the place in front of the first token. -/
theorem start_at (maxDepth : Nat) {mode : Mode} {p : Place} (hstate : p.state = { mode })
    (hnears : p.Nears text.toList) (hdone : p.done []) :
    (Session.start text maxDepth mode none).At (Lexer.Config.ofDepth maxDepth).cap text.toList
      p where
  sits := start_sits _ _ _
  clean := rfl
  stand := ⟨_, start_stands (fun _ h => nomatch h), hstate.symm, hnears⟩
  done := hdone
  silent := fun _ _ h => by cases h

theorem modeFor_json (h : config.mode = some .json) : modeFor config text = .json := by
  rw [modeFor, h]

theorem rootOf_json : rootOf .json = Schema.file :=
  if_pos rfl

/-- What is parsed as a schema without complaints is one. -/
theorem isSchema_of_parse {tree : Tree} (hmode : config.mode = some .json)
    (h : parse config text = .ok tree) (hclean : tree.diagnostics = []) :
    IsSchema (Lexer.Config.ofDepth config.maxDepth).cap text.toList := by
  obtain ⟨s, hs, htree⟩ := parse_ok h
  rw [htree] at hclean
  have hend := (rootOf_made (start_ordered _ _ _) hs).2.1
  rw [modeFor_json hmode, rootOf_json] at hs
  obtain ⟨-, ts, htook, hvalue⟩ := Schema.file_spends (C := Session.Anywhere) _ _ _
    (start_sits _ _ _) trivial hs
  have hfaults : s.faults = 0 := diagnostics_eq_nil_iff.1 hclean
  obtain ⟨n, hts⟩ := hvalue hfaults
  obtain ⟨q, hq, hpassage⟩ := htook.passage _ (start_stands fun _ h => nomatch h)
  obtain ⟨-, u, r, hu, hur, hr⟩ := (Schema.tokenLevel_reads n).value [] _ _ _
    ⟨Lexer.Stand.start_sound _ _, rfl, rfl⟩ hts hpassage
  refine ⟨u, r, hu, hur, hr.trans ?_⟩
  rw [Session.AtEnd, hq.cursor.rest_eq] at hend
  exact hend ▸ Lexer.gap_ahead q.rest

/-- What is a schema is parsed without complaints. -/
theorem parse_of_isSchema (hvalid : config.validate = .ok ()) (hmode : config.mode = some .json)
    (hsize : text.utf8ByteSize ≤ config.maxBytes)
    (h : IsSchema (Lexer.Config.ofDepth config.maxDepth).cap text.toList) :
    ∃ tree, parse config text = .ok tree ∧ tree.diagnostics = [] := by
  obtain ⟨s, r, hs, hsr, hr⟩ := h
  obtain ⟨root, s', hrun, hat⟩ := Schema.file_runs hsr hr _
    (start_at config.maxDepth (p := Schema.place [] s) rfl (Schema.place_nears hs) trivial)
  refine ⟨treeOf .json (root, s'), ?_, diagnostics_eq_nil_iff.2 hat.clean⟩
  rw [parse, run_read hvalid (Nat.not_lt.2 hsize), modeFor_json hmode, rootOf_json, hrun]
  rfl

end Parse

open Parse in
/-- A text is parsed as a schema without complaints just if it is one. -/
theorem parse_clean_iff_isSchema {config : Config} {text : String}
    (hvalid : config.validate = .ok ()) (hmode : config.mode = some .json)
    (hsize : text.utf8ByteSize ≤ config.maxBytes) :
    (∃ tree, parse config text = .ok tree ∧ tree.diagnostics = [])
      ↔ IsSchema config.maxDepth text.toList := by
  rw [← cap_of_validate hvalid]
  constructor
  · rintro ⟨tree, h, hclean⟩
    exact isSchema_of_parse hmode h hclean
  · exact parse_of_isSchema hvalid hmode hsize

theorem parse_clean_iff_isSchema_union :
    let config : Parse.Config := { maxDepth := 2, mode := some .json }
    let text := "[\"int\", \x7b\"type\": 1,\x7d,] // x"
    IsSchema 2 text.toList ∧ ∃ tree, parse config text = .ok tree ∧ tree.diagnostics = [] := by
  have hint : SchemaText.Literal "int".toList := by
    repeat (refine .plain (by decide) (by decide) (by decide) ?_)
    exact .nil
  have htype : SchemaText.Literal "type".toList := by
    repeat (refine .plain (by decide) (by decide) (by decide) ?_)
    exact .nil
  have hspace (s : List Char) : Gap (' ' :: s) s := .blank rfl (.refl s)
  have hobject : (layer 1).object "\x7b\"type\": 1,\x7d,] // x".toList ",] // x".toList := by
    refine ⟨_, rfl, .inr ⟨_, ",\x7d,] // x".toList, .refl _, .one ⟨_, _, _, "1,\x7d,] // x".toList,
      ⟨htype, rfl⟩, .refl _, hspace _, .inr ⟨⟨rfl, rfl⟩, ?_⟩⟩, .inr ⟨_, .refl _, .refl _⟩⟩⟩
    rintro _ ⟨⟩
    decide
  have hschema : IsSchema 2 "[\"int\", \x7b\"type\": 1,\x7d,] // x".toList := by
    refine ⟨_, " // x".toList, .refl _, .inr (.inr ⟨_, rfl, .inr ⟨_, ",] // x".toList, .refl _,
      .more (.inl ⟨_, hint, rfl⟩) (.refl _) (hspace _) (.one (.inr (.inl hobject))),
      .inr ⟨_, .refl _, .refl _⟩⟩⟩), (hspace _).trans (.pass rfl (.refl _))⟩
  exact ⟨hschema, (parse_clean_iff_isSchema rfl rfl (by decide)).2 hschema⟩

end AvroTree
