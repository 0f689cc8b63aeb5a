import AvroTree.Proofs.SchemaMirroring
import AvroTree.Proofs.Spacing

/-!
# A parse beside itself

Beside itself a parse does the same, so the tokens it has taken are read from the start of its text,
in the language it began with (`parse_retraced`). A text that is parsed without complaints is clean
to its end (`parse_clean`).
-/

namespace AvroTree

open Token (Kind)
open Lexer (Stand Trail ahead)

namespace Parse

open AvroTree.Parse.Parser
open Session (Pair)

variable {config : Config} {text : String} {tree : Tree}

/-- The track of a parse beside itself. -/
def Track.diagonal (cap : Nat) (text : List Char) (mode : Mode) : Track where
  cap
  text
  text' := text
  strict := False
  Runs l p q := q = p ∧ Trail cap (.start mode text) l p
  Takes l := ∀ t ∈ l, t.token.kind ≠ .eof
  Looks _ := True
  Loc := Eq
  Tok := Eq
  Same := Eq
  Diag := Eq
  before := []
  before' := []
  takes_init h := ⟨fun t ht => h t (List.mem_append_left _ ht), trivial⟩
  solid h := h
  meet := by
    rintro l p _ la lb ⟨rfl, htrail⟩ - - - - - hla hlb hv - -
    obtain ⟨hscanned, -⟩ := hla.unique hlb hv.symm
    refine ⟨hv, by rw [hscanned], by rw [hscanned], fun _ => ⟨by rw [hscanned], ?_⟩⟩
    exact htrail.snoc hla.token
  kind_eq h := by rw [h]
  start h := by rw [h]
  stop h := by rw [h]
  complaint _ _ h := by rw [h]
  leaf _ h := by rw [h]
  branch _ h h' := by
    rw [List.forall₂_eq_eq_eq] at h
    rw [h, h']
  missing _ h := by rw [h]
  label _ h := by rw [h]
  span_start h := by rw [h]
  span_stop h := by rw [h]

theorem diagonal_schematic (cap : Nat) (text : List Char) (mode : Mode) :
    (Track.diagonal cap text mode).Schematic where
  spelled h _ := by rw [h]; rfl
  object _ _ hextras htoken hns hloc := by
    obtain rfl := (List.forall₂_eq_eq_eq ▸ hextras : _ = _)
    obtain rfl := (List.forall₂_eq_eq_eq ▸ hns : _ = _)
    obtain rfl := htoken
    obtain rfl := hloc
    rfl

/-- Two parses at their start are a pair. -/
theorem Session.Pair.start {T : Track} {text text' : String} {maxDepth : Nat} {mode : Mode}
    (hcap : T.cap = (Lexer.Config.ofDepth maxDepth).cap) (htext : T.text = text.toList)
    (htext' : T.text' = text'.toList) (hbefore : T.before = []) (hbefore' : T.before' = [])
    (hruns : T.Runs [] (.start mode text.toList) (.start mode text'.toList)) (hloc : T.Loc {} {}) :
    Pair T (.start text maxDepth mode none) (.start text' maxDepth mode none) where
  stands := by
    refine ⟨_, _, ?_, ?_, hruns, .none⟩
    · rw [hcap, htext]
      exact start_stands fun _ h => nomatch h
    · rw [hcap, htext']
      exact start_stands fun _ h => nomatch h
  plain h := absurd rfl h
  plain' h := absurd rfl h
  source := htext.symm
  source' := htext'.symm
  comments _ h := nomatch h
  extras := .nil
  log := ⟨[], [], by rw [hbefore]; rfl, by rw [hbefore']; rfl, .nil⟩
  lexical := .nil
  syntactic := .nil
  frontier := hloc
  depth := rfl

/-- A whole text of either language does the same to both sessions of a pair. -/
theorem rootOf_mirrors {T : Track} {P : Prop} (hT : T.Schematic) (mode : Mode) :
    Mirrors T P (rootOf mode) (rootOf mode) :=
  .ite (fun _ => Iff.rfl) (Schema.file_mirrors hT) Idl.program_mirrors

/-- The tokens of a tree are read from the start of its text in its language. -/
theorem parse_retraced (h : parse config text = .ok tree)
    (hsolid : ∀ t ∈ tree.tokens, t.token.kind ≠ .eof) : ∃ q,
      Trail (Lexer.Config.ofDepth config.maxDepth).cap (.start (modeFor config text) text.toList)
        tree.tokens q
      ∧ q.pre ++ q.rest = text.toList ∧ ahead q.rest = [] := by
  obtain ⟨s, hs, htree⟩ := parse_ok h
  have htokens : tree.tokens = s.log.toList := by rw [htree]; rfl
  set T := Track.diagonal (Lexer.Config.ofDepth config.maxDepth).cap text.toList
    (modeFor config text)
  have hpair : Pair T (.start text config.maxDepth (modeFor config text) none) _ :=
    .start rfl rfl rfl rfl rfl ⟨rfl, .nil _⟩ rfl
  obtain ⟨-, t, -, -, hpair⟩ := (rootOf_mirrors (P := True)
    (diagonal_schematic _ _ _) _).follow trivial hpair hs
      ⟨False.elim, htokens ▸ hsolid, fun _ => trivial⟩
  obtain ⟨p, q, hp, -, ⟨-, htrail⟩, -⟩ := hpair.stands
  have hend := (rootOf_made (start_ordered _ _ _) hs).2.1
  rw [Session.AtEnd, hp.cursor.rest_eq] at hend
  exact ⟨p, htokens ▸ htrail, hp.append, hend⟩

theorem rootOf_spends {cap : Nat} {text : List Char} (mode : Mode) :
    Spends cap text Session.Anywhere (rootOf mode) fun ts => ∃ name, Derived (.symbol name) ts := by
  unfold rootOf
  split
  · exact Schema.file_spends.imp (fun _ h => h) (fun _ _ h => h) fun _ _ ⟨_, h⟩ =>
      ⟨_, Schema.schema_derived h⟩
  · exact Idl.program_spends.imp (fun _ h => h) (fun _ _ h => h) fun _ _ h => ⟨_, h⟩

/-- What is parsed without complaints is read without faults up to the end of the text. -/
theorem parse_clean (h : parse config text = .ok tree) (hclean : tree.diagnostics = []) :
    Stand.Clean (Lexer.Config.ofDepth config.maxDepth).cap
      (.start (modeFor config text) text.toList) tree.tokens := by
  obtain ⟨name, hderives⟩ : ∃ name, Grammar.avro.Derives (.symbol name) tree.kinds :=
    parse_taken h hclean (rootOf_spends _)
  have hmeant : ∀ t ∈ tree.tokens, t.token.kind.isMeant := by
    intro t ht
    cases hextra : t.token.kind.isExtra with
    | true => cases hk : t.token.kind <;> simp_all [Kind.isExtra, Kind.isMeant]
    | false =>
      refine Grammar.meant_of_derives hderives _ (List.mem_map_of_mem (List.mem_filter.2 ⟨?_, ?_⟩))
      · exact List.mem_map_of_mem ht
      · rw [hextra]
        rfl
  obtain ⟨q, htrail, -, hend⟩ := parse_retraced h fun t ht => (Kind.isMeant_iff.1 (hmeant t ht)).1
  refine ⟨Stand.start_sound _ _, ⟨q, htrail, hend⟩, hmeant, fun ks k ls hks => ?_⟩
  rw [show tree.kinds = _ from hks] at hderives
  exact Grammar.mark_behind_value hderives

end Parse

end AvroTree
