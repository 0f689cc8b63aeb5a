import AvroTree.Proofs.Positions
import AvroTree.Proofs.Relexing

/-!
# A plain pass takes a text apart

The tokens of a text are its parts: they stand behind each other, nothing but white space is left
between them, and the last of them is the end of the text (`tokenize_partitions`). Each is found in
the state that the one before it has left.
-/

namespace AvroTree

open Text (size)

namespace Lexer

/-- The tokens that a lexer finds from a cursor on while it looks for all plain ones, up to the end
of the text. Nothing bounds their number. -/
inductive Passed (cap : Nat) : State → Cursor → List Scanned → Prop
  | stuck {state state' : State} {c c' : Cursor}
      (h : step cap .lexical state c = (none, state', c')) : Passed cap state c []
  | stop {state state' : State} {c c' : Cursor} {t : Scanned}
      (h : step cap .lexical state c = (some t, state', c')) (ht : t.token.kind = .eof) :
      Passed cap state c [t]
  | more {state state' : State} {c c' : Cursor} {t : Scanned} {ts : List Scanned}
      (h : step cap .lexical state c = (some t, state', c')) (ht : t.token.kind ≠ .eof)
      (rest : Passed cap state' c' ts) : Passed cap state c (t :: ts)

/-- The tokens `ts` are the parts of a text. -/
structure Partitions (text : String) (ts : List Scanned) : Prop where
  /-- The end is the last token and no other. -/
  last : ∃ init t, ts = init ++ [t] ∧ (∀ u ∈ init, u.token.kind ≠ .eof) ∧ t.token.kind = .eof
    ∧ t.token.span.start.byte = text.utf8ByteSize ∧ t.token.span.stop.byte = text.utf8ByteSize
  nonempty : ∀ t ∈ ts, t.token.kind ≠ .eof → t.token.span.start.byte < t.token.span.stop.byte
  disjoint : ts.Pairwise fun t u => t.token.span.stop.byte ≤ u.token.span.start.byte
  boundaries : ∀ t ∈ ts, Text.isBoundary text t.token.span.start.byte
    ∧ Text.isBoundary text t.token.span.stop.byte
  points : ∀ t ∈ ts, t.token.span.start.point = Point.ofOffset text t.token.span.start.byte
    ∧ t.token.span.stop.point = Point.ofOffset text t.token.span.stop.byte
  /-- A character that no token covers is white space. -/
  spaces : ∀ pre c post, text.toList = pre ++ c :: post →
    (∀ t ∈ ts, ¬(t.token.span.start.byte ≤ size pre ∧ size pre < t.token.span.stop.byte)) →
    Text.isSpace c
  states : ts.IsChain fun t u => u.before = t.after

variable {cap : Nat} {valid : TokenSet} {p q : Stand} {c : Cursor} {t : Scanned} {ts : List Scanned}

/-! ## Runs -/

namespace Trail

theorem states (h : Trail cap p ts q) : ts.IsChain fun t u => u.before = t.after := by
  induction h with
  | nil => exact .nil
  | cons ht hrest ih =>
    cases hrest with
    | nil => exact .singleton _
    | cons hu _ => exact ih.cons_cons (by rw [Stand.before_eq hu, Stand.after_eq ht])

theorem within (h : Trail cap p ts q) (hp : p.Sound cap) (ht : t ∈ ts) :
    Location.Within (p.pre ++ p.rest) t.token.span.start
      ∧ Location.Within (p.pre ++ p.rest) t.token.span.stop := by
  induction h with
  | nil => cases ht
  | cons hu _ ih =>
    rcases List.mem_cons.1 ht with rfl | ht
    · exact ⟨Stand.within_start hp hu, Stand.within_stop hu⟩
    · rw [← Stand.next_append]
      exact ih (Stand.next_sound hp) ht

theorem nonempty (h : Trail cap p ts q) (hp : p.Sound cap) (ht : t ∈ ts)
    (hk : t.token.kind ≠ .eof) : t.token.span.start.byte < t.token.span.stop.byte := by
  induction h with
  | nil => cases ht
  | cons hu _ ih =>
    rcases List.mem_cons.1 ht with rfl | ht
    · exact Stand.start_lt_stop hp hu hk
    · exact ih (Stand.next_sound hp) ht

end Trail

/-- The end stands behind the whole text. -/
theorem Stand.eof_stands (hp : p.Sound cap) (h : p.token? cap valid = some t)
    (ht : t.token.kind = .eof) :
    t.token.span.start = .behind (p.pre ++ p.rest) ∧ (p.next cap valid).pre = p.pre ++ p.rest := by
  have hblank : p.rest.length ≤ blanks p.rest := List.drop_eq_nil_iff.1 ((eof_iff hp h).1 ht)
  obtain ⟨f, hf, -⟩ := exists_found h
  have hfound := token_found hp.comment hf
  have hused : blanks p.rest ≤ (p.reading cap valid).used := hfound.blanks ▸ hfound.le_used
  refine ⟨?_, ?_⟩
  · rw [start_eq hp h, List.take_of_length_le hblank]
  · rw [next, List.take_of_length_le (hblank.trans hused)]

namespace Stream

/-- A stream is a run up to the end. -/
theorem exists_trail (h : Stream cap p ts) : ∃ init t q, ts = init ++ [t]
    ∧ (∀ u ∈ init, u.token.kind ≠ .eof) ∧ t.token.kind = .eof ∧ t.valid = .lexical
    ∧ Trail cap p init q ∧ q.token? cap .lexical = some t := by
  induction h with
  | stop ht hk => exact ⟨[], _, _, rfl, nofun, hk, Stand.valid_eq ht, .nil _, ht⟩
  | @more p t ts ht hk _ ih =>
    obtain ⟨init, u, q, rfl, hinit, hu, hv, htrail, hlast⟩ := ih
    have hvalid := Stand.valid_eq ht
    refine ⟨t :: init, u, q, rfl, List.forall_mem_cons.2 ⟨hk, hinit⟩, hu, hv, ?_, hlast⟩
    exact .cons (hvalid.symm ▸ ht) (hvalid.symm ▸ htrail)

end Stream

/-! ## A whole pass -/

/-- The bound on the number of tokens is never met. -/
theorem scanMany_passed : ∀ {n : Nat} {p : Stand} {c : Cursor}, p.Sound cap →
    c.Between p.pre p.rest → p.rest.length < n → Passed cap p.state c (scanMany cap n p.state c)
  | n + 1, p, c, hp, hc, hn => by
    obtain ⟨t, ht⟩ := Option.isSome_iff_exists.1 (Stand.lexical_isSome hp)
    have hstep := step_eq cap .lexical hp.comment hc
    rw [ht] at hstep
    rw [scanMany, hstep]
    simp only []
    split
    · exact .stop hstep ‹_›
    · rename_i hk
      have hlt := Stand.next_lt hp ht hk
      exact .more hstep hk (scanMany_passed (Stand.next_sound hp) (Stand.cursor_between cap _ p)
        (by omega))

theorem tokenize_passed (config : Config) (mode : Mode) (text : String) :
    Passed config.cap { mode } (.start text) (tokenize config mode text) := by
  have hc : (Cursor.start text).Between [] text.toList := by
    rw [Cursor.start_eq]
    exact .fresh _ _
  exact scanMany_passed (p := .start mode text.toList) (Stand.start_sound mode _) hc
    (lt_tokenBound hc)

/-- Scanning a text to its end takes it apart into its tokens. -/
theorem tokenize_partitions (config : Config) (mode : Mode) (text : String) :
    Passed config.cap { mode } (.start text) (tokenize config mode text)
      ∧ Partitions text (tokenize config mode text) := by
  refine ⟨tokenize_passed config mode text, ?_⟩
  have hp : (Stand.start mode text.toList).Sound config.cap := Stand.start_sound mode _
  obtain ⟨init, t, q, hts, hinit, hk, hv, htrail, ht⟩ :=
    (tokenize_stream config mode text).exists_trail
  have hq : q.Sound config.cap := htrail.sound hp
  have htext : q.pre ++ q.rest = text.toList := htrail.text_eq
  obtain ⟨hstart, hpre⟩ := Stand.eof_stands hq ht hk
  have hstop := Stand.stop_eq ht
  rw [htext] at hstart hpre
  rw [hpre] at hstop
  have hend : (Location.behind text.toList).byte = text.utf8ByteSize := by
    rw [Location.behind_byte, Text.utf8ByteSize_eq]
  have hall : Trail config.cap (.start mode text.toList) (init ++ [t])
      (q.next config.cap .lexical) :=
    hv ▸ htrail.snoc (hv.symm ▸ ht)
  rw [hts]
  refine ⟨⟨init, t, rfl, hinit, hk, by rw [hstart, hend], by rw [hstop, hend]⟩,
    fun u hu => hall.nonempty hp hu, hall.pairwise hp, fun u hu => ?_, fun u hu => ?_, ?_,
    hall.states⟩
  · obtain ⟨hfrom, hto⟩ := hall.within hp hu
    exact ⟨hfrom.isBoundary, hto.isBoundary⟩
  · obtain ⟨hfrom, hto⟩ := hall.within hp hu
    exact ⟨hfrom.point_eq, hto.point_eq⟩
  · intro pre c post hsplit hout
    have hlt : size pre < size (q.next config.cap .lexical).pre := by
      have := c.utf8Size_pos
      rw [hpre, hsplit, Text.size_append, Text.size_cons]
      omega
    exact hall.isSpace hp hsplit (Nat.zero_le _) hlt hout

end Lexer

end AvroTree
