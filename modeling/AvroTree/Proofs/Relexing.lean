import AvroTree.Lexer.Relex
import AvroTree.Proofs.Editing

/-!
# Streams after an edit

The stream of a text is the one run of the lexer that looks for all plain tokens and goes to the
end (`Stream`); `tokenize` gives it. Bringing a stream up to date after an edit gives the stream of
the new text, so this goes on to hold along any number of edits.
-/

namespace AvroTree

namespace Lexer

open Text (size)

/-- The tokens from a stand to the end of the text, which is the last of them. -/
inductive Stream (cap : Nat) : Stand → List Scanned → Prop
  | stop {p : Stand} {t : Scanned} (h : p.token? cap .lexical = some t)
      (ht : t.token.kind = .eof) : Stream cap p [t]
  | more {p : Stand} {t : Scanned} {ts : List Scanned} (h : p.token? cap .lexical = some t)
      (ht : t.token.kind ≠ .eof) (rest : Stream cap (p.next cap .lexical) ts) :
      Stream cap p (t :: ts)

namespace Stream

variable {cap : Nat} {p : Stand} {ts us : List Scanned}

theorem unique (h : Stream cap p ts) (h' : Stream cap p us) : ts = us := by
  induction h generalizing us with
  | stop ht hk =>
    cases h' with
    | stop hu _ => rw [Option.some.inj (ht.symm.trans hu)]
    | more hu hk' _ => exact absurd (Option.some.inj (ht.symm.trans hu) ▸ hk) hk'
  | more ht hk _ ih =>
    cases h' with
    | stop hu hk' => exact absurd hk' (Option.some.inj (ht.symm.trans hu) ▸ hk)
    | more hu _ rest => rw [Option.some.inj (ht.symm.trans hu), ih rest]

theorem split (hus : us ≠ []) : ∀ {p : Stand} {ts : List Scanned}, Stream cap p (ts ++ us) →
    ∃ q, Trail cap p ts q ∧ Stream cap q us
  | p, [], h => ⟨p, .nil p, h⟩
  | _, t :: ts, h => by
    rw [List.cons_append] at h
    generalize hl : ts ++ us = rest at h
    cases h with
    | stop => exact absurd (List.append_eq_nil_iff.1 hl).2 hus
    | more ht hk htail =>
      subst hl
      obtain ⟨q, hq, hs⟩ := split hus htail
      have hv := Stand.valid_eq ht
      exact ⟨q, .cons (by rw [hv]; exact ht) (by rw [hv]; exact hq), hs⟩

theorem exists_eof (h : Stream cap p ts) : ∃ t ∈ ts, t.token.kind = .eof := by
  induction h with
  | stop _ hk => exact ⟨_, List.mem_singleton_self _, hk⟩
  | more _ _ _ ih =>
    obtain ⟨t, ht, hk⟩ := ih
    exact ⟨t, List.mem_cons_of_mem _ ht, hk⟩

theorem valid_eq (h : Stream cap p ts) : ∀ t ∈ ts, t.valid = .lexical := by
  induction h with
  | stop ht _ => exact List.forall_mem_singleton.2 (Stand.valid_eq ht)
  | more ht _ _ ih => exact List.forall_mem_cons.2 ⟨Stand.valid_eq ht, ih⟩

/-- A stream behind a run of plain tokens is part of one. -/
theorem prepend {q : Stand} (h : Trail cap p us q)
    (hus : ∀ t ∈ us, t.valid = .lexical ∧ t.token.kind ≠ .eof) (hts : Stream cap q ts) :
    Stream cap p (us ++ ts) := by
  induction h with
  | nil => exact hts
  | cons ht _ ih =>
    obtain ⟨⟨hv, hk⟩, hus⟩ := List.forall_mem_cons.1 hus
    rw [hv] at ht ih
    exact more ht hk (ih hus hts)

/-- Where the rest of two texts is the same the streams differ by places only. -/
theorem carry {e : Edit} {state : State} {pre pre' rest : List Char} (he : e.Carries pre pre')
    (h : Stream cap ⟨state, pre, rest⟩ ts) :
    Stream cap ⟨state, pre', rest⟩ (ts.map (·.shift e)) := by
  generalize hp : (⟨state, pre, rest⟩ : Stand) = p at h
  induction h generalizing state pre pre' rest with
  | stop ht hk =>
    subst hp
    exact stop (Stand.token?_carry he ht) hk
  | more ht hk _ ih =>
    subst hp
    exact more (Stand.token?_carry he ht) hk (ih (he.append _) rfl)

/-- The blanks in front of a stream do not matter for it. -/
theorem skipBlanks (hp : p.Sound cap) : Stream cap p.skipBlanks ts ↔ Stream cap p ts := by
  obtain ⟨t, ht⟩ := Option.isSome_iff_exists.1 (Stand.lexical_isSome hp)
  obtain ⟨ht', hnext⟩ := Stand.token?_skipBlanks hp ht
  constructor
  · rintro (⟨h, hk⟩ | ⟨h, hk, hrest⟩)
    · exact stop (ht.trans (ht'.symm.trans h)) hk
    · exact more (ht.trans (ht'.symm.trans h)) hk (hnext ▸ hrest)
  · rintro (⟨h, hk⟩ | ⟨h, hk, hrest⟩)
    · exact stop (ht'.trans (ht.symm.trans h)) hk
    · exact more (ht'.trans (ht.symm.trans h)) hk (hnext ▸ hrest)

end Stream

/-! ## A whole pass -/

variable {cap : Nat}

/-- A token for each character left and one for the end are enough. -/
theorem scanMany_stream : ∀ {n : Nat} {p : Stand} {c : Cursor}, p.Sound cap →
    c.Between p.pre p.rest → p.rest.length < n → Stream cap p (scanMany cap n p.state c)
  | n + 1, p, c, hp, hc, hn => by
    obtain ⟨t, ht⟩ := Option.isSome_iff_exists.1 (Stand.lexical_isSome hp)
    rw [scanMany, step_eq cap .lexical hp.comment hc, ht]
    simp only []
    split
    · exact .stop ht ‹_›
    · rename_i hk
      have hlt := Stand.next_lt hp ht hk
      exact .more ht hk (scanMany_stream (Stand.next_sound hp) (Stand.cursor_between cap _ p)
        (by omega))

theorem lt_tokenBound {pre rest : List Char} {c : Cursor} (h : c.Between pre rest) :
    rest.length < tokenBound c := by
  have hlen := Text.length_le_size rest
  rw [tokenBound, h.size_eq, h.byte_eq, Text.size_append]
  omega

theorem tokenize_stream (config : Config) (mode : Mode) (text : String) :
    Stream config.cap (.start mode text.toList) (tokenize config mode text) := by
  have hc : (Cursor.start text).Between [] text.toList := by
    rw [Cursor.start_eq]
    exact .fresh _ _
  exact scanMany_stream (Stand.start_sound mode _) hc (lt_tokenBound hc)

/-! ## Taking up the old stream -/

section Edited

variable {head mid new tail : List Char} {p q : Stand} {t : Scanned} {old later : List Scanned}

theorem resume?_eq_some {e : Edit} (h : resume? e t old = some later) :
    ∃ passed u us, old = passed ++ later ∧ later = u :: us
      ∧ e.newStop.byte ≤ t.token.span.start.byte
      ∧ u.token.span.start.byte = t.token.span.start.byte - e.newStop.byte + e.oldStop.byte
      ∧ u.before = t.before := by
  rw [resume?] at h
  split at h
  · rename_i hle
    simp only [] at h
    split at h
    · cases h
    · rename_i u us hdrop
      split at h
      · rename_i hu
        cases h
        rw [← hdrop]
        exact ⟨_, u, us, List.takeWhile_append_dropWhile.symm, hdrop, hle, hu.1, hu.2.1⟩
      · cases h
  · cases h

/-- Where the old stream is taken up again it is the stream of the new text. -/
theorem resume?_stream (hcap : cap ≤ depthCeiling) (hp : p.Sound cap) (hq : q.Sound cap)
    (hpt : p.pre ++ p.rest = head ++ new ++ tail) (hqt : q.pre ++ q.rest = head ++ mid ++ tail)
    (hold : Stream cap q old) (ht : p.token? cap .lexical = some t)
    (h : resume? (.between head mid new) t old = some later) :
    Stream cap p (later.map (·.shift (.between head mid new))) := by
  obtain ⟨passed, u, us, rfl, rfl, hle, hstart, hbefore⟩ := resume?_eq_some h
  obtain ⟨r, htrail, hr⟩ := hold.split (List.cons_ne_nil _ _)
  have hrs : r.Sound cap := htrail.sound hq
  have hrt : r.pre ++ r.rest = head ++ mid ++ tail := htrail.text_eq.trans hqt
  have hru : r.token? cap .lexical = some u := by
    cases hr with
    | stop hu _ => exact hu
    | more hu _ _ => exact hu
  have hstate : r.state = p.state := by
    refine State.encode_inj (hrs.depth.trans hcap) (hp.depth.trans hcap) ?_
    rw [← Stand.before_eq hru, ← Stand.before_eq ht, hbefore]
  rw [← Stand.size_skipBlanks hrs hru, ← Stand.size_skipBlanks hp ht] at hstart
  rw [← Stand.size_skipBlanks hp ht] at hle
  simp only [Edit.between, Location.behind_byte] at hle hstart
  obtain ⟨hrest, hcarry⟩ := carries_of_size (p.skipBlanks_append.trans hpt)
    (r.skipBlanks_append.trans hrt) hle hstart
  have hsame : (⟨p.state, r.skipBlanks.pre, p.skipBlanks.rest⟩ : Stand) = r.skipBlanks := by
    rw [← hstate, ← hrest]
    rfl
  have hblank : Stream cap ⟨p.state, r.skipBlanks.pre, p.skipBlanks.rest⟩ (u :: us) := by
    rw [hsame]
    exact (Stream.skipBlanks hrs).2 hr
  exact (Stream.skipBlanks hp).1 (Stream.carry hcarry hblank)

/-- Reading on from a stand of the new text gives its stream, wherever the old one is taken up. -/
theorem rescan_stream (hcap : cap ≤ depthCeiling) (hq : q.Sound cap)
    (hqt : q.pre ++ q.rest = head ++ mid ++ tail) (hold : Stream cap q old) :
    ∀ {n : Nat} {p : Stand} {c : Cursor}, p.Sound cap → p.pre ++ p.rest = head ++ new ++ tail →
      c.Between p.pre p.rest → p.rest.length < n →
      Stream cap p (rescan cap (.between head mid new) old n p.state c).tokens
  | n + 1, p, c, hp, hpt, hc, hn => by
    obtain ⟨t, ht⟩ := Option.isSome_iff_exists.1 (Stand.lexical_isSome hp)
    rw [rescan, step_eq cap .lexical hp.comment hc, ht]
    simp only []
    split
    · rename_i later hl
      exact resume?_stream hcap hp hq hpt hqt hold ht hl
    · split
      · exact .stop ht ‹_›
      · rename_i hk
        have hlt := Stand.next_lt hp ht hk
        exact .more ht hk (rescan_stream hcap hq hqt hold (Stand.next_sound hp)
          ((Stand.next_append cap .lexical p).trans hpt) (Stand.cursor_between cap .lexical p)
          (by omega))

/-- The tokens that an edit leaves untouched lead to a stand from which both texts go on. -/
theorem kept_trail {mode : Mode} {kept later : List Scanned}
    (hold : Stream cap (.start mode (head ++ mid ++ tail)) (kept ++ later)) (hlater : later ≠ [])
    (hkept : ∀ t ∈ kept, untouched (.between head mid new) t) :
    ∃ state pre a, head = pre ++ a ∧ state.Sound cap
      ∧ Stream cap ⟨state, pre, a ++ (mid ++ tail)⟩ later
      ∧ Trail cap (.start mode (head ++ (new ++ tail))) kept ⟨state, pre, a ++ (new ++ tail)⟩ := by
  obtain ⟨q, htrail, hq⟩ := hold.split hlater
  have hseen : ∀ t ∈ kept, t.lookahead ≤ size ([] ++ head) := by
    intro t ht
    have h := hkept t ht
    rw [untouched, Bool.and_eq_true, decide_eq_true_eq] at h
    rw [List.nil_append, ← Location.behind_byte]
    exact h.1
  have hsound := htrail.sound (Stand.start_sound mode _)
  rw [List.append_assoc] at htrail
  have hstart : (Stand.start mode []).Sound cap := Stand.start_sound mode []
  obtain ⟨state, m, a, rfl, rfl, hnew⟩ := Trail.head hstart htrail hseen (new ++ tail)
  exact ⟨state, m, a, rfl, hsound, hq, hnew⟩

/-- The last token that was kept tells where to go on. -/
theorem resume_at {mode : Mode} {text : String} {kept : List Scanned} (hcap : cap ≤ depthCeiling)
    (h : Trail cap (.start mode text.toList) kept p) (ht : kept.getLast? = some t) :
    State.load cap t.after = .ok p.state
      ∧ (Cursor.startAt text t.token.span.stop).Between p.pre p.rest := by
  obtain ⟨hstop, hafter⟩ := h.last_eq ht
  have hsound : p.Sound cap := h.sound (Stand.start_sound mode _)
  refine ⟨by rw [hafter, State.load_encode hsound.depth hcap], ?_⟩
  rw [hstop]
  exact Cursor.startAt_between h.text_eq.symm

/-- Reading goes on behind the tokens that were kept, or at the start if there are none. -/
theorem relex_eq {config : Config} {e : Edit} {text : String} {kept : List Scanned}
    (hk : old.takeWhile (untouched e) = kept) (hparts : old = kept ++ later)
    (h : Trail config.cap (.start .unknown text.toList) kept p) :
    ∃ c : Cursor, c.Between p.pre p.rest ∧ relex config old e text =
      .ok ⟨kept ++ (rescan config.cap e later (tokenBound c) p.state c).tokens,
        kept.length + (rescan config.cap e later (tokenBound c) p.state c).reused,
        (rescan config.cap e later (tokenBound c) p.state c).rescanned⟩ := by
  have hdrop : old.drop kept.length = later := by
    rw [hparts, List.drop_left]
  cases hlast : kept.getLast? with
  | none =>
    obtain rfl := List.getLast?_eq_none_iff.1 hlast
    obtain rfl := h.eq_of_nil
    refine ⟨Cursor.start text, ?_, ?_⟩
    · rw [Cursor.start_eq]
      exact .fresh _ _
    · rw [relex, hk, hlast, hdrop]
      rfl
  | some t =>
    have hcap : config.cap ≤ depthCeiling := Nat.min_le_right _ _
    obtain ⟨hload, hbetween⟩ := resume_at hcap h hlast
    refine ⟨_, hbetween, ?_⟩
    rw [relex, hk, hlast, hdrop]
    simp only [hload]
    rfl

theorem relex_stream {config : Config} {text : String} (htext : text.toList = head ++ new ++ tail)
    (hold : Stream config.cap (.start .unknown (head ++ mid ++ tail)) old) :
    ∃ r, relex config old (.between head mid new) text = .ok r
      ∧ Stream config.cap (.start .unknown text.toList) r.tokens := by
  obtain ⟨kept, hk⟩ : ∃ kept, old.takeWhile (untouched (.between head mid new)) = kept := ⟨_, rfl⟩
  obtain ⟨later, hl⟩ : ∃ later, old.dropWhile (untouched (.between head mid new)) = later :=
    ⟨_, rfl⟩
  have hparts : old = kept ++ later := by
    rw [← hk, ← hl, List.takeWhile_append_dropWhile]
  have hlater : later ≠ [] := by
    intro hnil
    obtain ⟨t, ht, heof⟩ := hold.exists_eof
    have h := List.dropWhile_eq_nil_iff.1 (hl.trans hnil) t ht
    simp [untouched, heof] at h
  have huntouched : ∀ t ∈ kept, untouched (.between head mid new) t := by
    intro t ht
    rw [← hk] at ht
    exact List.mem_takeWhile_imp ht
  have hplain : ∀ t ∈ kept, t.valid = .lexical ∧ t.token.kind ≠ .eof := by
    intro t ht
    have h := huntouched t ht
    rw [untouched, Bool.and_eq_true, bne_iff_ne] at h
    exact ⟨hold.valid_eq t (hparts ▸ List.mem_append_left _ ht), h.2⟩
  obtain ⟨state, pre, a, hhead, hsound, hq, htrail⟩ :=
    kept_trail (hparts ▸ hold) hlater huntouched
  rw [← List.append_assoc, ← htext] at htrail
  have hold_text : pre ++ (a ++ (mid ++ tail)) = head ++ mid ++ tail := by
    simp only [hhead, List.append_assoc]
  have hnew_text : pre ++ (a ++ (new ++ tail)) = head ++ new ++ tail := by
    simp only [hhead, List.append_assoc]
  obtain ⟨c, hc, hrelex⟩ := relex_eq hk hparts htrail
  refine ⟨_, hrelex, Stream.prepend htrail hplain ?_⟩
  exact rescan_stream (p := ⟨state, pre, a ++ (new ++ tail)⟩) (Nat.min_le_right _ _)
    (q := ⟨state, pre, a ++ (mid ++ tail)⟩) hsound hold_text hq hsound hnew_text hc
    (lt_tokenBound hc)

end Edited

/-! ## One edit and many -/

theorem relex_replace (config : Config) {text new replacement : String} {start stop : Nat}
    (h : Edit.result? text start stop replacement = some new) :
    ∃ r, relex config (tokenize config .unknown text) (Edit.replace text start stop replacement) new
        = .ok r
      ∧ r.tokens = tokenize config .unknown new := by
  obtain ⟨head, mid, tail, htext, hnew, hedit⟩ := Edit.exists_parts h
  have hold := tokenize_stream config .unknown text
  rw [htext] at hold
  obtain ⟨r, hr, hstream⟩ := relex_stream hnew hold
  exact ⟨r, by rw [hedit, hr], hstream.unique (tokenize_stream config .unknown new)⟩

/-- A text and its tokens after an edit; one that does not fit changes nothing. -/
def relexStep (config : Config) (s : String × List Scanned) (c : Change) :
    Except StateError (String × List Scanned) :=
  match c.result? s.1 with
  | none => .ok s
  | some text => (relex config s.2 (c.edit s.1) text).map fun r => (text, r.tokens)

theorem relexStep_eq (config : Config) (text : String) (c : Change) :
    relexStep config (text, tokenize config .unknown text) c
      = .ok (c.after text, tokenize config .unknown (c.after text)) := by
  rw [relexStep, Change.after]
  cases h : c.result? text with
  | none => rfl
  | some new =>
    obtain ⟨r, hr, htokens⟩ := relex_replace config h
    simp only [Change.edit, hr, Option.getD_some, ← htokens]
    rfl

/-- Tokens that are brought up to date after every edit of a text are those of the text as it has
become, in everything that is kept about them. -/
theorem relex_eq_tokenize (config : Config) (text : String) :
    (∀ (start stop : Nat) (replacement new : String),
      Edit.result? text start stop replacement = some new →
      ∃ r, relex config (tokenize config .unknown text)
          (Edit.replace text start stop replacement) new = .ok r
        ∧ r.tokens = tokenize config .unknown new)
    ∧ ∀ changes : List Change,
      changes.foldlM (relexStep config) (text, tokenize config .unknown text)
        = .ok (changes.foldl (fun t c => c.after t) text,
          tokenize config .unknown (changes.foldl (fun t c => c.after t) text)) := by
  refine ⟨fun start stop replacement new h => relex_replace config h, fun changes => ?_⟩
  induction changes generalizing text with
  | nil => rfl
  | cons c changes ih =>
    rw [List.foldlM_cons, relexStep_eq]
    exact ih (c.after text)

theorem relex_opened_comment :
    Edit.result? "é b" 2 3 "/*" = some "é/*b" ∧
      ∃ r, relex {} (tokenize {} .unknown "é b") (Edit.replace "é b" 2 3 "/*") "é/*b" = .ok r
        ∧ r.tokens = tokenize {} .unknown "é/*b" :=
  ⟨by decide, (relex_eq_tokenize {} "é b").1 2 3 "/*" "é/*b" (by decide)⟩

end Lexer

end AvroTree
