import AvroTree.Parse.Session
import AvroTree.Proofs.Editing

/-!
# What a session is given

Whether a token is searched for or taken over from the text before an edit, the session is given
the token that a lexer standing at its cursor reads (`scan_reads`). The tokens it has taken are a
run of the lexer from the start of the text (`Session.Stands`).
-/

namespace AvroTree

open Lexer (Stand Trail)
open Text (size)

namespace Edit

variable {e : Edit} {b b' o o' : Nat}

/-- Old places keep their order. -/
theorem oldOffset?_mono (he : e.start.byte ≤ e.oldStop.byte) (hb : b ≤ b')
    (h : e.oldOffset? b = some o) (h' : e.oldOffset? b' = some o') : o ≤ o' := by
  rw [oldOffset?] at h h'
  split_ifs at h h' <;> (simp only [Option.some.injEq] at h h'; omega)

end Edit

namespace Parse

/-! ## Old tokens -/

/-- The tokens behind `p.edit` are those of some text that the edit has made into `text`, as far as
they have not been forgotten; none are while the cursor, at `byte`, may still stand in front of the
first. -/
def Previous.Fits (cap : Nat) (text : List Char) (byte : Nat) (p : Previous) : Prop :=
  ∃ head mid new tail mode forgotten r q, text = head ++ new ++ tail
    ∧ p.edit = .between head mid new
    ∧ Trail cap (.start mode (head ++ mid ++ tail)) forgotten r
    ∧ Trail cap r p.tokens q
    ∧ (forgotten = [] ∨ ∃ b o, b ≤ byte ∧ 0 < o ∧ p.edit.oldOffset? b = some o)

namespace Previous

variable {cap byte origin : Nat} {text : List Char} {p : Previous}

theorem Fits.mono {byte' : Nat} (h : p.Fits cap text byte) (hb : byte ≤ byte') :
    p.Fits cap text byte' := by
  obtain ⟨head, mid, new, tail, mode, forgotten, r, q, ht, he, hr, hq, hf⟩ := h
  refine ⟨head, mid, new, tail, mode, forgotten, r, q, ht, he, hr, hq, ?_⟩
  rcases hf with hf | ⟨b, o, hle, ho, hb'⟩
  · exact .inl hf
  · exact .inr ⟨b, o, hle.trans hb, ho, hb'⟩

/-- Forgetting old tokens leaves the ones behind them. -/
theorem Fits.passed (h : p.Fits cap text byte) : (p.passed byte).Fits cap text byte := by
  rw [Previous.passed]
  split
  · rename_i origin ho
    split
    · exact h
    · rename_i hne
      obtain ⟨head, mid, new, tail, mode, forgotten, r, q, ht, he, hr, hq, -⟩ := h
      rw [← List.takeWhile_append_dropWhile
        (p := fun t : Scanned => decide (t.token.span.stop.byte < origin)) (l := p.tokens)] at hq
      obtain ⟨r', hr', hq'⟩ := hq.split
      exact ⟨head, mid, new, tail, mode, forgotten ++ _, r', q, ht, he, hr.append hr', hq',
        .inr ⟨byte, origin, le_rfl, Nat.pos_of_ne_zero hne, ho⟩⟩
  · exact h

/-- An old token found at `origin` is the one that the lexer read there. -/
theorem Fits.tokenAt? {t : Scanned} (h : p.Fits cap text byte)
    (ho : p.edit.oldOffset? byte = some origin) (ht : p.tokenAt? origin = some t) :
    ∃ head mid new tail, ∃ r : Stand, text = head ++ new ++ tail ∧ p.edit = .between head mid new
      ∧ r.Sound cap ∧ r.pre ++ r.rest = head ++ mid ++ tail ∧ size r.pre = origin
      ∧ r.token? cap t.valid = some t := by
  obtain ⟨head, mid, new, tail, mode, forgotten, r, q, htext, he, hr, hq, hf⟩ := h
  have hsound : r.Sound cap := hr.sound (Stand.start_sound mode _)
  have hold : r.pre ++ r.rest = head ++ mid ++ tail := hr.text_eq
  rw [Previous.tokenAt?] at ht
  split at ht
  · rename_i h0
    have hfirst : forgotten = [] := by
      refine hf.resolve_right ?_
      rintro ⟨b, o, hle, hpos, hb⟩
      have hmono := Edit.oldOffset?_mono (by simp [he, Edit.between]) hle hb ho
      omega
    subst hfirst
    obtain rfl := hr.eq_of_nil
    obtain ⟨ts, hts⟩ := List.head?_eq_some_iff.1 ht
    rw [hts] at hq
    obtain - | ⟨ht', -⟩ := hq
    exact ⟨head, mid, new, tail, _, htext, he, hsound, hold, h0.symm, ht'⟩
  · split at ht
    · rename_i u next us hdrop
      split at ht
      · rename_i hstop
        cases ht
        rw [← List.takeWhile_append_dropWhile
          (p := fun t : Scanned => decide (t.token.span.stop.byte < origin)) (l := p.tokens),
          hdrop] at hq
        obtain ⟨r', hr', hq'⟩ := hq.split
        obtain - | ⟨hu, hnext⟩ := hq'
        obtain - | ⟨ht', -⟩ := hnext
        have hr's : r'.Sound cap := hr'.sound hsound
        refine ⟨head, mid, new, tail, _, htext, he, Stand.next_sound hr's, ?_, ?_, ht'⟩
        · rw [Stand.next_append, hr'.text_eq, hold]
        · rw [← hstop, Stand.stop_eq hu, Location.behind_byte]
      · cases ht
    · cases ht

end Previous

/-! ## The next token -/

/-- The token that a lexer at `p` reads when it looks for the wanted kinds, and for any plain token
if there is none of them. -/
structure Lookahead.Reads (cap : Nat) (p : Stand) (la : Lookahead) : Prop where
  token : p.token? cap la.scanned.valid = some la.scanned
  state : la.state = (p.next cap la.scanned.valid).state
  cursor : la.cursor.Between (p.next cap la.scanned.valid).pre (p.next cap la.scanned.valid).rest
  choice : la.scanned.valid = la.valid
    ∨ p.token? cap la.valid = none ∧ la.scanned.valid = .lexical

namespace Lookahead

variable {cap : Nat} {p : Stand} {la la' : Lookahead}

/-- A token together with where the lexer stands behind it. -/
theorem Reads.of_token {used wanted : TokenSet} {t : Scanned} {c : Cursor} (reused : Bool)
    (ht : p.token? cap used = some t)
    (hc : c.Between (p.next cap used).pre (p.next cap used).rest)
    (choice : used = wanted ∨ p.token? cap wanted = none ∧ used = .lexical) :
    Reads cap p ⟨wanted, t, (p.next cap used).state, c, reused⟩ := by
  obtain rfl := Stand.valid_eq ht
  exact ⟨ht, rfl, hc, choice⟩

/-- What is read depends only on what is wanted. -/
theorem Reads.unique (h : la.Reads cap p) (h' : la'.Reads cap p) (hv : la.valid = la'.valid) :
    la.scanned = la'.scanned ∧ la.state = la'.state
      ∧ la.cursor.beginScan = la'.cursor.beginScan := by
  have hvalid : la.scanned.valid = la'.scanned.valid := by
    rcases h.choice with hc | ⟨hc, hl⟩ <;> rcases h'.choice with hc' | ⟨hc', hl'⟩
    · rw [hc, hc', hv]
    · have ht := h.token
      rw [hc, hv, hc'] at ht
      cases ht
    · have ht := h'.token
      rw [hc', ← hv, hc] at ht
      cases ht
    · rw [hl, hl']
  have ht := h.token
  rw [hvalid, h'.token] at ht
  refine ⟨(Option.some.inj ht).symm, ?_, ?_⟩
  · rw [h.state, h'.state, hvalid]
  · rw [(h.cursor : _ = _), (h'.cursor : _ = _), hvalid]

end Lookahead

namespace Session

/-- The session stands where a lexer would stand behind the tokens it has taken, and its next
token is what that lexer reads. -/
structure Stands (cap : Nat) (text : List Char) (s : Session) (p : Stand) : Prop where
  cap_eq : s.cap = cap
  state : s.state = p.state
  sound : p.Sound cap
  append : p.pre ++ p.rest = text
  cursor : s.cursor.Between p.pre p.rest
  log : ∃ mode, Trail cap (.start mode text) s.log.toList p
  lookahead : ∀ la, s.lookahead = some la → la.Reads cap p
  previous : ∀ prev, s.previous = some prev → prev.Fits cap text (size p.pre)

theorem cap_le (s : Session) : s.cap ≤ depthCeiling :=
  Nat.min_le_right _ _

variable {cap : Nat} {text : List Char} {s : Session} {p : Stand} {valid : TokenSet}
  {la : Lookahead}

theorem search_reads (h : s.Stands cap text p) (valid : TokenSet) :
    (s.search valid).Reads cap p ∧ (s.search valid).valid = valid := by
  obtain rfl := h.cap_eq
  have hscan := Lexer.scan_eq s.cap valid h.sound.comment h.cursor
  rw [search, h.state, hscan]
  cases ht : p.token? s.cap valid with
  | some t =>
    simp only [Option.map_some, Stand.scanned_eq ht]
    exact ⟨.of_token _ ht (Stand.cursor_between s.cap valid p) (.inl rfl), trivial⟩
  | none =>
    obtain ⟨t, ht'⟩ := Option.isSome_iff_exists.1 (Stand.lexical_isSome h.sound)
    have hnext := Stand.next_of_none h.sound ht
    have hcursor := Stand.cursor_between s.cap valid p
    rw [hnext] at hcursor
    have hscan' := Lexer.scan_eq s.cap .lexical h.sound.comment hcursor
    simp only [Option.map_none, hnext, hscan', ht', Option.map_some, Stand.scanned_eq ht']
    exact ⟨.of_token _ ht' (Stand.cursor_between s.cap .lexical p) (.inr ⟨ht, rfl⟩), trivial⟩

/-- A cursor moved behind the next token stands there. -/
theorem moveTo_next {c : Cursor} {t : Scanned} (hc : c.Between p.pre p.rest)
    (ht : p.token? cap valid = some t) :
    (c.moveTo t.token.span.stop).Between (p.next cap valid).pre (p.next cap valid).rest := by
  rw [← List.take_append_drop (p.reading cap valid).used p.rest] at hc
  rw [Stand.stop_eq ht, Stand.next, hc.moveTo]
  exact .fresh _ _

theorem reuse?_reads (h : s.Stands cap text p) (hr : s.reuse? valid = some la) :
    la.Reads cap p ∧ la.valid = valid := by
  obtain rfl := h.cap_eq
  rw [reuse?] at hr
  obtain ⟨prev, hprev, hr⟩ := Option.bind_eq_some_iff.1 hr
  obtain ⟨origin, ho, hr⟩ := Option.bind_eq_some_iff.1 hr
  obtain ⟨old, hold, hr⟩ := Option.bind_eq_some_iff.1 hr
  rw [h.cursor.byte_eq] at ho
  obtain ⟨head, mid, new, tail, r, htext, he, hrs, hrt, rfl, ht⟩ :=
    (h.previous prev hprev).tokenAt? ho hold
  simp only [] at hr
  split at hr
  · cases hr
  rename_i hahead
  split at hr
  · cases hr
  rename_i hsame
  rw [not_or, not_not, not_not, h.state] at hsame
  obtain ⟨hvalid, hbefore⟩ := hsame
  obtain ⟨state, hload, hr⟩ := Option.bind_eq_some_iff.1 hr
  have hstate : r.state = p.state := by
    refine Lexer.State.encode_inj (hrs.depth.trans s.cap_le) (h.sound.depth.trans s.cap_le) ?_
    rw [← Stand.before_eq ht, hbefore]
  rw [he] at ho hahead hr
  have hstart : (Edit.between head mid new).start.byte = size head := Location.behind_byte head
  rw [hstart] at hahead hr
  rw [hvalid] at ht
  have hnow := Lexer.token?_across hrs hrt (h.append.trans htext) hstate ht ho (by
    intro hle
    by_contra hlt
    exact hahead ⟨hle, Nat.lt_of_not_le hlt⟩)
  have hafter : old.after = (p.next s.cap valid).state.encode := by
    have hafter := Stand.after_eq hnow
    split at hafter <;> exact hafter
  have hsound : (p.next s.cap valid).Sound s.cap := Stand.next_sound h.sound
  rw [hafter, Lexer.State.load_encode hsound.depth s.cap_le] at hload
  cases hload
  cases hr
  exact ⟨.of_token _ hnow (moveTo_next h.cursor hnow) (.inl rfl), rfl⟩

/-- The next token is the one that the lexer reads, wherever it comes from. -/
theorem scan_reads (h : s.Stands cap text p) (valid : TokenSet) :
    (s.scan valid).Reads cap p ∧ (s.scan valid).valid = valid := by
  rw [scan]
  cases hr : s.reuse? valid with
  | some la => exact reuse?_reads h hr
  | none => exact search_reads h valid

/-- Taking a token moves the session behind it. -/
theorem Stands.commit (h : s.Stands cap text p) (hla : la.Reads cap p) :
    (s.commit la).Stands cap text (p.next cap la.scanned.valid) where
  cap_eq := h.cap_eq
  state := hla.state
  sound := Stand.next_sound h.sound
  append := (Stand.next_append _ _ _).trans h.append
  cursor := hla.cursor
  log := by
    obtain ⟨mode, hlog⟩ := h.log
    refine ⟨mode, ?_⟩
    rw [Session.commit, Array.toList_push]
    exact hlog.snoc hla.token
  lookahead := fun _ h => nomatch h
  previous := by
    intro prev hprev
    obtain ⟨prev, hs, rfl⟩ := Option.map_eq_some_iff.1 hprev
    rw [hla.cursor.byte_eq]
    refine ((h.previous prev hs).mono ?_).passed
    rw [Stand.next, Text.size_append]
    exact Nat.le_add_right _ _

/-! ## Looking ahead -/

/-- The session with its next token found. -/
def look (s : Session) (valid : TokenSet) : Session :=
  { s with lookahead := some (s.scan valid) }

/-- The session with its next token, a comment, taken. -/
def takeComment (s : Session) (valid : TokenSet) : Session :=
  let token := (s.scan valid).scanned.token
  let taken := s.commit (s.scan valid)
  { taken with extras := taken.extras.push (.leaf (.ofToken token.kind) token) }

theorem fetch_of_not {n : Nat} (h : (s.scan valid).scanned.token.kind.isExtra = false) :
    fetch valid n s = ((s.scan valid).scanned.token, s.look valid) := by
  rw [fetch.eq_def]
  simp only [h]
  rfl

theorem fetch_zero (valid : TokenSet) (s : Session) :
    fetch valid 0 s = ((s.scan valid).scanned.token, s.look valid) := by
  rw [fetch.eq_def]
  cases h : (s.scan valid).scanned.token.kind.isExtra <;> simp only [h] <;> rfl

theorem fetch_succ {n : Nat} (h : (s.scan valid).scanned.token.kind.isExtra) :
    fetch valid (n + 1) s = fetch valid n (s.takeComment valid) := by
  rw [fetch.eq_def]
  simp only [h]
  rfl

theorem Stands.withExtras (h : s.Stands cap text p) (extras : Array Node) :
    Stands cap text { s with extras } p :=
  ⟨h.cap_eq, h.state, h.sound, h.append, h.cursor, h.log, h.lookahead, h.previous⟩

theorem Stands.look (h : s.Stands cap text p) (valid : TokenSet) :
    (s.look valid).Stands cap text p :=
  ⟨h.cap_eq, h.state, h.sound, h.append, h.cursor, h.log,
    fun _ hl => Option.some.inj hl ▸ (scan_reads h valid).1, h.previous⟩

end Session

end Parse

end AvroTree
