import AvroTree.Proofs.Attempts

/-!
# How far a scan looks

A scan reports the furthest byte that it has examined, and what it answers depends on nothing behind
that byte (`scan_congr`). A window that ends before the text does takes characters away from it. As
long as the scan wanted none of these, it answers as it would have done without the window
(`scan_setLimit`).
-/

namespace AvroTree

open Text (size)

namespace Text

/-! ## Characters and their bytes -/

theorem size_utf8Encode (cs : List Char) : cs.utf8Encode.size = size cs := by
  rw [← String.toByteArray_ofList, String.size_toByteArray, utf8ByteSize_ofList]

/-- The bytes of a part of a text are those of its characters. -/
theorem extract_toByteArray {text : String} {pre mid post : List Char}
    (h : text.toList = pre ++ mid ++ post) :
    text.toByteArray.extract (size pre) (size (pre ++ mid)) = mid.utf8Encode := by
  have hdrop := ByteArray.extract_append_size_add (a := pre.utf8Encode)
    (b := mid.utf8Encode ++ post.utf8Encode) (i := 0) (j := mid.utf8Encode.size)
  rw [Nat.add_zero] at hdrop
  rw [← String.utf8Encode_toList, h, List.append_assoc, List.utf8Encode_append,
    List.utf8Encode_append, size_append, ← size_utf8Encode pre, ← size_utf8Encode mid, hdrop,
    ByteArray.extract_append_eq_left rfl]

/-- Characters stand in a text where their bytes do. -/
theorem prefix_of_extract {text : String} {pre rest cs : List Char} (h : text.toList = pre ++ rest)
    (hle : size pre + size cs ≤ text.utf8ByteSize)
    (hbytes : text.toByteArray.extract (size pre) (size pre + size cs) = cs.utf8Encode) :
    cs <+: rest := by
  have hsplit : text.toList = pre ++ rest ++ [] := by rw [List.append_nil, h]
  have hrest := extract_toByteArray hsplit
  have hsize : size (pre ++ rest) = text.utf8ByteSize := by rw [utf8ByteSize_eq, h]
  rw [hsize, ByteArray.extract_eq_extract_append_extract (size pre + size cs)
    (Nat.le_add_right _ _) hle, hbytes] at hrest
  exact List.isPrefix_of_utf8Encode_append_eq_utf8Encode _ hrest

end Text

namespace Cursor

/-- The cursor stands between two characters of a text and sees all of it that is left. Nothing is
said about its row and column. -/
def Sees (text : String) (c : Cursor) : Prop :=
  ∃ pre rest, text.toList = pre ++ rest ∧ c.Frames pre rest []

theorem setLimit_place (c : Cursor) (n : Nat) : (c.setLimit n).place = c.place := by
  rw [Cursor.setLimit]
  split <;> rfl

theorem setLimit_rest (c : Cursor) (n : Nat) : (c.setLimit n).rest = c.rest := by
  rw [Cursor.setLimit]
  split <;> rfl

theorem Sees.start (text : String) : (start text).Sees text :=
  ⟨[], text.toList, rfl, .start text⟩

variable {cap : Nat} {valid : TokenSet} {state : Lexer.State} {pre w out : List Char} {c : Cursor}

theorem Frames.lookahead_eq (h : c.Frames pre w out) {r : Reading Lexer.Outcome}
    (hr : r = Lexer.token cap valid (!out.isEmpty) state w) :
    (c.scan cap valid state).2.2.lookahead = Text.size pre + reach w r.seen := by
  have hwindow : c.beginScan.window = w := h.window
  rw [h.scan_eq cap valid state hr, ← h.byte]
  show (if r.seen = 0 then c.place.byte
    else max c.place.byte (c.place.byte + reach c.beginScan.window r.seen)) = _
  rw [hwindow]
  split
  · rename_i hzero
    rw [hzero, reach, Nat.add_zero]
  · exact Nat.max_eq_right (Nat.le_add_right _ _)

theorem Frames.hitLimit_eq (h : c.Frames pre w out) {r : Reading Lexer.Outcome}
    (hr : r = Lexer.token cap valid (!out.isEmpty) state w) :
    (c.scan cap valid state).2.2.hitLimit = (!out.isEmpty && decide (w.length < r.seen)) := by
  have hwindow : c.beginScan.window = w := h.window
  have hbounded : c.beginScan.isBounded = !out.isEmpty := h.isBounded
  rw [h.scan_eq cap valid state hr]
  show (false || (c.beginScan.isBounded && decide (c.beginScan.window.length < r.seen))) = _
  rw [hwindow, hbounded, Bool.false_or]

end Cursor

namespace Lexer

variable {cap : Nat} {valid : TokenSet} {state : State} {w : List Char} {r whole : Reading Outcome}

/-! ## What a scan depends on -/

theorem Attempted.blanks_le {bounded : Bool} {f : Found}
    (h : Attempted cap valid bounded state w r) (hf : r.value.found = some f) :
    f.blanks ≤ r.used := by
  cases h with
  | nothing => cases hf
  | givenUp => cases hf
  | last =>
    cases hf
    exact le_rfl
  | found _ _ _ _ _ _ hlt =>
    cases hf
    exact hlt.le

/-- What a scan answers, the state and the place it leaves and how far it has looked depend only on
the bytes from the cursor on that it has looked at. -/
theorem scan_congr (config : Config) (valid : TokenSet) (state : State) {s t : String}
    {c d : Cursor} (hc : c.Sees s) (hd : d.Sees t) (hplace : d.place = c.place)
    (hs : (c.scan config.cap valid state).2.2.lookahead ≤ s.utf8ByteSize)
    (ht : (c.scan config.cap valid state).2.2.lookahead ≤ t.utf8ByteSize)
    (hbytes : s.toByteArray.extract c.place.byte (c.scan config.cap valid state).2.2.lookahead
      = t.toByteArray.extract c.place.byte (c.scan config.cap valid state).2.2.lookahead) :
    (d.scan config.cap valid state).1 = (c.scan config.cap valid state).1
      ∧ (d.scan config.cap valid state).2.1 = (c.scan config.cap valid state).2.1
      ∧ (d.scan config.cap valid state).2.2.place = (c.scan config.cap valid state).2.2.place
      ∧ (d.scan config.cap valid state).2.2.lookahead
        = (c.scan config.cap valid state).2.2.lookahead := by
  obtain ⟨pre, rest, htext, hc⟩ := hc
  obtain ⟨pre', rest', htext', hd⟩ := hd
  obtain ⟨r, hr⟩ : ∃ r, r = token config.cap valid false state rest := ⟨_, rfl⟩
  have hpre : size pre' = size pre := by rw [← hd.byte, hplace, hc.byte]
  have hlook := hc.lookahead_eq hr
  -- the end of the text has not been seen, so the lookahead is the size of what has been
  have hseen : r.seen ≤ rest.length := by
    refine Cursor.length_le_of_reach (b := []) ?_
    rw [List.append_nil]
    rw [hlook, Text.utf8ByteSize_eq, htext, Text.size_append] at hs
    omega
  rw [Cursor.reach_eq_size hseen] at hlook
  have hsame : rest.take r.seen <+: rest' := by
    refine Text.prefix_of_extract htext' (by rw [hpre, ← hlook]; exact ht) ?_
    rw [hpre, ← hlook, ← hc.byte, ← hbytes, hlook, hc.byte, ← Text.size_append]
    exact Text.extract_toByteArray (by rw [List.append_assoc, List.take_append_drop, htext])
  have hagree : Text.Agree r.seen rest rest' := by
    have htake := List.prefix_iff_eq_take.1 hsame
    rwa [List.length_take_of_le hseen] at htake
  have hlocal := token_local config.cap valid state
  have hr' : r = token config.cap valid false state rest' := by
    rw [hlocal.same rest rest' (hr ▸ hagree), hr]
  have hused : r.used ≤ r.seen := hr ▸ hlocal.used_le rest
  have htake (n : Nat) (hn : n ≤ r.seen) : d.rest.take n = c.rest.take n := by
    rw [hd.rest_eq, hc.rest_eq, List.append_nil, List.append_nil, hagree.take_eq hn]
  have hreach : Cursor.reach rest' r.seen = size (rest.take r.seen) := by
    have hle := hsame.length_le
    rw [List.length_take_of_le hseen] at hle
    rw [Cursor.reach_eq_size hle, hagree.take_eq le_rfl]
  have hattempt : Attempted config.cap valid false state rest r :=
    hr ▸ token_attempted config.cap valid false state rest
  rw [hd.lookahead_eq hr', hreach, hlook, hpre, hd.scan_eq config.cap valid state hr',
    hc.scan_eq config.cap valid state hr]
  refine ⟨?_, rfl, ?_, rfl⟩
  · rw [hplace, htake _ hused]
    refine Option.map_congr fun f hf => ?_
    rw [htake _ ((hattempt.blanks_le hf).trans hused)]
  · show d.place.advance (d.rest.take r.used) = c.place.advance (c.rest.take r.used)
    rw [hplace, htake _ hused]

/-- A word has been looked at up to the blank behind it, so the rest of the text may be another. -/
theorem scan_congr_word :
    let c := Cursor.start "ab cd"
    let d := Cursor.start "ab (é"
    let r := c.scan ({} : Config).cap .lexical {}
    c.Sees "ab cd" ∧ d.Sees "ab (é" ∧ d.place = c.place ∧ r.2.2.lookahead = 3
      ∧ r.1 = some ⟨.identifier, ⟨0, ⟨0, 0⟩⟩, ⟨2, ⟨0, 2⟩⟩⟩
      ∧ (d.scan ({} : Config).cap .lexical {}).1 = r.1 := by
  intro c d r
  have hc : c.Sees "ab cd" := .start _
  have hd : d.Sees "ab (é" := .start _
  have hlook : r.2.2.lookahead = 3 := by decide
  have hsame := scan_congr {} .lexical {} hc hd rfl (by decide) (by decide) (by decide)
  exact ⟨hc, hd, rfl, hlook, by decide, hsame.1⟩

/-! ## Windows -/

/-- What is read through the window `w` is what would be read without it, or else the window is in
the way and no whole token is found. -/
inductive Cut (w : List Char) (r whole : Reading Outcome) : Prop
  | same (eq : whole = r) (seen : r.seen ≤ w.length)
  | cut (seen : w.length < r.seen) (partly : r.value.found = none ∨ r.value.state.comment.isSome)

namespace Cut

theorem refl (h : r.seen ≤ w.length ∨ r.value.found = none) : Cut w r r := by
  by_cases hseen : r.seen ≤ w.length
  · exact .same rfl hseen
  · exact .cut (Nat.lt_of_not_le hseen) (.inl (h.resolve_left hseen))

theorem seeing (h : Cut w r whole) {n : Nat} (hn : n ≤ w.length) :
    Cut w (r.seeing n) (whole.seeing n) := by
  rcases h with ⟨rfl, hseen⟩ | ⟨hseen, hpart⟩
  · exact .same rfl (Nat.max_le.2 ⟨hn, hseen⟩)
  · exact .cut (hseen.trans_le (Nat.le_max_right _ _)) hpart

/-- What would run past the window is turned down. -/
theorem judged {α : Type} {a : Reading α} {no : Bool} {yes yes' : Reading Outcome}
    (h : a.seen ≤ w.length → Cut w yes yes') :
    Cut w (if (true && a.overran w || no) = true then a.reject state else yes)
      (if (false && a.overran w || no) = true then a.reject state else yes') := by
  rw [Bool.true_and, Bool.false_and, Bool.false_or, Reading.overran]
  by_cases hover : w.length < a.seen
  · rw [decide_eq_true hover, Bool.true_or, if_pos rfl]
    exact .cut hover (.inl rfl)
  · rw [decide_eq_false hover, Bool.false_or]
    have hseen := Nat.le_of_not_lt hover
    split
    · exact .same rfl hseen
    · exact h hseen

end Cut

theorem finishComment_cut (valid : TokenSet) (state : State) (k : CommentKind) {n : Nat}
    (hn : n ≤ w.length) :
    Cut w (finishComment valid true state k n w) (finishComment valid false state k n w) := by
  rw [finishComment_window state k hn]
  split
  · rename_i hclosed
    obtain ⟨hseen, hused⟩ := commentBody_closed hclosed
    rw [List.length_drop] at hused
    refine .same ?_ ?_
    · rw [finishComment_eq, closeComment, Reading.after_value, if_pos hclosed, Reading.map, ended,
        Reading.after_value, if_pos hclosed]
      rfl
    · rw [Reading.map_seen, Reading.after_seen]
      omega
  · rw [cutComment]
    split
    · exact .cut (Nat.lt_succ_self _) (.inl rfl)
    · exact .cut (Nat.lt_succ_self _) (.inr rfl)

theorem comment_cut (valid : TokenSet) (state : State) (hw : 2 ≤ w.length) :
    Cut w (comment valid true state w) (comment valid false state w) := by
  rw [comment, comment]
  simp only []
  split
  · split
    · exact .refl (.inl hw)
    · have hline (a : Reading Nat) : Cut w
          (if (true && a.overran w || false) = true then a.reject state
            else a.accept state .comment)
          (if (false && a.overran w || false) = true then a.reject state
            else a.accept state .comment) := .judged fun hseen => .same rfl hseen
      simp only [Bool.or_false] at hline
      exact hline _
  · exact .judged fun hseen => (finishComment_cut valid state _ hw).seeing hseen

theorem tokenHere_cut (cap : Nat) (valid : TokenSet) (state : State) (w : List Char) :
    Cut w (tokenHere cap valid true state w) (tokenHere cap valid false state w) := by
  cases w with
  | nil => exact .cut Nat.one_pos (.inl rfl)
  | cons c cs =>
    rw [tokenHere, tokenHere]
    simp only []
    split
    · rename_i hslash
      refine comment_cut valid state ?_
      cases cs with
      | nil => simp at hslash
      | cons d ds => simp
    · rw [Bool.or_assoc, Bool.or_assoc]
      exact .judged fun hseen => .same rfl hseen

theorem token_cut (cap : Nat) (valid : TokenSet) (state : State) (w : List Char) :
    Cut w (token cap valid true state w) (token cap valid false state w) := by
  rw [token, token]
  cases state.comment with
  | some k =>
    simp only []
    split
    · exact finishComment_cut valid state k (Nat.zero_le _)
    · exact .same rfl (Nat.zero_le _)
  | none =>
    have hn : (skipWhile Text.isSpace w).value = blanks w := by rw [skipWhile_eq]; rfl
    have hlen := blanks_le w
    have hhere := tokenHere_cut cap valid state (w.drop (blanks w))
    simp only [hn]
    generalize tokenHere cap valid true state (w.drop (blanks w)) = r at hhere
    generalize tokenHere cap valid false state (w.drop (blanks w)) = whole at hhere
    have hdrop : (w.drop (blanks w)).length = w.length - blanks w := List.length_drop
    rcases hhere with ⟨rfl, hseen⟩ | ⟨hseen, hpart⟩
    · refine .same rfl ?_
      split <;> simp only [Reading.back_seen, Reading.map_seen, Reading.after_seen] <;> omega
    · refine .cut ?_ ?_
      · split <;> simp only [Reading.back_seen, Reading.map_seen, Reading.after_seen] <;> omega
      · split
        · exact .inl ‹_›
        · rename_i hfound
          exact .inr (hpart.resolve_left (by rw [hfound]; exact Option.some_ne_none _))

/-- The text behind the window makes no difference to what is not cut. -/
theorem token_window (cap : Nat) (valid : TokenSet) (state : State) (w out : List Char)
    {r : Reading Outcome} (hr : r = token cap valid (!out.isEmpty) state w) :
    (token cap valid false state (w ++ out) = r ∧ (r.seen ≤ w.length ∨ out = []))
      ∨ (out.isEmpty = false ∧ w.length < r.seen
        ∧ (r.value.found = none ∨ r.value.state.comment.isSome)) := by
  cases out with
  | nil => exact .inl ⟨by rw [List.append_nil, hr]; rfl, .inr rfl⟩
  | cons d ds =>
    have hcut : Cut w r (token cap valid false state w) := hr ▸ token_cut cap valid state w
    rcases hcut with ⟨heq, hseen⟩ | ⟨hseen, hpart⟩
    · refine .inl ⟨?_, .inl hseen⟩
      rw [← heq] at hseen ⊢
      exact (token_local cap valid state).same _ _ (.append_right hseen _)
    · exact .inr ⟨rfl, hseen, hpart⟩

/-- A scan through a window does not disagree with one that sees the whole text. A token that it
finds is the token of the whole text, unless it is a comment that is to be continued; and if it
finds none though the window was not in the way, there is none. -/
theorem scan_setLimit (config : Config) (valid : TokenSet) (state : State) {text : String}
    {c : Cursor} (hc : c.Sees text) (limit : Nat) :
    (∀ t, ((c.setLimit limit).scan config.cap valid state).1 = some t →
        ((c.setLimit limit).scan config.cap valid state).2.1.comment = none →
        (c.scan config.cap valid state).1 = some t
          ∧ (c.scan config.cap valid state).2.1
            = ((c.setLimit limit).scan config.cap valid state).2.1
          ∧ (c.scan config.cap valid state).2.2.place
            = ((c.setLimit limit).scan config.cap valid state).2.2.place
          ∧ (c.scan config.cap valid state).2.2.lookahead
            = ((c.setLimit limit).scan config.cap valid state).2.2.lookahead)
      ∧ (((c.setLimit limit).scan config.cap valid state).1 = none →
        ((c.setLimit limit).scan config.cap valid state).2.2.hitLimit = false →
        (c.scan config.cap valid state).1 = none) := by
  obtain ⟨pre, rest, htext, hc⟩ := hc
  obtain ⟨w, out, hw, hcut⟩ := hc.setLimit limit
  rw [List.append_nil] at hw
  obtain ⟨r, hr⟩ : ∃ r, r = token config.cap valid (!out.isEmpty) state w := ⟨_, rfl⟩
  rw [hcut.lookahead_eq hr, hcut.hitLimit_eq hr]
  rcases token_window config.cap valid state w out hr with
    ⟨hwhole, hseen⟩ | ⟨hout, hseen, hpart⟩
  · have hwhole : r = token config.cap valid false state rest := by rw [hw, hwhole]
    have hreach : Cursor.reach rest r.seen = Cursor.reach w r.seen := by
      rcases hseen with hseen | rfl
      · rw [hw, Cursor.reach_eq_size hseen, Cursor.reach_eq_size (by simp; omega),
          List.take_append_of_le_length hseen]
      · rw [hw, List.append_nil]
    rw [hc.lookahead_eq hwhole, hreach, hc.scan_eq config.cap valid state hwhole,
      hcut.scan_eq config.cap valid state hr]
    have hplace := c.setLimit_place limit
    have hrest := c.setLimit_rest limit
    rw [hplace, hrest]
    refine ⟨fun t ht _ => ⟨ht, rfl, ?_, rfl⟩, fun h _ => h⟩
    show c.place.advance (c.rest.take r.used)
      = (c.setLimit limit).place.advance ((c.setLimit limit).rest.take r.used)
    rw [hplace, hrest]
  · rw [hcut.scan_eq config.cap valid state hr]
    refine ⟨fun t ht hcomment => ?_, fun _ hlimit => ?_⟩
    · rcases hpart with hnone | hsome
      · rw [hnone] at ht
        cases ht
      · rw [hcomment] at hsome
        cases hsome
    · rw [hout, decide_eq_true hseen] at hlimit
      cases hlimit

/-- Through a window that ends inside the second word the first one is found, and it is seen that no
number stands there. -/
theorem scan_setLimit_word :
    let c := Cursor.start "ab cd"
    let cut := (c.setLimit 4).scan ({} : Config).cap .lexical {}
    let other := (c.setLimit 4).scan ({} : Config).cap (.single .number) {}
    c.Sees "ab cd" ∧ cut.1 = some ⟨.identifier, ⟨0, ⟨0, 0⟩⟩, ⟨2, ⟨0, 2⟩⟩⟩ ∧ cut.2.1.comment = none
      ∧ (c.scan ({} : Config).cap .lexical {}).1 = cut.1
      ∧ other.1 = none ∧ other.2.2.hitLimit = false
      ∧ (c.scan ({} : Config).cap (.single .number) {}).1 = none := by
  intro c cut other
  have hc : c.Sees "ab cd" := .start _
  have hfound : cut.1 = some ⟨.identifier, ⟨0, ⟨0, 0⟩⟩, ⟨2, ⟨0, 2⟩⟩⟩ := by decide
  have hcomment : cut.2.1.comment = none := by decide
  have hnone : other.1 = none := by decide
  have hlimit : other.2.2.hitLimit = false := by decide
  have hwhole := (scan_setLimit {} .lexical {} hc 4).1 _ hfound hcomment
  exact ⟨hc, hfound, hcomment, hwhole.1.trans hfound.symm, hnone, hlimit,
    (scan_setLimit {} (.single .number) {} hc 4).2 hnone hlimit⟩

end Lexer

end AvroTree
