import AvroTree.Proofs.Foresight
import AvroTree.Proofs.SchemaTaking
import AvroTree.Proofs.Trimming

/-!
# Cursors stay in their text

Whatever is done with a cursor, it stands between two characters of its text and in its window, and
its row and column are those it started from, carried over the text in between (`Went`). So all that
is ever cut from the text, by the cursor or by a lexer that reads its window, is there to be cut
(`uses_safe`).
-/

namespace AvroTree

open Text (slice? isBoundary)

namespace Cursor

/-- What may be done with a cursor. -/
inductive Use where
  | setLimit (n : Nat)
  | beginScan
  | peek
  | peekAt (n : Nat)
  | advance
  | advanceWhile (p : Char → Bool)
  | eat (expected : Char)
  | mark
  /-- Back to a mark, the last one set being number zero. -/
  | reset (i : Nat)
  /-- A scan, whatever the settings of the lexer and its state. -/
  | scan (config : Lexer.Config) (valid : TokenSet) (state : Lexer.State)

/-- A cursor with the marks that were set on its way, the last one first. -/
structure Tour where
  cursor : Cursor
  marks : List Mark := []

/-- The cursor does not go back to marks that were not set or that its window does not reach. -/
def Tour.back (u : Tour) (i : Nat) : Tour :=
  match u.marks[i]? with
  | some m => if m.place.byte ≤ u.cursor.limit then { u with cursor := u.cursor.reset m } else u
  | none => u

def Use.run (u : Tour) : Use → Tour
  | .setLimit n => { u with cursor := u.cursor.setLimit n }
  | .beginScan => { u with cursor := u.cursor.beginScan }
  | .peek => { u with cursor := (u.cursor.run Lexer.peek).2 }
  | .peekAt n => { u with cursor := (u.cursor.run (Lexer.peekAt n)).2 }
  | .advance => { u with cursor := (u.cursor.run Lexer.next).2 }
  | .advanceWhile p => { u with cursor := (u.cursor.run (Lexer.skipWhile p)).2 }
  | .eat expected => { u with cursor := (u.cursor.run (Lexer.skipIf (· == expected))).2 }
  | .mark => { u with marks := u.cursor.mark :: u.marks }
  | .reset i => u.back i
  | .scan config valid state => { u with cursor := (u.cursor.scan config.cap valid state).2.2 }

/-- The first `n` characters of `rest`, the end of a window, can be cut from the text. -/
def Cut (text : String) (limit : Nat) (rest : List Char) (n : Nat) : Prop :=
  n ≤ rest.length
    ∧ slice? text.toList (limit - Text.size rest) (limit - Text.size (rest.drop n))
      = some (rest.take n)

/-- A cursor that began at `start` and has not left its text. -/
structure Safe (text : String) (start : Location) (c : Cursor) : Prop where
  le_limit : c.place.byte ≤ c.limit
  limit_le : c.limit ≤ text.utf8ByteSize
  boundary : isBoundary text c.place.byte
  limit_boundary : isBoundary text c.limit
  /-- The point at the start goes over the text up to the cursor. -/
  point : ∃ passed, slice? text.toList start.byte c.place.byte = some passed
    ∧ c.place.point = start.point.advance passed
  point_eq : start.point = Point.ofOffset text start.byte →
    c.place.point = Point.ofOffset text c.place.byte
  window : slice? text.toList c.place.byte c.limit = some c.window
  /-- Wherever a lexer stands in the window, the words it may ask for are there. -/
  words : ∀ rest, rest <:+ c.window → Cut text c.limit rest (Lexer.nameRest rest).used
    ∧ Cut text c.limit rest (Lexer.skipWhile Text.isNamePart rest).used
  tokens : ∀ (config : Lexer.Config) (valid : TokenSet) (state : Lexer.State) (t : Token),
    (c.scan config.cap valid state).1 = some t →
      ∃ body, slice? text.toList t.span.start.byte t.span.stop.byte = some body

/-- A cursor that stood at `start`, between `front` and `back`, has gone on over `passed`. Its
window shows `w` and leaves out `out`. -/
structure Went (start : Location) (front back passed w out : List Char) (c : Cursor) : Prop where
  back_eq : back = passed ++ w ++ out
  place : c.place = start.advance passed
  frames : c.Frames (front ++ passed) w out

variable {text : String} {start : Location} {front back passed w out : List Char} {c : Cursor}

theorem advance_advance (l : Location) (a b : List Char) :
    (l.advance a).advance b = l.advance (a ++ b) :=
  List.foldl_append.symm

namespace Went

theorem beginScan (h : Went start front back passed w out c) :
    Went start front back passed w out c.beginScan :=
  ⟨h.back_eq, h.place, h.frames.byte, h.frames.rest_eq, h.frames.limit, h.frames.size_eq⟩

/-- A lexer that stays in the window takes the cursor along in it. -/
theorem run {α : Type} {p : Lexer α} (h : Went start front back passed w out c)
    (hp : (p w).used ≤ w.length ∨ out = []) :
    Went start front back (passed ++ w.take (p w).used) (w.drop (p w).used) out (c.run p).2 := by
  obtain ⟨htake, -⟩ := h.frames.take_rest hp
  have hskip := h.frames.skip hp (p w).seen
  have hrun : (c.run p).2 = (c.examine (p w).seen).skip (p w).used := by
    rw [Cursor.run, h.frames.window]
  rw [hrun]
  refine ⟨?_, ?_, ?_⟩
  · rw [List.append_assoc passed, List.take_append_drop]
    exact h.back_eq
  · show c.place.advance (c.rest.take (p w).used) = _
    rw [htake, h.place, advance_advance]
  · rw [← List.append_assoc]
    exact ⟨hskip.byte, hskip.rest_eq, hskip.limit, hskip.size_eq⟩

theorem setLimit (h : Went start front back passed w out c) (n : Nat) :
    ∃ w' out', Went start front back passed w' out' (c.setLimit n) := by
  obtain ⟨w', out', hsplit, hframes⟩ := h.frames.setLimit n
  refine ⟨w', out', ?_, ?_, hframes⟩
  · rw [h.back_eq, List.append_assoc, hsplit, List.append_assoc]
  · rw [setLimit_place, h.place]

/-- A mark in the window or in front of it can be gone back to. -/
theorem reset {m : Mark} {before : List Char} (h : Went start front back passed w out c)
    (hstart : start.byte = Text.size front) (hback : back = before ++ m.rest)
    (hplace : m.place = start.advance before) (hle : m.place.byte ≤ c.limit) :
    ∃ w', Went start front back before w' out (c.reset m) := by
  have hbyte : m.place.byte = Text.size (front ++ before) := by
    rw [hplace, Location.advance_eq, Text.size_append, hstart]
  rw [hbyte, h.frames.limit, List.append_assoc, Text.size_append, Text.size_append front,
    Nat.add_le_add_iff_left] at hle
  obtain ⟨w', hw', hrest⟩ := Text.prefix_of_size_le (hback.symm.trans h.back_eq) hle
  refine ⟨w', ?_, hplace, hbyte, hrest, ?_, ?_⟩
  · rw [← hw']
    exact h.back_eq
  · rw [List.append_assoc, ← hw', ← List.append_assoc]
    exact h.frames.limit
  · rw [List.append_assoc front, ← hw', ← List.append_assoc front]
    exact h.frames.size_eq

/-- A scan stays in the window. -/
theorem scan (h : Went start front back passed w out c) (cap : Nat) (valid : TokenSet)
    (state : Lexer.State) :
    ∃ n, Went start front back (passed ++ w.take n) (w.drop n) out
      (c.scan cap valid state).2.2 := by
  have hattempt := Lexer.token_attempted cap valid c.isBounded state w
  have hused : (Lexer.token cap valid c.isBounded state w).used ≤ w.length ∨ out = [] := by
    have hbounded : c.isBounded = false → out = [] := by
      rw [h.frames.isBounded]
      simp
    generalize Lexer.token cap valid c.isBounded state w = r at hattempt
    cases hattempt with
    | nothing => exact .inl (Nat.zero_le _)
    | givenUp => exact .inl (Nat.zero_le _)
    | last _ _ _ _ _ _ he _ => exact .inl he.le
    | found _ _ _ _ _ _ _ _ hle => exact hle.imp_right hbounded
  exact ⟨_, h.beginScan.run hused⟩

end Went

/-! ## What can be cut from the text -/

theorem slice?_parts {text : List Char} {a b c : List Char} (h : text = a ++ b ++ c) :
    slice? text (Text.size a) (Text.size (a ++ b)) = some b := by
  rw [h, Text.size_append, Text.slice?_append]

theorem isBoundary_of_append {a b : List Char} (h : text.toList = a ++ b) :
    isBoundary text (Text.size a) := by
  rw [isBoundary, h, Text.dropBytes?_append]
  rfl

namespace Went

theorem words (h : Went start front back passed w out c) (htext : text.toList = front ++ back)
    {rest : List Char} (hrest : rest <:+ w) {n : Nat} (hn : n ≤ rest.length) :
    Cut text c.limit rest n := by
  obtain ⟨seen, rfl⟩ := hrest
  have hparts : rest = rest.take n ++ rest.drop n := (List.take_append_drop n rest).symm
  have hlimit : c.limit = Text.size (front ++ passed ++ seen) + Text.size rest := by
    rw [h.frames.limit, ← Text.size_append, List.append_assoc, List.append_assoc,
      List.append_assoc]
  have hfrom : c.limit - Text.size rest = Text.size (front ++ passed ++ seen) := by omega
  have hto : c.limit - Text.size (rest.drop n)
      = Text.size (front ++ passed ++ seen ++ rest.take n) := by
    have hsize := congrArg Text.size hparts
    rw [Text.size_append] at hsize
    rw [Text.size_append _ (rest.take n)]
    omega
  refine ⟨hn, ?_⟩
  rw [hfrom, hto]
  refine slice?_parts (c := rest.drop n ++ out) ?_
  rw [htext, h.back_eq]
  simp only [List.append_assoc]
  rw [← List.append_assoc (rest.take n), ← hparts]

theorem tokens (h : Went start front back passed w out c) (htext : text.toList = front ++ back)
    {cap : Nat} {valid : TokenSet} {state : Lexer.State} {t : Token}
    (ht : (c.scan cap valid state).1 = some t) :
    ∃ body, slice? text.toList t.span.start.byte t.span.stop.byte = some body := by
  have hscan := h.frames.scan_eq cap valid state rfl
  have hattempt := Lexer.token_attempted cap valid (!out.isEmpty) state w
  rw [hscan] at ht
  obtain ⟨f, hf, rfl⟩ := Option.map_eq_some_iff.1 ht
  have hblanks := hattempt.blanks_le hf
  generalize (Lexer.token cap valid (!out.isEmpty) state w).used = used at hblanks
  have hrest : c.rest = w ++ out := h.frames.rest_eq
  have hsplit : c.rest.take used
      = c.rest.take f.blanks ++ (c.rest.drop f.blanks).take (used - f.blanks) := by
    rw [← List.take_add, Nat.add_sub_cancel' hblanks]
  have hbyte (cs : List Char) : (c.place.advance cs).byte = Text.size (front ++ passed ++ cs) := by
    rw [Location.advance_eq, Text.size_append, h.frames.byte]
  refine ⟨(c.rest.drop f.blanks).take (used - f.blanks), ?_⟩
  show slice? text.toList (c.place.advance (c.rest.take f.blanks)).byte
    (c.place.advance (c.rest.take used)).byte = _
  rw [hbyte, hbyte, hsplit, ← List.append_assoc]
  refine slice?_parts (c := c.rest.drop used) ?_
  rw [List.append_assoc, List.append_assoc, ← List.append_assoc (c.rest.take f.blanks), ← hsplit,
    List.take_append_drop, htext, h.back_eq, hrest]
  simp only [List.append_assoc]

theorem safe (h : Went start front back passed w out c) (htext : text.toList = front ++ back)
    (hstart : start.byte = Text.size front) : c.Safe text start := by
  have hbyte : c.place.byte = Text.size (front ++ passed) := h.frames.byte
  have hlimit : c.limit = Text.size (front ++ passed ++ w) := h.frames.limit
  have hwhole : text.toList = front ++ passed ++ w ++ out := by
    rw [htext, h.back_eq]
    simp only [List.append_assoc]
  have hpoint : c.place.point = start.point.advance passed := by
    rw [h.place, Location.advance_eq]
  refine ⟨?_, ?_, ?_, ?_, ⟨passed, ?_, hpoint⟩, fun hat => ?_, ?_, fun rest hrest => ?_,
    fun config valid state t => h.tokens htext⟩
  · rw [hbyte, hlimit, Text.size_append _ w]
    exact Nat.le_add_right _ _
  · rw [hlimit, Text.utf8ByteSize_eq, hwhole, Text.size_append _ out]
    exact Nat.le_add_right _ _
  · rw [hbyte]
    exact isBoundary_of_append (hwhole.trans (List.append_assoc _ _ _))
  · rw [hlimit]
    exact isBoundary_of_append hwhole
  · rw [hstart, hbyte]
    exact slice?_parts (c := w ++ out) (hwhole.trans (List.append_assoc _ _ _))
  · have hfront : Point.ofOffset text start.byte = (Location.behind front).point := by
      rw [hstart]
      exact congrArg Location.point (Location.ofOffset_append htext)
    have hhere := congrArg Location.point
      (Location.ofOffset_append (hwhole.trans (List.append_assoc _ _ _)))
    rw [hpoint, hat, hfront, hbyte]
    refine Eq.trans ?_ hhere.symm
    rw [Location.behind_point, Location.behind_point, Point.advance_append]
  · rw [hbyte, hlimit, h.frames.window]
    exact slice?_parts hwhole
  · rw [h.frames.window] at hrest
    refine ⟨h.words htext hrest (Lexer.nameRest_blunt.used_le rest), h.words htext hrest ?_⟩
    rw [Lexer.skipWhile_eq]
    exact (List.takeWhile_prefix _).length_le

end Went

/-! ## Any number of uses -/

/-- The cursor and all marks lie in the text from `start` on. -/
structure Tour.Sound (start : Location) (front back : List Char) (u : Tour) : Prop where
  cursor : ∃ passed w out, Went start front back passed w out u.cursor
  marks : ∀ m ∈ u.marks, ∃ before, back = before ++ m.rest ∧ m.place = start.advance before

theorem Use.run_sound {u : Tour} (hstart : start.byte = Text.size front)
    (h : u.Sound start front back) (use : Use) : (use.run u).Sound start front back := by
  obtain ⟨⟨passed, w, out, hc⟩, hmarks⟩ := h
  have reads {α : Type} {p : Lexer α} (hp : (p w).used ≤ w.length) :
      Tour.Sound start front back { u with cursor := (u.cursor.run p).2 } :=
    ⟨⟨_, _, _, hc.run (.inl hp)⟩, hmarks⟩
  cases use with
  | setLimit n =>
    obtain ⟨w', out', hc'⟩ := hc.setLimit n
    exact ⟨⟨_, _, _, hc'⟩, hmarks⟩
  | beginScan => exact ⟨⟨_, _, _, hc.beginScan⟩, hmarks⟩
  | peek => exact reads (Nat.zero_le _)
  | peekAt n => exact reads (Nat.zero_le _)
  | advance =>
    refine reads ?_
    cases w with
    | nil => exact Nat.zero_le _
    | cons d w => exact Nat.succ_le_succ (Nat.zero_le _)
  | advanceWhile p =>
    refine reads ?_
    rw [Lexer.skipWhile_eq]
    exact (List.takeWhile_prefix p).length_le
  | eat expected =>
    refine reads ?_
    cases w with
    | nil => exact Nat.zero_le _
    | cons d w =>
      rw [Lexer.skipIf]
      split
      · exact Nat.succ_le_succ (Nat.zero_le _)
      · exact Nat.zero_le _
  | mark =>
    refine ⟨⟨_, _, _, hc⟩, List.forall_mem_cons.2 ⟨⟨passed, ?_, hc.place⟩, hmarks⟩⟩
    rw [hc.back_eq, List.append_assoc, ← hc.frames.rest_eq]
    rfl
  | reset i =>
    show (u.back i).Sound start front back
    unfold Tour.back
    split
    · rename_i m hm
      split_ifs with hle
      · obtain ⟨before, hback, hplace⟩ := hmarks m (List.mem_of_getElem? hm)
        obtain ⟨w', hc'⟩ := hc.reset hstart hback hplace hle
        exact ⟨⟨_, _, _, hc'⟩, hmarks⟩
      · exact ⟨⟨_, _, _, hc⟩, hmarks⟩
    · exact ⟨⟨_, _, _, hc⟩, hmarks⟩
  | scan config valid state =>
    obtain ⟨n, hc'⟩ := hc.scan config.cap valid state
    exact ⟨⟨_, _, _, hc'⟩, hmarks⟩

theorem Use.runs_sound (hstart : start.byte = Text.size front) : ∀ (uses : List Use) {u : Tour},
    u.Sound start front back → (uses.foldl run u).Sound start front back
  | [], _, h => h
  | use :: uses, _, h => runs_sound hstart uses (run_sound hstart h use)

/-- Whatever is done with a cursor that starts between two characters of a text, it stays between
two characters, in its window and in the text, and knows its point. What its window shows can be cut
from the text, and so can all that lies between a mark and the cursor. -/
theorem uses_safe {text : String} {start : Location} (h : isBoundary text start.byte)
    (uses : List Use) :
    let u := uses.foldl Use.run ⟨startAt text start, []⟩
    u.cursor.Safe text start
      ∧ ∀ m ∈ u.marks, m.place.byte ≤ u.cursor.place.byte →
        slice? text.toList m.place.byte u.cursor.place.byte = some (u.cursor.textFrom m) := by
  intro u
  obtain ⟨back, hback⟩ := Option.isSome_iff_exists.1 h
  obtain ⟨front, htext, hfront⟩ := Text.eq_append_of_dropBytes? hback
  have hstart : start = ⟨Text.size ([] ++ front), start.point⟩ := by rw [List.nil_append, hfront]
  have hframes : (startAt text start).Frames ([] ++ front) back [] := by
    rw [startAt, hstart]
    exact (Frames.start text).moveTo (by rw [List.append_nil, htext]) start.point
  have hu : u.Sound start front back := by
    refine Use.runs_sound hfront.symm uses ⟨⟨[], back, [], ?_, ?_, ?_⟩, List.forall_mem_nil _⟩
    · rw [List.nil_append, List.append_nil]
    · calc (startAt text start).place
        _ = ⟨(startAt text start).place.byte, start.point⟩ := rfl
        _ = start := by rw [hframes.byte, List.nil_append, hfront]
    · rw [List.append_nil]
      exact hframes
  obtain ⟨⟨passed, w, out, hc⟩, hmarks⟩ := hu
  refine ⟨hc.safe htext hfront.symm, fun m hm hle => ?_⟩
  obtain ⟨before, hbefore, hplace⟩ := hmarks m hm
  have hbyte : m.place.byte = Text.size (front ++ before) := by
    rw [hplace, Location.advance_eq, Text.size_append, hfront]
  have hrest : back = passed ++ (w ++ out) := hc.back_eq.trans (List.append_assoc _ _ _)
  have hle' := hle
  rw [hbyte, hc.frames.byte, Text.size_append, Text.size_append, Nat.add_le_add_iff_left] at hle'
  obtain ⟨mid, rfl, hmid⟩ := Text.prefix_of_size_le (hbefore.symm.trans hrest) hle'
  have hspan : u.cursor.place.byte - m.place.byte = Text.size mid := by
    rw [hbyte, hc.frames.byte, ← List.append_assoc, Text.size_append _ mid, Nat.add_sub_cancel_left]
  rw [textFrom, hspan, hmid, Text.takeBytes_append, hbyte, hc.frames.byte, ← List.append_assoc]
  refine slice?_parts (c := w ++ out) ?_
  rw [htext, hrest]
  simp only [List.append_assoc]

/-- A window that ends inside a character, a scan that does not find its token whole, and a way back
from behind it. -/
theorem uses_safe_windowed :
    let uses : List Use := [.setLimit 6, .scan {} .lexical {}, .mark, .setLimit 20,
      .scan {} .lexical {}, .mark, .reset 1, .advanceWhile Text.isSpace, .peekAt 7]
    let u := uses.foldl Use.run ⟨startAt "é\n né;" ⟨2, ⟨0, 2⟩⟩, []⟩
    isBoundary "é\n né;" 2 ∧ u.cursor.place = ⟨4, ⟨1, 1⟩⟩ ∧ u.cursor.limit = 8
      ∧ u.cursor.Safe "é\n né;" ⟨2, ⟨0, 2⟩⟩ := by
  intro uses u
  have h : isBoundary "é\n né;" 2 := by decide
  exact ⟨h, by decide, by decide, (@uses_safe _ ⟨2, ⟨0, 2⟩⟩ h uses).1⟩

end Cursor

end AvroTree
