import AvroTree.Proofs.Editing
import AvroTree.Proofs.Foresight

/-!
# Positions across an edit

Behind an edit every byte of the old text is found again in the new one, `Edit.shiftByte` further
on, with the same text behind it. Its row and column are carried along by `Edit.shiftPoint`: from
one place on, a text walks either to a later row, whose column no longer depends on where the walk
began, or along the row it began in (`Point.walk_sameRow_or_later`). Bytes inside a character have a
place too, so nothing here asks for a character boundary behind the edit.
-/

namespace AvroTree

namespace Point

theorem walk_append_add : ∀ (p : Point) (a b : List Char) (n : Nat),
    p.walk (a ++ b) (Text.size a + n) = (p.advance a).walk b n
  | p, [], b, n => by rw [List.nil_append, Text.size_nil, Nat.zero_add]; rfl
  | p, c :: a, b, n => by
    rw [List.cons_append, Text.size_cons, Nat.add_assoc, walk, if_pos (Nat.le_add_right _ _),
      Nat.add_sub_cancel_left, walk_append_add (p.step c) a b n]
    rfl

/-- A walk over a text ends in the row it began in, or in a column of a later row that is the same
wherever it began. -/
theorem walk_sameRow_or_later : ∀ {cs : List Char} {n : Nat}, n ≤ Text.size cs →
    (∀ p : Point, p.walk cs n = ⟨p.row, p.column + n⟩) ∨
      ∃ rows column, 0 < rows ∧ ∀ p : Point, p.walk cs n = ⟨p.row + rows, column⟩
  | [], n, h => .inl fun p => by rw [walk, Nat.le_zero.1 h]; rfl
  | c :: cs, n, h => by
    by_cases hn : c.utf8Size ≤ n
    · have hwalk (p : Point) : p.walk (c :: cs) n = (p.step c).walk cs (n - c.utf8Size) :=
        if_pos hn
      have hle : n - c.utf8Size ≤ Text.size cs := by rw [Text.size_cons] at h; omega
      by_cases hc : c = '\n'
      · have hstep (p : Point) : p.step c = ⟨p.row + 1, 0⟩ := if_pos hc
        rcases walk_sameRow_or_later hle with hrow | ⟨rows, column, -, hlater⟩
        · refine .inr ⟨1, n - c.utf8Size, Nat.one_pos, fun p => ?_⟩
          rw [hwalk, hrow, hstep, Nat.zero_add]
        · refine .inr ⟨rows + 1, column, Nat.succ_pos rows, fun p => ?_⟩
          rw [hwalk, hlater, hstep, Point.mk.injEq]
          exact ⟨Nat.add_right_comm p.row 1 rows, rfl⟩
      · have hstep (p : Point) : p.step c = ⟨p.row, p.column + c.utf8Size⟩ := if_neg hc
        rcases walk_sameRow_or_later hle with hrow | ⟨rows, column, hrows, hlater⟩
        · refine .inl fun p => ?_
          rw [hwalk, hrow, hstep, Point.mk.injEq]
          exact ⟨rfl, by show p.column + c.utf8Size + (n - c.utf8Size) = p.column + n; omega⟩
        · refine .inr ⟨rows, column, hrows, fun p => ?_⟩
          rw [hwalk, hlater, hstep]
    · exact .inl fun p => if_neg hn

/-- No walk ends before it began. -/
theorem le_walk {cs : List Char} {n : Nat} (hn : n ≤ Text.size cs) (p : Point) :
    p.row ≤ (p.walk cs n).row
      ∧ ((p.walk cs n).row = p.row → p.column ≤ (p.walk cs n).column) := by
  rcases walk_sameRow_or_later hn with hrow | ⟨rows, column, hrows, hlater⟩
  · rw [hrow p]
    exact ⟨Nat.le_refl _, fun _ => Nat.le_add_right _ _⟩
  · rw [hlater p]
    exact ⟨Nat.le_add_right _ _, fun h => absurd h (by show p.row + rows ≠ p.row; omega)⟩

end Point

namespace Edit

/-- Two character boundaries in order are all an edit needs to fit. -/
theorem result?_of_isBoundary {text : String} {start stop : Nat} (hle : start ≤ stop)
    (hstart : Text.isBoundary text start) (hstop : Text.isBoundary text stop)
    (replacement : String) : ∃ new, result? text start stop replacement = some new := by
  obtain ⟨rest, hrest⟩ := Option.isSome_iff_exists.1 hstart
  obtain ⟨tail, htail⟩ := Option.isSome_iff_exists.1 hstop
  exact ⟨_, by rw [result?, if_pos hle, hrest, htail]⟩

/-- Byte `b` of the old text, at or behind the edit, is found again in the new text. No subtraction
on the way falls below zero: neither that of the bytes, nor that of the rows, nor that of the
columns where it is made. -/
structure Keeps (e : Edit) (old new : String) (b : Nat) : Prop where
  rest : old.toByteArray.extract b old.utf8ByteSize
    = new.toByteArray.extract (e.shiftByte b) new.utf8ByteSize
  byte : (e.shiftByte b : Int) = b + e.delta
  row_le : e.oldStop.point.row ≤ (Point.ofOffset old b).row
  column_le : (Point.ofOffset old b).row = e.oldStop.point.row →
    e.oldStop.point.column ≤ (Point.ofOffset old b).column
  point : e.shiftPoint (Point.ofOffset old b) = Point.ofOffset new (e.shiftByte b)
  back : e.start.byte < e.shiftByte b → e.oldOffset? (e.shiftByte b) = some b

section Between

variable {head mid put tail : List Char} {n : Nat}

/-- What is walked behind the old stretch is walked behind the new one. -/
theorem shiftPoint_walk (hn : n ≤ Text.size tail) :
    (between head mid put).shiftPoint ((Location.behind (head ++ mid)).point.walk tail n)
      = (Location.behind (head ++ put)).point.walk tail n := by
  rw [shiftPoint, between]
  generalize (Location.behind (head ++ mid)).point = p
  generalize (Location.behind (head ++ put)).point = q
  rcases Point.walk_sameRow_or_later hn with hrow | ⟨rows, column, hrows, hlater⟩
  · rw [hrow p, hrow q, if_pos rfl, Nat.add_sub_cancel_left]
  · rw [hlater p, hlater q, if_neg (by show p.row + rows ≠ p.row; omega), Point.mk.injEq]
    exact ⟨by show p.row + rows - p.row + q.row = q.row + rows; omega, rfl⟩

theorem oldOffset?_shiftByte {e : Edit} {b : Nat} (hb : e.oldStop.byte ≤ b)
    (h : e.start.byte < e.shiftByte b) : e.oldOffset? (e.shiftByte b) = some b := by
  rw [shiftByte] at h
  rw [oldOffset?, shiftByte, if_neg (by omega), if_pos (by omega), Option.some.injEq]
  omega

/-- Every byte behind a stretch is kept when another is put for it. -/
theorem keeps_between {old new : String} (hold : old.toList = head ++ mid ++ tail)
    (hnew : new.toList = head ++ put ++ tail) (hn : n ≤ Text.size tail) :
    (between head mid put).Keeps old new (Text.size (head ++ mid) + n) := by
  have hat (text : String) (pre : List Char) (h : text.toList = pre ++ tail) :
      Point.ofOffset text (Text.size pre + n) = (Location.behind pre).point.walk tail n := by
    rw [Point.ofOffset, h, Point.walk_append_add, Location.behind_point]
  have hbytes (text : String) (pre : List Char) (h : text.toList = pre ++ tail) :
      text.toByteArray.extract (Text.size pre + n) text.utf8ByteSize
        = tail.utf8Encode.extract n (Text.size tail) := by
    rw [← String.utf8Encode_toList, Text.utf8ByteSize_eq, h, List.utf8Encode_append,
      Text.size_append, ← Text.size_utf8Encode pre, ByteArray.extract_append_size_add]
  have hle := Point.le_walk hn (Location.behind (head ++ mid)).point
  have hshift := shiftByte_between head mid put n
  refine ⟨?_, ?_, ?_, ?_, ?_, fun h => oldOffset?_shiftByte ?_ h⟩
  · rw [hshift, hbytes old _ hold, hbytes new _ hnew]
  · rw [hshift, delta, between, Location.behind_byte, Location.behind_byte]
    push_cast
    omega
  · rw [hat old _ hold]
    exact hle.1
  · rw [hat old _ hold]
    exact hle.2
  · rw [hshift, hat old _ hold, hat new _ hnew, shiftPoint_walk hn]
  · rw [between, Location.behind_byte]
    exact Nat.le_add_right _ _

end Between

/-- An edit between two character boundaries keeps every byte of the text behind it, and its places
lead back: a byte in front of the replacement stands where it stood, and one inside it comes from
nowhere. -/
theorem replace_keeps {old : String} {start stop : Nat} (hle : start ≤ stop)
    (hstart : Text.isBoundary old start) (hstop : Text.isBoundary old stop)
    (replacement : String) :
    ∃ new, result? old start stop replacement = some new
      ∧ (∀ b, stop ≤ b → b ≤ old.utf8ByteSize →
          (replace old start stop replacement).Keeps old new b)
      ∧ (∀ b, b ≤ start → (replace old start stop replacement).oldOffset? b = some b)
      ∧ ∀ b, start < b → b < start + replacement.utf8ByteSize →
          (replace old start stop replacement).oldOffset? b = none := by
  obtain ⟨new, hresult⟩ := result?_of_isBoundary hle hstart hstop replacement
  obtain ⟨head, mid, tail, hold, hnew, hbetween⟩ := exists_parts hresult
  have hstartByte : start = Text.size head := by
    have h : start = (between head mid replacement.toList).start.byte := by rw [← hbetween]; rfl
    rwa [between, Location.behind_byte] at h
  have hstopByte : stop = Text.size (head ++ mid) := by
    have h : stop = (between head mid replacement.toList).oldStop.byte := by rw [← hbetween]; rfl
    rwa [between, Location.behind_byte] at h
  refine ⟨new, hresult, fun b hb hend => ?_, fun b hb => if_pos hb, fun b hb hin => ?_⟩
  · obtain ⟨n, rfl⟩ := Nat.exists_eq_add_of_le hb
    rw [Text.utf8ByteSize_eq, hold, Text.size_append, ← hstopByte, Nat.add_le_add_iff_left]
      at hend
    rw [hbetween, hstopByte]
    exact keeps_between hold hnew hend
  · rw [Text.utf8ByteSize_eq] at hin
    rw [hbetween, oldOffset?, between, Location.behind_byte, Location.behind_byte, Text.size_append,
      ← hstartByte, if_neg (by omega), if_neg (by omega)]

/-- A stretch over the end of a row, with another such stretch put for it behind a character of two
bytes. -/
theorem replace_keeps_line : result? "é\nab" 2 4 "x\ny" = some "éx\nyb"
    ∧ (replace "é\nab" 2 4 "x\ny").Keeps "é\nab" "éx\nyb" 4
    ∧ (replace "é\nab" 2 4 "x\ny").oldOffset? 3 = none := by
  obtain ⟨new, hnew, hkeeps, -, hinside⟩ :=
    @replace_keeps "é\nab" 2 4 (by decide) (by decide) (by decide) "x\ny"
  have hresult : result? "é\nab" 2 4 "x\ny" = some "éx\nyb" := by decide
  obtain rfl := Option.some.inj (hresult.symm.trans hnew)
  exact ⟨hresult, hkeeps 4 (by decide) (by decide), hinside 3 (by decide) (by decide)⟩

end Edit

end AvroTree
