import Mathlib.Tactic
import AvroTree.Text.Point

/-!
# Places between the characters of a text

Every place that matters is the place behind some beginning of the text, `Location.behind`. Its
byte is the size of that beginning, and cutting the text at this byte gives back the two parts
(`Text.dropBytes?_append`, `Text.takeBytes_append`). A byte between two characters has only one
beginning in front of it (`Text.append_inj_of_size`), so its row and column are known from it
(`Location.ofOffset_append`).
-/

namespace AvroTree

namespace Text

@[simp]
theorem size_nil : size [] = 0 := rfl

@[simp]
theorem size_cons (c : Char) (cs : List Char) : size (c :: cs) = c.utf8Size + size cs := rfl

@[simp]
theorem size_append : ∀ a b : List Char, size (a ++ b) = size a + size b
  | [], b => by simp
  | c :: a, b => by simp [size_append a b, Nat.add_assoc]

theorem utf8ByteSize_ofList : ∀ cs : List Char, (String.ofList cs).utf8ByteSize = size cs
  | [] => by simp
  | c :: cs => by
    rw [String.ofList_cons, String.utf8ByteSize_append, String.utf8ByteSize_singleton,
      utf8ByteSize_ofList cs, size_cons]

theorem utf8ByteSize_eq (s : String) : s.utf8ByteSize = size s.toList := by
  rw [← utf8ByteSize_ofList, String.ofList_toList]

theorem length_le_size : ∀ cs : List Char, cs.length ≤ size cs
  | [] => by simp
  | c :: cs => by
    have := length_le_size cs
    have := c.utf8Size_pos
    simp only [List.length_cons, size_cons]
    omega

theorem size_eq_zero {cs : List Char} : size cs = 0 ↔ cs = [] := by
  refine ⟨fun h => ?_, fun h => by simp [h]⟩
  have := length_le_size cs
  exact List.eq_nil_of_length_eq_zero (by omega)

/-- A beginning is known by its size. -/
theorem append_inj_of_size : ∀ {a b a' b' : List Char}, a ++ b = a' ++ b' → size a = size a' →
    a = a' ∧ b = b'
  | [], b, [], b', h, _ => ⟨rfl, h⟩
  | [], b, c :: a', b', _, hs => by
    have := c.utf8Size_pos
    simp only [size_nil, size_cons] at hs
    omega
  | c :: a, b, [], b', _, hs => by
    have := c.utf8Size_pos
    simp only [size_nil, size_cons] at hs
    omega
  | c :: a, b, c' :: a', b', h, hs => by
    simp only [List.cons_append, List.cons.injEq] at h
    obtain ⟨rfl, h⟩ := h
    simp only [size_cons, Nat.add_left_cancel_iff] at hs
    obtain ⟨rfl, rfl⟩ := append_inj_of_size h hs
    exact ⟨rfl, rfl⟩

/-- Of two beginnings of one text the one with fewer bytes is a beginning of the other. -/
theorem prefix_of_size_le : ∀ {a b a' b' : List Char}, a ++ b = a' ++ b' → size a ≤ size a' →
    ∃ m, a' = a ++ m ∧ b = m ++ b'
  | [], b, a', b', h, _ => ⟨a', rfl, h⟩
  | c :: a, b, [], b', _, hs => by
    have := c.utf8Size_pos
    simp only [size_nil, size_cons] at hs
    omega
  | c :: a, b, c' :: a', b', h, hs => by
    simp only [List.cons_append, List.cons.injEq] at h
    obtain ⟨rfl, h⟩ := h
    simp only [size_cons, Nat.add_le_add_iff_left] at hs
    obtain ⟨m, rfl, rfl⟩ := prefix_of_size_le h hs
    exact ⟨m, rfl, rfl⟩

theorem dropBytes?_append : ∀ a b : List Char, dropBytes? (a ++ b) (size a) = some b
  | [], b => by cases b <;> rfl
  | c :: a, b => by
    have hc := c.utf8Size_pos
    obtain ⟨n, hn⟩ : ∃ n, c.utf8Size + size a = n + 1 := ⟨c.utf8Size + size a - 1, by omega⟩
    rw [List.cons_append, size_cons, hn, dropBytes?, if_pos (by omega),
      show n + 1 - c.utf8Size = size a by omega]
    exact dropBytes?_append a b

theorem takeBytes_append : ∀ a b : List Char, takeBytes (a ++ b) (size a) = a
  | [], [] => rfl
  | [], c :: b => by
    have := c.utf8Size_pos
    rw [List.nil_append, size_nil, takeBytes, if_neg (by omega)]
  | c :: a, b => by
    rw [List.cons_append, size_cons, takeBytes, if_pos (by omega), Nat.add_sub_cancel_left,
      takeBytes_append a b]

theorem eq_append_of_dropBytes? : ∀ {cs : List Char} {n : Nat} {tail : List Char},
    dropBytes? cs n = some tail → ∃ a, cs = a ++ tail ∧ size a = n
  | cs, 0, tail, h => by
    rw [dropBytes?, Option.some.injEq] at h
    exact ⟨[], by simp [h], rfl⟩
  | [], _ + 1, tail, h => by simp [dropBytes?] at h
  | c :: cs, n + 1, tail, h => by
    rw [dropBytes?] at h
    split_ifs at h with hc
    obtain ⟨a, rfl, ha⟩ := eq_append_of_dropBytes? h
    exact ⟨c :: a, rfl, by rw [size_cons]; omega⟩

end Text

namespace Point

theorem advance_append (p : Point) (a b : List Char) :
    p.advance (a ++ b) = (p.advance a).advance b :=
  List.foldl_append

theorem walk_append : ∀ (p : Point) (a b : List Char), p.walk (a ++ b) (Text.size a) = p.advance a
  | p, [], [] => rfl
  | p, [], c :: b => by
    have := c.utf8Size_pos
    rw [List.nil_append, Text.size_nil, walk, if_neg (by omega)]
    rfl
  | p, c :: a, b => by
    rw [List.cons_append, Text.size_cons, walk, if_pos (by omega), Nat.add_sub_cancel_left,
      walk_append (p.step c) a b]
    rfl

/-- Inside a row only the column moves. -/
theorem advance_of_notMem : ∀ (p : Point) {cs : List Char}, '\n' ∉ cs →
    p.advance cs = ⟨p.row, p.column + Text.size cs⟩
  | p, [], _ => rfl
  | p, c :: cs, h => by
    simp only [List.mem_cons, not_or] at h
    have hc : p.step c = ⟨p.row, p.column + c.utf8Size⟩ := if_neg fun e => h.1 e.symm
    rw [show p.advance (c :: cs) = (p.step c).advance cs from rfl, hc, advance_of_notMem _ h.2,
      Text.size_cons, Nat.add_assoc]

/-- Behind a newline the column no longer depends on where the text started. -/
theorem advance_of_mem : ∀ {cs : List Char}, '\n' ∈ cs →
    ∃ rows column, 0 < rows ∧ ∀ p : Point, p.advance cs = ⟨p.row + rows, column⟩
  | c :: cs, h => by
    by_cases hcs : '\n' ∈ cs
    · obtain ⟨rows, column, hr, hp⟩ := advance_of_mem hcs
      by_cases hc : c = '\n'
      · refine ⟨rows + 1, column, by omega, fun p => ?_⟩
        rw [show p.advance (c :: cs) = (p.step c).advance cs from rfl, hp, step, if_pos hc,
          Point.mk.injEq]
        exact ⟨Nat.add_right_comm p.row 1 rows, rfl⟩
      · refine ⟨rows, column, hr, fun p => ?_⟩
        rw [show p.advance (c :: cs) = (p.step c).advance cs from rfl, hp, step, if_neg hc]
    · have hc : c = '\n' := by
        rcases List.mem_cons.1 h with h | h
        · exact h.symm
        · exact absurd h hcs
      refine ⟨1, Text.size cs, by omega, fun p => ?_⟩
      rw [show p.advance (c :: cs) = (p.step c).advance cs from rfl, advance_of_notMem _ hcs, step,
        if_pos hc, Nat.zero_add]

end Point

namespace Location

theorem advance_eq : ∀ (l : Location) (cs : List Char),
    l.advance cs = ⟨l.byte + Text.size cs, l.point.advance cs⟩
  | l, [] => rfl
  | l, c :: cs => by
    rw [show l.advance (c :: cs) = (l.step c).advance cs from rfl, advance_eq (l.step c) cs, step,
      Text.size_cons, Nat.add_assoc]
    rfl

/-- The place behind a beginning of a text. -/
def behind (pre : List Char) : Location :=
  ({} : Location).advance pre

@[simp]
theorem behind_byte (pre : List Char) : (behind pre).byte = Text.size pre := by
  rw [behind, advance_eq, Nat.zero_add]

theorem behind_point (pre : List Char) : (behind pre).point = Point.advance {} pre := by
  rw [behind, advance_eq]

theorem behind_append (pre cs : List Char) : behind (pre ++ cs) = (behind pre).advance cs :=
  List.foldl_append

theorem ofOffset_append {text : String} {pre rest : List Char} (h : text.toList = pre ++ rest) :
    ofOffset text (Text.size pre) = behind pre := by
  rw [ofOffset, Point.ofOffset, h, Point.walk_append, behind, advance_eq, Nat.zero_add]

/-- A place between two characters of a text, or at one of its ends. -/
def Within (text : List Char) (l : Location) : Prop :=
  ∃ pre rest, text = pre ++ rest ∧ l = behind pre

namespace Within

variable {text : List Char} {l m : Location}

theorem origin : Within text {} :=
  ⟨[], text, rfl, rfl⟩

theorem behind {pre rest : List Char} (h : text = pre ++ rest) : Within text (.behind pre) :=
  ⟨pre, rest, h, rfl⟩

/-- A place is known by its byte. -/
theorem ext (hl : Within text l) (hm : Within text m) (h : l.byte = m.byte) : l = m := by
  obtain ⟨pre, rest, rfl, rfl⟩ := hl
  obtain ⟨pre', rest', h', rfl⟩ := hm
  rw [behind_byte, behind_byte] at h
  rw [(Text.append_inj_of_size h' h).1]

theorem byte_le (h : Within text l) : l.byte ≤ Text.size text := by
  obtain ⟨pre, rest, rfl, rfl⟩ := h
  rw [behind_byte, Text.size_append]
  omega

end Within

end Location

end AvroTree
