import AvroTree.Proofs.Gaps
import AvroTree.Proofs.SchemaTaking

/-!
# Schemas as texts

The texts that are schemas, said without the parser. A relation `L s r` says that the text `s`
starts with something of a kind and goes on with `r`. What may stand at a place depends on how many
brackets may still be opened there (`layer`), and for the member of an object on its key.
-/

namespace AvroTree

namespace SchemaText

open Text (Gap pass?)
open Lexer (jsonValue)

/-- What stands between the quotes of a string. -/
inductive Literal : List Char → Prop
  | nil : Literal []
  | plain {c : Char} {cs : List Char} (hq : c ≠ '"') (hb : c ≠ '\\') (hn : c ≠ '\n')
      (h : Literal cs) : Literal (c :: cs)
  | escape {c : Char} {cs : List Char} (hn : c ≠ '\n') (h : Literal cs) : Literal ('\\' :: c :: cs)

/-- A string with the text `raw` between its quotes. -/
def Quoted (raw s r : List Char) : Prop :=
  Literal raw ∧ s = '"' :: (raw ++ '"' :: r)

def Str (s r : List Char) : Prop :=
  ∃ raw, Quoted raw s r

/-- One JSON value that opens at most `room` brackets, as it is kept whole. -/
def JsonText (room : Nat) (s r : List Char) : Prop :=
  (jsonValue room s).value = some (.ok .jsonSpan) ∧ r = s.drop (jsonValue room s).used

/-- A JSON value that starts with none of the characters `barred`. -/
def JsonBut (barred : List Char) (room : Nat) (s r : List Char) : Prop :=
  JsonText room s r ∧ ∀ c ∈ s.head?, c ∉ barred

section Lists

variable (Item : List Char → List Char → Prop)

/-- One or more elements with commas between them. -/
inductive Row : List Char → List Char → Prop
  | one {s r : List Char} (h : Item s r) : Row s r
  | more {s t u v r : List Char} (h : Item s t) (hcomma : Gap t (',' :: u)) (hgap : Gap u v)
      (rest : Row v r) : Row s r

/-- A row of elements between two marks, or nothing. Behind the last element there may be a
comma. -/
def Enclosed (opening closing : Char) (s r : List Char) : Prop :=
  ∃ t, s = opening :: t ∧ (Gap t (closing :: r) ∨ ∃ u v, Gap t u ∧ Row Item u v
    ∧ (Gap v (closing :: r) ∨ ∃ w, Gap v (',' :: w) ∧ Gap w (closing :: r)))

end Lists

/-- What may stand where some number of brackets may still be opened: schemas, objects, and the
lists that some members hold. -/
structure Layer where
  value : List Char → List Char → Prop
  object : List Char → List Char → Prop
  objects : List Char → List Char → Prop
  strings : List Char → List Char → Prop
  values : List Char → List Char → Prop

/-- The value of the member called `key`. -/
def Member (room : Nat) (inner : Layer) (key : String) (s r : List Char) : Prop :=
  match key with
  | "type" | "items" | "values" => inner.value s r ∨ JsonBut ['\x7b', '[', '"'] room s r
  | "fields" => inner.objects s r ∨ JsonBut ['['] room s r
  | "symbols" => inner.strings s r ∨ JsonBut ['['] room s r
  | "types" => inner.values s r ∨ JsonBut ['['] room s r
  | _ => JsonText room s r

/-- A key and its value. -/
def Pair (room : Nat) (inner : Layer) (s r : List Char) : Prop :=
  ∃ raw t u v, Quoted raw s t ∧ Gap t (':' :: u) ∧ Gap u v
    ∧ Member room inner (String.ofList raw) v r

def layer : Nat → Layer
  | 0 => ⟨Str, fun _ _ => False, fun _ _ => False, fun _ _ => False, fun _ _ => False⟩
  | n + 1 =>
    let object := Enclosed (Pair n (layer n)) '\x7b' '\x7d'
    let values := Enclosed (layer n).value '[' ']'
    { value := fun s r => Str s r ∨ object s r ∨ values s r
      object
      objects := Enclosed (layer n).object '[' ']'
      strings := Enclosed Str '[' ']'
      values }

/-- A text that is one schema in which at most `depth` brackets are open at a time. -/
def IsSchema (depth : Nat) (text : List Char) : Prop :=
  ∃ s r, Gap text s ∧ (layer depth).value s r ∧ Gap r []

/-! ## Strings and values as the lexer reads them -/

theorem stringRest_of_literal {raw : List Char} (h : Literal raw) (r : List Char) :
    (Lexer.stringRest '"' (raw ++ '"' :: r)).value = .ok .string
      ∧ (Lexer.stringRest '"' (raw ++ '"' :: r)).used = raw.length + 1 := by
  induction h with
  | nil =>
    rw [List.nil_append, Lexer.stringRest_close]
    exact ⟨rfl, rfl⟩
  | plain hq hb hn _ ih =>
    rw [List.cons_append, Lexer.stringRest_plain hq hb hn, Reading.after_used, ih.2,
      List.length_cons]
    exact ⟨ih.1, Nat.add_comm _ _⟩
  | escape hn _ ih =>
    rw [List.cons_append, List.cons_append, Lexer.stringRest_escape (by decide) hn,
      Reading.after_used, ih.2, List.length_cons, List.length_cons]
    exact ⟨ih.1, Nat.add_comm _ _⟩

theorem literal_of_stringRest {s : List Char}
    (h : (Lexer.stringRest '"' s).value = .ok .string) :
    ∃ raw, Literal raw ∧ s = raw ++ '"' :: s.drop (Lexer.stringRest '"' s).used
      ∧ (Lexer.stringRest '"' s).used = raw.length + 1 := by
  fun_induction Lexer.stringRest '"' s with
  | case2 cs => exact ⟨[], .nil, rfl, rfl⟩
  | case5 d ds hd _ ih =>
    obtain ⟨raw, hraw, heq, hused⟩ := ih h
    refine ⟨'\\' :: d :: raw, .escape hd hraw, ?_, ?_⟩
    · rw [Reading.after_used, Nat.add_comm]
      simpa using heq
    · rw [Reading.after_used, hused, List.length_cons, List.length_cons, Nat.add_comm]
  | case7 c cs hq hb hn ih =>
    obtain ⟨raw, hraw, heq, hused⟩ := ih h
    refine ⟨c :: raw, .plain hq hb hn hraw, ?_, by simp [hused, Nat.add_comm]⟩
    rw [Reading.after_used, Nat.add_comm]
    simpa using heq
  | _ => cases h

/-- What a whole JSON value starts with. -/
theorem JsonText.start {room : Nat} {s r : List Char} (h : JsonText room s r) :
    ∃ c cs, s = c :: cs ∧ Lexer.startsJsonValue c ∧ (c = '\x7b' ∨ c = '[' → 0 < room)
      ∧ (c ∈ ['\x7b', '[', '"', '-', 't', 'f', 'n'] ∨ c.isDigit) := by
  obtain ⟨h, -⟩ := h
  rw [Lexer.jsonValue_eq, Lexer.followFirst] at h
  rcases s with _ | ⟨c, cs⟩
  · cases h
  refine ⟨c, cs, rfl, ?_⟩
  rw [Lexer.piece, Lexer.valuePiece] at h
  simp only [] at h
  split_ifs at h with hb hroom hbrace hq hd ha hw
  · cases h
  · exact ⟨by simp [Lexer.startsJsonValue, hbrace], fun _ => Nat.lt_of_not_le hroom,
      by simp [hbrace]⟩
  · have hc := hb.resolve_left hbrace
    exact ⟨by simp [Lexer.startsJsonValue, hc], fun _ => Nat.lt_of_not_le hroom, by simp [hc]⟩
  · exact ⟨by simp [Lexer.startsJsonValue, hq], fun h => absurd h hb, by simp [hq]⟩
  · refine ⟨?_, fun h => absurd h hb, ?_⟩
    · rcases hd with hd | hd <;> simp [Lexer.startsJsonValue, hd]
    · rcases hd with hd | hd <;> simp [hd]
  · refine ⟨by simp [Lexer.startsJsonValue, ha], fun h => absurd h hb, .inl ?_⟩
    generalize (Lexer.skipWhile Text.isNamePart (c :: cs)).used = n at hw
    rcases n with _ | n
    · simp at hw
    · have hword (w : String) (hne : w.toList ≠ [])
          (h : String.ofList ((c :: cs).take (n + 1)) = w) : c = w.toList.head hne := by
        subst h
        simp
      simp only [List.contains_cons, List.contains_nil, Bool.or_false, Bool.or_eq_true,
        beq_iff_eq] at hw
      rcases hw with hw | hw | hw
      · simp [hword "true" (by decide) hw]
      · simp [hword "false" (by decide) hw]
      · simp [hword "null" (by decide) hw]
  · cases h
  · cases h

end SchemaText

end AvroTree
