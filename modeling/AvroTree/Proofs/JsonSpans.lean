import AvroTree.Proofs.Foresight
import AvroTree.Proofs.JsonGrammar
import AvroTree.Proofs.Parting

/-!
# JSON values are read whole

A lexer reads a JSON value piece by piece and keeps a stack of the brackets that are open. What the
stack demands of the text that is left can be said in the grammar: each open bracket is to be closed
behind the rest of its members, from the innermost out (`Rest`). One piece takes a text that brings
the value to its end in its place to another such text, forwards and backwards (`piece_complete`,
`piece_sound`). So all pieces together take exactly a value of the grammar, and a token that stands
for a JSON value covers exactly one (`scan_jsonSpan`).
-/

namespace AvroTree

namespace JsonGrammar

open Lexer (Expect Piece)
open Text (isJsonSpace isNamePart)

/-! ## What stands behind a bracket or a member -/

section Lists

variable {Item : List Char → Prop} {closing : Char} {a b s t u v : List Char}

/-- What stands behind an opening bracket or behind a comma, with the closing bracket. -/
def Closing (Item : List Char → Prop) (closing : Char) (t : List Char) : Prop :=
  ∃ s, Listing Item s ∧ t = s ++ [closing]

/-- What stands behind a member, with the closing bracket. -/
def Ending (Item : List Char → Prop) (closing : Char) (t : List Char) : Prop :=
  ∃ a, Space a ∧ (t = a ++ [closing] ∨ ∃ u, Closing Item closing u ∧ t = a ++ ',' :: u)

theorem Closing.empty (ha : Space a) : Closing Item closing (a ++ [closing]) :=
  ⟨a, .inl ha, rfl⟩

/-- A member in front of what may stand behind one. -/
theorem Closing.cons (ha : Space a) (hv : Item v) (hu : Ending Item closing u) :
    Closing Item closing (a ++ (v ++ u)) := by
  obtain ⟨b, hb, rfl | ⟨_, ⟨s, hs, rfl⟩, rfl⟩⟩ := hu
  · exact ⟨a ++ (v ++ b), .inr ⟨a, v, b, ha, .one hv, hb, .inl rfl⟩, by simp⟩
  rcases hs with hs | ⟨c, row, d, hc, hrow, hd, hlast⟩
  · exact ⟨a ++ (v ++ (b ++ ',' :: s)), .inr ⟨a, v, b, ha, .one hv, hb, .inr ⟨s, hs, rfl⟩⟩,
      by simp⟩
  · have hrow' : Row Item (v ++ (b ++ ',' :: (c ++ row))) := .more hv hb hc hrow
    rcases hlast with rfl | ⟨e, he, rfl⟩
    · exact ⟨_, .inr ⟨a, _, d, ha, hrow', hd, .inl rfl⟩, by simp⟩
    · exact ⟨_, .inr ⟨a, _, d, ha, hrow', hd, .inr ⟨e, he, rfl⟩⟩, by simp⟩

theorem Closing.cases (h : Closing Item closing t) :
    (∃ a, Space a ∧ t = a ++ [closing])
      ∨ ∃ a v u, Space a ∧ Item v ∧ Ending Item closing u ∧ t = a ++ (v ++ u) := by
  obtain ⟨s, hs | ⟨a, row, b, ha, hrow, hb, hlast⟩, rfl⟩ := h
  · exact .inl ⟨s, hs, rfl⟩
  refine .inr ?_
  -- what stands behind the row may also stand behind its last member
  have hend : ∃ z, Ending Item closing z ∧ s ++ [closing] = a ++ (row ++ z)
      ∧ ∀ c rest, Space c → Row Item rest → Closing Item closing (c ++ (rest ++ z)) := by
    rcases hlast with rfl | ⟨e, he, rfl⟩
    · exact ⟨b ++ [closing], ⟨b, hb, .inl rfl⟩, by simp, fun c rest hc hrest =>
        ⟨c ++ (rest ++ b), .inr ⟨c, rest, b, hc, hrest, hb, .inl rfl⟩, by simp⟩⟩
    · exact ⟨b ++ ',' :: (e ++ [closing]), ⟨b, hb, .inr ⟨_, .empty he, rfl⟩⟩, by simp,
        fun c rest hc hrest => ⟨c ++ (rest ++ (b ++ ',' :: e)),
          .inr ⟨c, rest, b, hc, hrest, hb, .inr ⟨e, he, rfl⟩⟩, by simp⟩⟩
  obtain ⟨z, hz, heq, hmore⟩ := hend
  cases hrow with
  | one hv => exact ⟨a, row, z, ha, hv, hz, heq⟩
  | @more v c d rest hv hc hd hrest =>
    refine ⟨a, v, c ++ ',' :: (d ++ (rest ++ z)), ha, hv,
      ⟨c, hc, .inr ⟨_, hmore d rest hd hrest, rfl⟩⟩, ?_⟩
    rw [heq]
    simp

/-- What stands behind a member starts with white space, a comma or the closing bracket. -/
theorem Ending.head (h : Ending Item closing t) :
    ∃ c cs, t = c :: cs ∧ (isJsonSpace c ∨ c = ',' ∨ c = closing) := by
  obtain ⟨a, ha, h⟩ := h
  cases a with
  | nil =>
    rcases h with rfl | ⟨u, -, rfl⟩
    · exact ⟨closing, [], rfl, .inr (.inr rfl)⟩
    · exact ⟨',', u, rfl, .inr (.inl rfl)⟩
  | cons c cs =>
    have hc : isJsonSpace c := ha c List.mem_cons_self
    rcases h with rfl | ⟨u, -, rfl⟩ <;> exact ⟨c, _, rfl, .inl hc⟩

end Lists

/-! ## What the open brackets demand -/

/-- A member of the list in a bracket. -/
def Member (n : Nat) : Bracket → List Char → Prop
  | .brace => Pair (Value n)
  | _ => Value n

def opener : Bracket → Char
  | .brace => '\x7b'
  | _ => '['

def closer : Bracket → Char
  | .brace => '\x7d'
  | _ => ']'

theorem value_iff {n : Nat} {v : List Char} : Value n v ↔ IsScalar v ∨ ∃ m b u, n = m + 1
    ∧ (b = .brace ∨ b = .bracket) ∧ Closing (Member m b) (closer b) u ∧ v = opener b :: u := by
  cases n with
  | zero => simp [Value]
  | succ n =>
    refine or_congr_right ⟨?_, ?_⟩
    · rintro (⟨s, hs, rfl⟩ | ⟨s, hs, rfl⟩)
      · exact ⟨n, .bracket, _, rfl, .inr rfl, ⟨s, hs, rfl⟩, rfl⟩
      · exact ⟨n, .brace, _, rfl, .inl rfl, ⟨s, hs, rfl⟩, rfl⟩
    · rintro ⟨_, b, _, ⟨⟩, rfl | rfl, ⟨s, hs, rfl⟩, rfl⟩
      · exact .inr ⟨s, hs, rfl⟩
      · exact .inl ⟨s, hs, rfl⟩

variable (room : Nat)

/-- What stands behind a whole value inside the open brackets. -/
def Outside : List Bracket → List Char → Prop
  | [], t => t = []
  | b :: stack, t => ∃ u w, Ending (Member (room - (stack.length + 1)) b) (closer b) u
    ∧ Outside stack w ∧ t = u ++ w

/-- What stands behind the innermost bracket or behind a comma in it. -/
def Inside : List Bracket → List Char → Prop
  | [], _ => False
  | b :: stack, t => ∃ u w, Closing (Member (room - (stack.length + 1)) b) (closer b) u
    ∧ Outside room stack w ∧ t = u ++ w

/-- A value and what stands behind it. -/
def Onward (stack : List Bracket) (t : List Char) : Prop :=
  ∃ v w, Value (room - stack.length) v ∧ Outside room stack w ∧ t = v ++ w

/-- What brings the value to its end. -/
def Rest : Expect → List Bracket → List Char → Prop
  | .value, stack, t => ∃ a u, Space a ∧ Onward room stack u ∧ t = a ++ u
  | .colon, stack, t => ∃ a b u, Space a ∧ Space b ∧ Onward room stack u ∧ t = a ++ ':' :: (b ++ u)
  | .commaOrClose, stack, t => Outside room stack t
  | .valueOrClose, stack, t | .keyOrClose, stack, t => Inside room stack t

/-- What brings the value to its end behind a piece. -/
def PieceRest : Piece → List Char → Prop
  | .more expect stack, t => Rest room expect stack t
  | .complete stack, t => Outside room stack t
  | _, _ => False

/-- Only the brackets of JSON are open. -/
def JsonStack (stack : List Bracket) : Prop :=
  ∀ b ∈ stack, b = .brace ∨ b = .bracket

/-- What is expected goes with the innermost bracket. -/
inductive Fits : Expect → List Bracket → Prop
  | value {stack : List Bracket} (h : JsonStack stack) : Fits .value (.brace :: stack)
  | element {stack : List Bracket} (h : JsonStack stack) : Fits .valueOrClose (.bracket :: stack)
  | key {stack : List Bracket} (h : JsonStack stack) : Fits .keyOrClose (.brace :: stack)
  | colon {stack : List Bracket} (h : JsonStack stack) : Fits .colon (.brace :: stack)
  | comma {b : Bracket} {stack : List Bracket} (h : JsonStack (b :: stack)) :
      Fits .commaOrClose (b :: stack)

def PieceFits : Piece → Prop
  | .more expect stack => Fits expect stack
  | .complete stack => JsonStack stack
  | _ => True

variable {room} {expect : Expect} {stack : List Bracket} {b : Bracket} {t v : List Char}

theorem JsonStack.cons (hb : b = .brace ∨ b = .bracket) (h : JsonStack stack) :
    JsonStack (b :: stack) :=
  List.forall_mem_cons.2 ⟨hb, h⟩

/-- A list is a value. -/
theorem Inside.onward (hb : b = .brace ∨ b = .bracket) (hroom : stack.length < room)
    (h : Inside room (b :: stack) t) : Onward room stack (opener b :: t) := by
  obtain ⟨u, w, hu, hw, rfl⟩ := h
  refine ⟨opener b :: u, w, value_iff.2 (.inr ⟨_, b, u, ?_, hb, hu, rfl⟩), hw, rfl⟩
  omega

/-- A member in front of what may stand behind it. -/
theorem Inside.cons {a : List Char} (ha : Space a) (hv : Member (room - (stack.length + 1)) b v)
    (h : Outside room (b :: stack) t) : Inside room (b :: stack) (a ++ (v ++ t)) := by
  obtain ⟨u, w, hu, hw, rfl⟩ := h
  exact ⟨a ++ (v ++ u), w, .cons ha hv hu, hw, by simp⟩

theorem Inside.cases (h : Inside room (b :: stack) t) :
    (∃ a w, Space a ∧ Outside room stack w ∧ t = a ++ closer b :: w)
      ∨ ∃ a v w, Space a ∧ Member (room - (stack.length + 1)) b v ∧ Outside room (b :: stack) w
        ∧ t = a ++ (v ++ w) := by
  obtain ⟨u, w, hu, hw, rfl⟩ := h
  rcases hu.cases with ⟨a, ha, rfl⟩ | ⟨a, v, z, ha, hv, hz, rfl⟩
  · exact .inl ⟨a, w, ha, hw, by simp⟩
  · exact .inr ⟨a, v, z ++ w, ha, hv, ⟨z, w, hz, hw, rfl⟩, by simp⟩

theorem Inside.empty {a : List Char} (ha : Space a) (h : Outside room stack t) :
    Inside room (b :: stack) (a ++ closer b :: t) :=
  ⟨a ++ [closer b], t, .empty ha, h, by simp⟩

theorem Outside.close {a : List Char} (ha : Space a) (h : Outside room stack t) :
    Outside room (b :: stack) (a ++ closer b :: t) :=
  ⟨a ++ [closer b], t, ⟨a, ha, .inl rfl⟩, h, by simp⟩

theorem Outside.comma {a : List Char} (ha : Space a) (h : Inside room (b :: stack) t) :
    Outside room (b :: stack) (a ++ ',' :: t) := by
  obtain ⟨u, w, hu, hw, rfl⟩ := h
  exact ⟨a ++ ',' :: u, w, ⟨a, ha, .inr ⟨u, hu, rfl⟩⟩, hw, by simp⟩

theorem Outside.cases (h : Outside room (b :: stack) t) :
    ∃ a w, Space a ∧ (Outside room stack w ∧ t = a ++ closer b :: w
      ∨ Inside room (b :: stack) w ∧ t = a ++ ',' :: w) := by
  obtain ⟨u, w, ⟨a, ha, rfl | ⟨z, hz, rfl⟩⟩, hw, rfl⟩ := h
  · exact ⟨a, w, ha, .inl ⟨hw, by simp⟩⟩
  · exact ⟨a, z ++ w, ha, .inr ⟨⟨z, w, hz, hw, rfl⟩, by simp⟩⟩

/-- Behind a value inside a bracket its text does not go on. -/
theorem Outside.parts (hstack : JsonStack (b :: stack)) (h : Outside room (b :: stack) t)
    (v r : List Char) : Parts v (t ++ r) := by
  obtain ⟨u, w, hu, -, rfl⟩ := h
  obtain ⟨c, cs, rfl, hc⟩ := hu.head
  have hends : (c.isDigit = false ∧ c ≠ '.' ∧ c ≠ 'e' ∧ c ≠ 'E') ∧ isNamePart c = false := by
    rcases hc with hc | rfl | rfl
    · simp only [isJsonSpace, Bool.or_eq_true, beq_iff_eq] at hc
      rcases hc with ((rfl | rfl) | rfl) | rfl <;> decide
    · decide
    · rcases hstack b List.mem_cons_self with rfl | rfl <;> decide
  refine ⟨fun _ => ?_, fun _ => ?_⟩
  · rintro _ ⟨⟩
    exact hends.1
  · rintro _ ⟨⟩
    exact hends.2

end JsonGrammar

namespace Lexer

open JsonGrammar
open Text (isJsonSpace isNamePart)

variable {room : Nat} {steps : List Char} {expect : Expect} {stack : List Bracket} {b : Bracket}
  {a s t r v w : List Char}

/-! ## Single pieces -/

theorem valuePiece_brace (h : stack.length < room) (cs : List Char) :
    valuePiece room stack ('\x7b' :: cs) = ⟨.more .keyOrClose (.brace :: stack), 1, 1⟩ := by
  simp [valuePiece, Nat.not_le.2 h]

theorem valuePiece_bracket (h : stack.length < room) (cs : List Char) :
    valuePiece room stack ('[' :: cs) = ⟨.more .valueOrClose (.bracket :: stack), 1, 1⟩ := by
  simp [valuePiece, Nat.not_le.2 h]

/-- A value without members is one piece. -/
theorem valuePiece_scalar (hv : IsScalar v) (hr : Parts v r) (room : Nat) (stack : List Bracket) :
    (valuePiece room stack (v ++ r)).value = .complete stack
      ∧ (valuePiece room stack (v ++ r)).used = v.length := by
  rcases hv with hv | hv | hv
  · obtain ⟨hvalue, hused⟩ := jsonString_complete hv r
    obtain ⟨raw, -, rfl⟩ := hv
    rw [List.cons_append] at hvalue hused ⊢
    rw [valuePiece]
    simp only [Char.reduceEq, or_self, ↓reduceIte, Reading.map_value, hvalue, Reading.map_used,
      hused]
    exact ⟨rfl, trivial⟩
  · obtain ⟨hvalue, hused⟩ := jsonNumber_complete hv (hr.1 hv)
    obtain ⟨c, cs, rfl, hc⟩ := number_head hv
    have hplain : ¬(c = '\x7b' ∨ c = '[') ∧ c ≠ '"' := by
      rcases hc with rfl | hc
      · decide
      · refine ⟨?_, ?_⟩
        · rintro (rfl | rfl) <;> cases hc
        · rintro rfl
          cases hc
    rw [List.cons_append] at hvalue hused ⊢
    rw [valuePiece]
    simp only [if_neg hplain.1, if_neg hplain.2, if_pos hc, Reading.map_value, hvalue,
      Reading.map_used, hused]
    exact ⟨rfl, trivial⟩
  · obtain ⟨hused, hword⟩ := literal_complete hv (hr.2 hv)
    obtain ⟨c, cs, rfl, hc⟩ := literal_head hv
    have hplain : ¬(c = '\x7b' ∨ c = '[') ∧ c ≠ '"' ∧ ¬(c = '-' ∨ c.isDigit)
        ∧ Text.isAlphabetic c := by
      simp only [List.mem_cons, List.not_mem_nil, or_false] at hc
      rcases hc with rfl | rfl | rfl <;> decide
    obtain ⟨hbracket, hquote, hnumber, halpha⟩ := hplain
    have htake : (c :: (cs ++ r)).take (c :: cs).length = c :: cs := List.take_left
    rw [List.cons_append] at hused ⊢
    rw [valuePiece]
    simp only [if_neg hbracket, if_neg hquote, if_neg hnumber, if_pos halpha, hused, htake, hword,
      ↓reduceIte, Reading.map_value, Reading.map_used]
    exact ⟨trivial, trivial⟩

theorem fits_ofAttempt (good : Piece) (h : PieceFits good) (x : Except LexError Unit) :
    PieceFits (.ofAttempt good x) := by
  cases x with
  | ok => exact h
  | error => trivial

theorem rest_ofAttempt {good : Piece} {x : Except LexError Unit}
    (h : PieceRest room (.ofAttempt good x) t) : x = .ok () ∧ PieceRest room good t := by
  cases x with
  | ok => exact ⟨rfl, h⟩
  | error => exact h.elim

theorem fits_valuePiece (h : JsonStack stack) (s : List Char) :
    PieceFits (valuePiece room stack s).value := by
  cases s with
  | nil => trivial
  | cons c cs =>
    rw [valuePiece]
    simp only []
    split_ifs
    · trivial
    · exact .key h
    · exact .element h
    · exact fits_ofAttempt (.complete stack) h _
    · exact fits_ofAttempt (.complete stack) h _
    · exact h
    · trivial
    · trivial

/-- A piece that starts a value, with what may stand behind it, is a value and what stands behind
it. -/
theorem valuePiece_sound (h : PieceRest room (valuePiece room stack s).value t) :
    Onward room stack (s.take (valuePiece room stack s).used ++ t) := by
  cases s with
  | nil => exact h.elim
  | cons c cs =>
    rw [valuePiece] at h ⊢
    simp only [] at h ⊢
    split_ifs at h ⊢ with hb hroom hbrace hq hd ha hw
    · exact h.elim
    · subst hbrace
      exact Inside.onward (.inl rfl) (Nat.lt_of_not_le hroom) h
    · obtain rfl : c = '[' := hb.resolve_left hbrace
      exact Inside.onward (.inr rfl) (Nat.lt_of_not_le hroom) h
    · obtain ⟨hok, hout⟩ := rest_ofAttempt h
      exact ⟨_, t, .scalar (.inl (jsonString_sound (by rw [hq]; rfl) hok)) _, hout, rfl⟩
    · obtain ⟨hok, hout⟩ := rest_ofAttempt h
      exact ⟨_, t, .scalar (.inr (.inl (jsonNumber_sound hok))) _, hout, rfl⟩
    · exact ⟨_, t, .scalar (.inr (.inr (literal_sound hw))) _, h, rfl⟩
    · exact h.elim
    · exact h.elim

/-- A value starts with one piece, whatever stands behind it. -/
theorem valuePiece_complete (hv : Value (room - stack.length) v) (hw : Outside room stack w)
    (hr : Parts v (w ++ r)) : ∃ p u, p ≠ [] ∧ v ++ w = p ++ u
      ∧ PieceRest room (valuePiece room stack (p ++ (u ++ r))).value u
      ∧ (valuePiece room stack (p ++ (u ++ r))).used = p.length := by
  rcases value_iff.1 hv with hv | ⟨m, b, u, hm, hb, hu, rfl⟩
  · obtain ⟨hvalue, hused⟩ := valuePiece_scalar hv hr room stack
    refine ⟨v, w, ?_, rfl, by rw [hvalue]; exact hw, hused⟩
    rcases hv with ⟨raw, -, rfl⟩ | hv | hv
    · exact List.cons_ne_nil _ _
    · obtain ⟨c, cs, rfl, -⟩ := number_head hv
      exact List.cons_ne_nil _ _
    · obtain ⟨c, cs, rfl, -⟩ := literal_head hv
      exact List.cons_ne_nil _ _
  · have hroom : stack.length < room := by omega
    obtain rfl : m = room - (stack.length + 1) := by omega
    have hin : Inside room (b :: stack) (u ++ w) := ⟨u, w, hu, hw, rfl⟩
    refine ⟨[opener b], u ++ w, List.cons_ne_nil _ _, rfl, ?_⟩
    rcases hb with rfl | rfl
    · rw [show [opener .brace] ++ (u ++ w ++ r) = '\x7b' :: (u ++ w ++ r) from rfl,
        valuePiece_brace hroom]
      exact ⟨hin, rfl⟩
    · rw [show [opener .bracket] ++ (u ++ w ++ r) = '[' :: (u ++ w ++ r) from rfl,
        valuePiece_bracket hroom]
      exact ⟨hin, rfl⟩

theorem fits_piece (h : Fits expect stack) (s : List Char) :
    PieceFits (piece room expect stack s).value := by
  cases s with
  | nil => trivial
  | cons c cs =>
    cases h with
    | value h => exact fits_valuePiece (h.cons (.inl rfl)) _
    | element h =>
      rw [piece]
      split
      · exact h
      · exact fits_valuePiece (h.cons (.inr rfl)) _
    | @key stack h =>
      rw [piece]
      split_ifs
      · exact fits_ofAttempt (.more .colon (.brace :: stack)) (.colon h) _
      · exact h
      · trivial
    | colon h =>
      rw [piece]
      split
      · exact .value h
      · trivial
    | @comma b stack h =>
      have htail : JsonStack stack := (List.forall_mem_cons.1 h).2
      rw [piece]
      split_ifs
      · rename_i hb
        obtain rfl : b = .brace := Option.some.inj hb
        exact .key htail
      · rename_i hb
        obtain rfl : b = .bracket :=
          (h b List.mem_cons_self).resolve_left fun hbrace => hb (congrArg some hbrace)
        exact .element htail
      · exact htail
      · trivial

/-- A piece behind white space, with what may bring the value to its end behind it, brings the
value to its end. -/
theorem piece_sound (hfits : Fits expect stack) (ha : Space a)
    (h : PieceRest room (piece room expect stack s).value t) :
    Rest room expect stack (a ++ (s.take (piece room expect stack s).used ++ t)) := by
  cases s with
  | nil => exact h.elim
  | cons c cs =>
    cases hfits with
    | value => exact ⟨a, _, ha, valuePiece_sound h, rfl⟩
    | element =>
      rw [piece] at h ⊢
      split at h
      · rename_i hc
        subst hc
        exact Inside.empty ha h
      · rename_i hc
        rw [if_neg hc]
        obtain ⟨v, w, hv, hw, heq⟩ := valuePiece_sound h
        rw [heq]
        exact Inside.cons ha hv hw
    | @key stack =>
      rw [piece] at h ⊢
      split_ifs at h ⊢ with hq hc
      · obtain ⟨hok, d, e, u, hd, he, ⟨v, w, hv, hw, rfl⟩, rfl⟩ := rest_ofAttempt h
        have hkey := jsonString_sound (by rw [hq]; rfl) hok
        rw [Reading.map_used]
        have hpair : Member (room - (stack.length + 1)) .brace
            ((c :: cs).take (jsonString (c :: cs)).used ++ (d ++ ':' :: (e ++ v))) :=
          ⟨_, d, e, v, hkey, hd, he, hv, rfl⟩
        have hin := Inside.cons ha hpair hw
        simp only [List.append_assoc, List.cons_append] at hin ⊢
        exact hin
      · subst hc
        exact Inside.empty ha h
      · exact h.elim
    | colon =>
      rw [piece] at h ⊢
      split_ifs at h ⊢ with hc
      · subst hc
        obtain ⟨d, u, hd, hu, rfl⟩ := h
        exact ⟨a, d, u, ha, hd, hu, rfl⟩
      · exact h.elim
    | @comma b stack =>
      rw [piece] at h ⊢
      split_ifs at h ⊢ with hc hb hclose
      · subst hc
        exact Outside.comma ha h
      · subst hc
        exact Outside.comma ha h
      · obtain rfl : c = closer b := by
          rcases hclose with ⟨rfl, hb⟩ | ⟨rfl, hb⟩ <;> rw [Option.some.inj hb] <;> rfl
        exact Outside.close ha h
      · exact h.elim

/-- What brings the value to its end starts with white space and a piece. -/
theorem piece_complete (hfits : Fits expect stack) (h : Rest room expect stack t)
    (r : List Char) : ∃ a p u, Space a ∧ p ≠ [] ∧ t = a ++ (p ++ u)
      ∧ PieceRest room (piece room expect stack (p ++ (u ++ r))).value u
      ∧ (piece room expect stack (p ++ (u ++ r))).used = p.length := by
  cases hfits with
  | @value stack hstack =>
    obtain ⟨a, _, ha, ⟨v, w, hv, hw, rfl⟩, rfl⟩ := h
    obtain ⟨p, u, hp, heq, hrest, hused⟩ :=
      valuePiece_complete hv hw (hw.parts (hstack.cons (.inl rfl)) v r)
    obtain ⟨c, cs, rfl⟩ := List.exists_cons_of_ne_nil hp
    exact ⟨a, c :: cs, u, ha, hp, by rw [heq], hrest, hused⟩
  | @element stack hstack =>
    rcases Inside.cases h with ⟨a, w, ha, hw, rfl⟩ | ⟨a, v, w, ha, hv, hw, rfl⟩
    · refine ⟨a, [']'], w, ha, List.cons_ne_nil _ _, rfl, ?_⟩
      rw [List.cons_append, piece, if_pos rfl]
      exact ⟨hw, rfl⟩
    · have hv : Value (room - (Bracket.bracket :: stack).length) v := hv
      obtain ⟨p, u, hp, heq, hrest, hused⟩ :=
        valuePiece_complete hv hw (hw.parts (hstack.cons (.inr rfl)) v r)
      obtain ⟨c, cs, rfl⟩ := List.exists_cons_of_ne_nil hp
      refine ⟨a, c :: cs, u, ha, hp, by rw [heq], ?_⟩
      have hc : c ≠ ']' := by
        rintro rfl
        exact hrest.elim
      rw [List.cons_append] at hrest hused ⊢
      rw [piece, if_neg hc]
      exact ⟨hrest, hused⟩
  | @key stack hstack =>
    rcases Inside.cases h with ⟨a, w, ha, hw, rfl⟩ | ⟨a, _, w, ha, hpair, hw, rfl⟩
    · refine ⟨a, ['\x7d'], w, ha, List.cons_ne_nil _ _, rfl, ?_⟩
      rw [List.cons_append, piece, if_neg (by decide), if_pos rfl]
      exact ⟨hw, rfl⟩
    · obtain ⟨key, d, e, v, hkey, hd, he, hv, rfl⟩ := hpair
      obtain ⟨hvalue, hused⟩ := jsonString_complete hkey (d ++ ':' :: (e ++ (v ++ w)) ++ r)
      obtain ⟨raw, -, rfl⟩ := hkey
      refine ⟨a, '"' :: (raw ++ ['"']), d ++ ':' :: (e ++ (v ++ w)), ha,
        List.cons_ne_nil _ _, by simp,
        ?_⟩
      rw [List.cons_append] at hvalue hused ⊢
      rw [piece, if_pos rfl, Reading.map_value, hvalue, Reading.map_used, hused]
      exact ⟨⟨d, e, v ++ w, hd, he, ⟨v, w, hv, hw, rfl⟩, rfl⟩, rfl⟩
  | colon =>
    obtain ⟨a, d, u, ha, hd, hu, rfl⟩ := h
    exact ⟨a, [':'], d ++ u, ha, List.cons_ne_nil _ _, rfl, ⟨d, u, hd, hu, rfl⟩, rfl⟩
  | @comma b stack hstack =>
    obtain ⟨a, w, ha, ⟨hw, rfl⟩ | ⟨hw, rfl⟩⟩ := Outside.cases h
    · refine ⟨a, [closer b], w, ha, List.cons_ne_nil _ _, rfl, ?_⟩
      rcases hstack b List.mem_cons_self with rfl | rfl
      · exact ⟨hw, rfl⟩
      · exact ⟨hw, rfl⟩
    · refine ⟨a, [','], w, ha, List.cons_ne_nil _ _, rfl, ?_⟩
      rcases hstack b List.mem_cons_self with rfl | rfl
      · exact ⟨hw, rfl⟩
      · exact ⟨hw, rfl⟩

/-! ## All pieces -/

/-- White space is no piece. -/
theorem piece_space {c : Char} (hc : isJsonSpace c) (cs : List Char) :
    ¬ PieceRest room (piece room expect stack (c :: cs)).value t := by
  have hmisplaced : (piece room expect stack (c :: cs)).value = .misplaced .unbalancedJson := by
    have hno : c ∉ ['\x7b', '[', '"', '-', ']', '\x7d', ':', ','] ∧ c.isDigit = false
        ∧ Text.isAlphabetic c = false := by
      simp only [isJsonSpace, Bool.or_eq_true, beq_iff_eq] at hc
      rcases hc with ((rfl | rfl) | rfl) | rfl <;> decide
    obtain ⟨hmarks, hdigit, halpha⟩ := hno
    simp only [List.mem_cons, List.not_mem_nil, or_false, not_or] at hmarks
    cases expect <;> simp [piece, valuePiece, hmarks, hdigit, halpha]
  rw [hmisplaced]
  exact id

/-- A piece with the white space in front of it. -/
theorem spacedPiece_complete {p u : List Char} (ha : Space a) (hp : p ≠ [])
    (h : PieceRest room (piece room expect stack (p ++ (u ++ r))).value u)
    (hused : (piece room expect stack (p ++ (u ++ r))).used = p.length) :
    PieceRest room (bind (skipWhile isJsonSpace) (fun _ => piece room expect stack)
        (a ++ (p ++ (u ++ r)))).value u
      ∧ (bind (skipWhile isJsonSpace) (fun _ => piece room expect stack)
        (a ++ (p ++ (u ++ r)))).used = (a ++ p).length := by
  obtain ⟨c, cs, rfl⟩ := List.exists_cons_of_ne_nil hp
  have hc : isJsonSpace c = false := Bool.eq_false_iff.2 fun hc => piece_space hc _ h
  have htake : (a ++ (c :: cs ++ (u ++ r))).takeWhile isJsonSpace = a := by
    rw [List.takeWhile_append_of_pos ha, List.cons_append,
      List.takeWhile_cons_of_neg (by simp [hc]), List.append_nil]
  rw [bind, skipWhile_eq, htake, List.drop_left]
  refine ⟨h, ?_⟩
  rw [Reading.seeing_used, Reading.after_used, hused, List.length_append]

theorem spacedPiece_sound {q : Reading Piece} (hfits : Fits expect stack)
    (hq : bind (skipWhile isJsonSpace) (fun _ => piece room expect stack) s = q)
    (h : PieceRest room q.value t) : Rest room expect stack (s.take q.used ++ t) := by
  subst hq
  have hspace : Space (s.takeWhile isJsonSpace) := fun c hc => List.mem_takeWhile_imp hc
  have hprefix : s.take (s.takeWhile isJsonSpace).length = s.takeWhile isJsonSpace :=
    (List.prefix_iff_eq_take.1 (List.takeWhile_prefix _)).symm
  rw [bind, skipWhile_eq] at h ⊢
  rw [Reading.seeing_used, Reading.after_used, List.take_add, hprefix, List.append_assoc]
  exact piece_sound hfits hspace h

theorem fits_spacedPiece (h : Fits expect stack) (room : Nat) (s : List Char) : PieceFits
    (bind (skipWhile isJsonSpace) (fun _ => piece room expect stack) s).value :=
  fits_piece h _

/-- What the pieces take brings the value to its end. -/
theorem pieces_sound (hfits : Fits expect stack)
    (h : (pieces room steps expect stack s).value = .ok ()) :
    Rest room expect stack (s.take (pieces room steps expect stack s).used) := by
  induction steps generalizing expect stack s with
  | nil => cases h
  | cons x steps ih =>
    rw [pieces_cons] at h ⊢
    have hnext := fits_spacedPiece hfits room s
    generalize hq : bind (skipWhile isJsonSpace) (fun _ => piece room expect stack) s = q
      at h hnext ⊢
    have hsound (t : List Char) (h : PieceRest room q.value t) :
        Rest room expect stack (s.take q.used ++ t) := spacedPiece_sound hfits hq h
    obtain ⟨value, used, seen⟩ := q
    cases value with
    | more expect stack =>
      have hrest := hsound _ (ih hnext h)
      rwa [← List.take_add] at hrest
    | complete stack =>
      cases stack with
      | nil =>
        have hrest := hsound [] rfl
        rwa [List.append_nil] at hrest
      | cons b stack =>
        have hrest := hsound _ (ih (.comma hnext) h)
        rwa [← List.take_add] at hrest
    | misplaced => cases h
    | faulty => cases h
    | bareWord => cases h

/-- The pieces take what brings the value to its end, whatever stands behind it. -/
theorem pieces_complete (hfits : Fits expect stack) (h : Rest room expect stack t)
    (hlen : t.length < steps.length) (r : List Char) :
    (pieces room steps expect stack (t ++ r)).value = .ok ()
      ∧ (pieces room steps expect stack (t ++ r)).used = t.length := by
  induction steps generalizing expect stack t with
  | nil => exact absurd hlen (Nat.not_lt_zero _)
  | cons x steps ih =>
    obtain ⟨a, p, u, ha, hp, rfl, hpiece, hused⟩ := piece_complete hfits h r
    have hpos := List.length_pos_iff.2 hp
    rw [List.length_append, List.length_append, List.length_cons] at hlen
    have hassoc : a ++ (p ++ u) ++ r = a ++ (p ++ (u ++ r)) := by simp
    have hdrop : (a ++ (p ++ (u ++ r))).drop (a ++ p).length = u ++ r := by
      rw [← List.append_assoc, List.drop_left]
    obtain ⟨hrest, hspaced⟩ := spacedPiece_complete ha hp hpiece hused
    have hnext := fits_spacedPiece hfits room (a ++ (p ++ (u ++ r)))
    rw [hassoc, pieces_cons]
    generalize bind (skipWhile isJsonSpace) (fun _ => piece room expect stack)
      (a ++ (p ++ (u ++ r))) = q at hrest hspaced hnext ⊢
    obtain ⟨value, used, seen⟩ := q
    obtain rfl : used = (a ++ p).length := hspaced
    have hlength (n : Nat) (hn : n = u.length) : (a ++ p).length + n = (a ++ (p ++ u)).length := by
      rw [hn, ← List.length_append, List.append_assoc]
    cases value with
    | more expect stack =>
      obtain ⟨hvalue, hn⟩ := ih hnext hrest (by omega)
      rw [← hdrop] at hvalue hn
      exact ⟨hvalue, hlength _ hn⟩
    | complete stack =>
      cases stack with
      | nil =>
        obtain rfl : u = [] := hrest
        exact ⟨rfl, hlength 0 rfl⟩
      | cons b stack =>
        obtain ⟨hvalue, hn⟩ := ih (.comma hnext) hrest (by omega)
        rw [← hdrop] at hvalue hn
        exact ⟨hvalue, hlength _ hn⟩
    | misplaced => exact hrest.elim
    | faulty => exact hrest.elim
    | bareWord => exact hrest.elim

/-! ## Whole values -/

/-- A JSON value that a lexer takes is one of the grammar. -/
theorem jsonValue_sound (h : (jsonValue room s).value = some (.ok .jsonSpan)) :
    Value room (s.take (jsonValue room s).used) := by
  rw [jsonValue_eq] at h ⊢
  have hnext : PieceFits (piece room .value [] s).value := by
    cases s with
    | nil => trivial
    | cons c cs => exact fits_valuePiece (List.forall_mem_nil _) _
  have hsound (t : List Char) (h : PieceRest room (piece room .value [] s).value t) :
      Value room (s.take (piece room .value [] s).used ++ t) := by
    cases s with
    | nil => exact h.elim
    | cons c cs =>
      obtain ⟨v, _, hv, rfl, heq⟩ := valuePiece_sound h
      rw [List.append_nil] at heq
      exact heq ▸ hv
  generalize piece room .value [] s = q at h hnext hsound ⊢
  obtain ⟨value, used, seen⟩ := q
  have hok {e : Except LexError Unit}
      (h : some (e.map fun _ => Token.Kind.jsonSpan) = some (.ok .jsonSpan)) : e = .ok () := by
    cases e with
    | ok => rfl
    | error => cases h
  cases value with
  | more expect stack =>
    have hvalue := hsound _ (pieces_sound hnext (hok h))
    rwa [← List.take_add] at hvalue
  | complete stack =>
    cases stack with
    | nil =>
      have hvalue := hsound [] rfl
      rwa [List.append_nil] at hvalue
    | cons b stack =>
      have hvalue := hsound _ (pieces_sound (.comma hnext) (hok h))
      rwa [← List.take_add] at hvalue
  | misplaced => cases h
  | faulty => cases h
  | bareWord => cases h

/-- A lexer takes every JSON value of the grammar, whatever stands behind it. -/
theorem jsonValue_complete (hv : Value room v) (hr : Parts v r) :
    (jsonValue room (v ++ r)).value = some (.ok .jsonSpan)
      ∧ (jsonValue room (v ++ r)).used = v.length := by
  have hin : Value (room - ([] : List Bracket).length) v := hv
  have hout : Outside room [] [] := rfl
  obtain ⟨p, u, hp, heq, hrest, hused⟩ := valuePiece_complete hin hout hr
  obtain ⟨c, cs, rfl⟩ := List.exists_cons_of_ne_nil hp
  rw [List.append_nil] at heq
  have htext : v ++ r = c :: cs ++ (u ++ r) := by rw [heq, List.append_assoc]
  have hdrop : (v ++ r).drop (c :: cs).length = u ++ r := by rw [htext, List.drop_left]
  have hlen : u.length < (' ' :: (v ++ r)).length := by
    rw [htext, List.length_cons, List.length_append, List.length_append]
    omega
  have hlength : (c :: cs).length + u.length = v.length := by rw [heq, List.length_append]
  have hnext : PieceFits (piece room .value [] (v ++ r)).value := by
    rw [htext]
    exact fits_valuePiece (List.forall_mem_nil _) _
  have hfirst : PieceRest room (piece room .value [] (v ++ r)).value u
      ∧ (piece room .value [] (v ++ r)).used = (c :: cs).length := by
    rw [htext]
    exact ⟨hrest, hused⟩
  have hspan {e : Except LexError Unit} (h : e = .ok ()) :
      some (e.map fun _ => Token.Kind.jsonSpan) = some (.ok .jsonSpan) := by
    rw [h]
    rfl
  rw [jsonValue_eq]
  generalize piece room .value [] (v ++ r) = q at hnext hfirst ⊢
  obtain ⟨value, used, seen⟩ := q
  obtain ⟨hrest, rfl⟩ := hfirst
  cases value with
  | more expect stack =>
    obtain ⟨hvalue, hn⟩ := pieces_complete hnext hrest hlen r
    rw [← hdrop] at hvalue hn
    exact ⟨hspan hvalue,
      (congrArg ((c :: cs).length + ·) hn).trans hlength⟩
  | complete stack =>
    cases stack with
    | nil =>
      obtain rfl : u = [] := hrest
      exact ⟨rfl, hlength⟩
    | cons b stack =>
      obtain ⟨hvalue, hn⟩ := pieces_complete (.comma hnext) hrest hlen r
      rw [← hdrop] at hvalue hn
      exact ⟨hspan hvalue,
        (congrArg ((c :: cs).length + ·) hn).trans hlength⟩
  | misplaced => exact hrest.elim
  | faulty => exact hrest.elim
  | bareWord => exact hrest.elim

/-! ## Tokens -/

variable {cap : Nat} {valid : TokenSet} {state : State}

theorem impliedMode_jsonSpan (state : State) (c : Char) :
    impliedMode state .jsonSpan c = state.mode := by
  by_cases h : state.mode = .unknown ∧ state.stack = []
  · exact (if_pos h).trans h.1.symm
  · exact if_neg h

theorem tokenHere_jsonSpan_sound {f : Found}
    (h : (tokenHere cap valid false state s).value.found = some f) (hk : f.kind = .jsonSpan) :
    (jsonValue (cap - state.depth) s).value = some (.ok .jsonSpan)
      ∧ (tokenHere cap valid false state s).used = (jsonValue (cap - state.depth) s).used
      ∧ (tokenHere cap valid false state s).value.state = state := by
  cases s with
  | nil =>
    have heof := (tokenHere_found h).2.1.2 rfl
    rw [hk] at heof
    cases heof
  | cons c cs =>
    cases hc : startsComment (c :: cs) with
    | true =>
      rw [tokenHere_comment cap valid state hc] at h
      rcases comment_kind h with hkind | hkind <;> (rw [hk] at hkind; cases hkind)
    | false =>
      rw [tokenHere_cons cap valid state hc] at h ⊢
      generalize hn : (if (c == '/') = true then 2 else 1) = n at h ⊢
      rcases judge_cases cap valid state c ((lexeme cap valid state c (c :: cs)).seeing n) with
        hj | hj
      · rw [hj] at h
        cases h
      rw [hj] at h ⊢
      cases h
      have hkind : kindOf (lexeme cap valid state c (c :: cs)).value = .jsonSpan := by
        rcases track_kind cap state (kindOf (lexeme cap valid state c (c :: cs)).value) with ht | ht
        · exact ht.symm.trans hk
        · have herror := ht.symm.trans hk
          cases herror
      have hlexeme : (lexeme cap valid state c (c :: cs)).value = .ok .jsonSpan := by
        cases hv : (lexeme cap valid state c (c :: cs)).value with
        | ok k =>
          rw [hv] at hkind
          exact congrArg _ hkind
        | error e =>
          rw [hv] at hkind
          cases hkind
      obtain ⟨hvalue, hused⟩ := jsonValue_of_lexeme hlexeme
      refine ⟨hvalue, hused, ?_⟩
      show { (track cap state (kindOf (lexeme cap valid state c (c :: cs)).value)).2 with
        mode := impliedMode state (kindOf (lexeme cap valid state c (c :: cs)).value) c } = state
      rw [hkind, impliedMode_jsonSpan]
      rfl

theorem tokenHere_jsonSpan_complete (hvalid : valid.contains .jsonSpan)
    (h : (jsonValue (cap - state.depth) s).value = some (.ok .jsonSpan)) :
    (tokenHere cap valid false state s).value = ⟨some ⟨0, .jsonSpan⟩, state⟩
      ∧ (tokenHere cap valid false state s).used = (jsonValue (cap - state.depth) s).used := by
  have hjson : SchemaText.JsonText (cap - state.depth) s _ := ⟨h, rfl⟩
  obtain ⟨c, cs, rfl, hstarts, -, hc⟩ := hjson.start
  have hlexeme : (lexeme cap valid state c (c :: cs)).value = .ok .jsonSpan
      ∧ (lexeme cap valid state c (c :: cs)).used
        = (jsonValue (cap - state.depth) (c :: cs)).used := by
    rw [lexeme, if_pos (by rw [hvalid, hstarts]; rfl)]
    simp only [h]
    exact ⟨rfl, rfl⟩
  obtain ⟨hvalue, hused⟩ := hlexeme
  rw [tokenHere_cons cap valid state (startsComment_of_ne (Parse.Schema.startsJson_plain hc).1)]
  generalize hn : (if (c == '/') = true then 2 else 1) = n
  have hkind : kindOf ((lexeme cap valid state c (c :: cs)).seeing n).value = .jsonSpan := by
    rw [Reading.seeing_value, hvalue]
    rfl
  have htrack : track cap state .jsonSpan = (.jsonSpan, state) := rfl
  rw [judge]
  simp only [hkind, htrack, hvalid, Bool.not_true, Bool.or_self, Bool.false_eq_true, ↓reduceIte,
    impliedMode_jsonSpan]
  exact ⟨rfl, hused⟩

theorem token_jsonSpan_sound {f : Found} (hcomment : state.comment = none)
    (h : (token cap valid false state s).value.found = some f) (hk : f.kind = .jsonSpan) :
    (jsonValue (cap - state.depth) (s.drop (blanks s))).value = some (.ok .jsonSpan)
      ∧ f.blanks = blanks s
      ∧ (token cap valid false state s).used
        = blanks s + (jsonValue (cap - state.depth) (s.drop (blanks s))).used
      ∧ (token cap valid false state s).value.state = state := by
  rw [token_eq cap valid hcomment, behindBlanks] at h ⊢
  cases hfound : (tokenHere cap valid false state (s.drop (blanks s))).value.found with
  | none =>
    rw [hfound] at h
    exact absurd (hfound.symm.trans h) (Option.some_ne_none f).symm
  | some g =>
    rw [hfound] at h
    cases h
    obtain ⟨hvalue, hused, hstate⟩ := tokenHere_jsonSpan_sound hfound hk
    exact ⟨hvalue, rfl, congrArg (blanks s + ·) hused, hstate⟩

theorem token_jsonSpan_complete (hcomment : state.comment = none)
    (hvalid : valid.contains .jsonSpan)
    (h : (jsonValue (cap - state.depth) (s.drop (blanks s))).value = some (.ok .jsonSpan)) :
    (token cap valid false state s).value = ⟨some ⟨blanks s, .jsonSpan⟩, state⟩
      ∧ (token cap valid false state s).used
        = blanks s + (jsonValue (cap - state.depth) (s.drop (blanks s))).used := by
  obtain ⟨hvalue, hused⟩ := tokenHere_jsonSpan_complete hvalid h
  rw [token_eq cap valid hcomment, behindBlanks, hvalue]
  simp only [Reading.map_value, Reading.after_value, Reading.map_used, Reading.after_used, hvalue,
    hused]
  exact ⟨trivial, trivial⟩

/-! ## Scans -/

/-- The states that a lexer can be in: no more brackets are open than may be. -/
def State.Held (config : Config) (state : State) : Prop :=
  ∃ (mode : Mode) (acts : List Act), acts.foldl (Act.run config) { mode } = state

theorem State.held_iff (config : Config) (state : State) :
    state.Held config ↔ state.depth ≤ config.cap := by
  refine ⟨?_, fun h => ?_⟩
  · rintro ⟨mode, acts, rfl⟩
    have hkeeps (s : State) (hs : s.depth ≤ config.cap) :
        (acts.foldl (Act.run config) s).depth ≤ config.cap := by
      induction acts generalizing s with
      | nil => exact hs
      | cons a acts ih => exact ih _ (Act.run_depth hs a)
    exact hkeeps _ (Nat.zero_le _)
  · refine ⟨.unknown, [.load state.encode], ?_⟩
    rw [List.foldl_cons, List.foldl_nil, Act.run, State.load_encode h (Nat.min_le_right _ _)]

/-- A scan for JSON values finds exactly those of the grammar that go no deeper than brackets may
be nested. -/
theorem scan_jsonSpan (config : Config) {valid : TokenSet} {state : State} {text : String}
    {c : Cursor} (hstate : state.Held config) (hcomment : state.comment = none)
    (hvalid : valid.contains .jsonSpan) (hc : c.Sees text) :
    (∀ t, (c.scan config.cap valid state).1 = some t → t.kind = .jsonSpan →
        (c.scan config.cap valid state).2.1 = state
          ∧ ∃ blanks v r n, c.rest = blanks ++ (v ++ r) ∧ (∀ x ∈ blanks, Text.isSpace x)
            ∧ t.span = ⟨c.place.advance blanks, c.place.advance (blanks ++ v)⟩
            ∧ Value n v ∧ state.depth + n ≤ config.cap)
      ∧ ∀ blanks v r n, c.rest = blanks ++ (v ++ r) → (∀ x ∈ blanks, Text.isSpace x) →
        Value n v → state.depth + n ≤ config.cap → Parts v r →
        (c.scan config.cap valid state).1
          = some ⟨.jsonSpan, ⟨c.place.advance blanks, c.place.advance (blanks ++ v)⟩⟩ := by
  obtain ⟨pre, rest, -, hc⟩ := hc
  have hrest : c.rest = rest := by rw [hc.rest_eq, List.append_nil]
  have hdepth := (State.held_iff config state).1 hstate
  obtain ⟨q, hq⟩ : ∃ q, q = token config.cap valid false state rest := ⟨_, rfl⟩
  rw [hc.scan_eq config.cap valid state hq, hrest]
  refine ⟨fun t ht hkind => ?_, fun blanks v r n heq hblanks hv hn hparts => ?_⟩
  · obtain ⟨f, hf, rfl⟩ := Option.map_eq_some_iff.1 ht
    rw [hq] at hf ⊢
    obtain ⟨hvalue, hb, hused, hstay⟩ := token_jsonSpan_sound hcomment hf hkind
    have hj := jsonValue_sound hvalue
    generalize (jsonValue (config.cap - state.depth) (rest.drop (Lexer.blanks rest))).used = n
      at hused hj
    refine ⟨hstay, rest.take (Lexer.blanks rest), (rest.drop (Lexer.blanks rest)).take n,
      (rest.drop (Lexer.blanks rest)).drop n, config.cap - state.depth, ?_, ?_, ?_, hj, by omega⟩
    · rw [List.take_append_drop, List.take_append_drop]
    · rw [Lexer.blanks, ← List.prefix_iff_eq_take.1 (List.takeWhile_prefix _)]
      exact fun x hx => List.mem_takeWhile_imp hx
    · rw [hused, hb, List.take_add]
  · obtain ⟨hvalue, hused⟩ := jsonValue_complete
      (hv.mono (by omega : n ≤ config.cap - state.depth)) hparts
    have hjson : SchemaText.JsonText (config.cap - state.depth) (v ++ r) _ := ⟨hvalue, rfl⟩
    obtain ⟨x, xs, hstart, -, -, hx⟩ := hjson.start
    have htake : rest.takeWhile Text.isSpace = blanks := by
      rw [heq, List.takeWhile_append_of_pos hblanks, hstart,
        List.takeWhile_cons_of_neg (by simp [Parse.Schema.startsJson_plain hx]), List.append_nil]
    have hspaces : Lexer.blanks rest = blanks.length := congrArg List.length htake
    have hdrop : rest.drop (Lexer.blanks rest) = v ++ r := by
      rw [hspaces, heq, List.drop_left]
    rw [← hdrop] at hvalue hused
    obtain ⟨htoken, hlength⟩ := token_jsonSpan_complete hcomment hvalid hvalue
    have hfront : rest.take blanks.length = blanks := by rw [heq, List.take_left]
    have hboth : rest.take (blanks.length + v.length) = blanks ++ v := by
      rw [heq, ← List.append_assoc, ← List.length_append, List.take_left]
    rw [hq, htoken, hlength, hused, hspaces, Option.map_some, hfront, hboth]

/-- A list with a comma behind its last member is one token, and the comma behind the list is
none of it. -/
theorem scan_jsonSpan_list :
    let c := Cursor.start " [1, \"]\",] ,"
    let v := "[1, \"]\",]".toList
    let r := c.scan ({} : Config).cap (.single .jsonSpan) {}
    State.Held {} {} ∧ c.Sees " [1, \"]\",] ," ∧ c.rest = [' '] ++ (v ++ [' ', ','])
      ∧ Value 1 v ∧ Parts v [' ', ',']
      ∧ r.1 = some ⟨.jsonSpan, ⟨c.place.advance [' '], c.place.advance ([' '] ++ v)⟩⟩
      ∧ r.2.1 = {} := by
  intro c v r
  have hstate : State.Held {} {} := ⟨.unknown, [], rfl⟩
  have hc : c.Sees " [1, \"]\",] ," := .start _
  have hrest : c.rest = [' '] ++ (v ++ [' ', ',']) := rfl
  have hone : IsScalar ['1'] := .inr (.inl ⟨[], ['1'], [], [], .inl rfl,
    .inr ⟨⟨List.cons_ne_nil _ _, List.forall_mem_singleton.2 rfl⟩, by decide⟩, .inl rfl,
      .inl rfl, rfl⟩)
  have hmark : IsScalar ['"', ']', '"'] :=
    .inl ⟨[']'], .plain (by decide) (by decide) (by decide) .nil, rfl⟩
  have hnone : Space [] := List.forall_mem_nil _
  have hblank : Space [' '] := List.forall_mem_singleton.2 rfl
  have hrow : Row (Value 0) ['1', ',', ' ', '"', ']', '"'] :=
    .more (Value.scalar hone 0) hnone hblank (.one (Value.scalar hmark 0))
  have hv : Value 1 v :=
    .inr (.inl ⟨_, .inr ⟨[], _, [], hnone, hrow, hnone, .inr ⟨[], hnone, rfl⟩⟩, rfl⟩)
  have hparts : Parts v [' ', ','] := by
    refine ⟨fun _ => ?_, fun _ => ?_⟩ <;> rintro _ ⟨⟩ <;> decide
  have hvalid : (TokenSet.single .jsonSpan).contains .jsonSpan := by decide
  have hscan := scan_jsonSpan {} hstate rfl hvalid hc
  have hfound := hscan.2 [' '] v [' ', ','] 1 hrest (List.forall_mem_singleton.2 rfl) hv (by decide)
    hparts
  exact ⟨hstate, hc, hrest, hv, hparts, hfound, (hscan.1 _ hfound rfl).1⟩

end Lexer

end AvroTree
