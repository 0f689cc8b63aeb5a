import AvroTree.Lexer.JsonValue
import AvroTree.Proofs.Locality

/-!
# Reading JSON values is local

The pieces of a JSON value are read by lexers that answer by what they have seen. The number of
pieces that may be read is the length of the text, which nobody has seen. It does not matter: a
piece behind which the value goes on uses up a character (`piece_used`), so any number above the
length of the text gives the same answer (`pieces_congr`).
-/

namespace AvroTree

namespace Lexer

open Text (Agree)

/-! ## Strings and numbers -/

/-- Behind `\\u` the hexadecimal digits are counted, of which there have to be four. -/
theorem jsonStringRest_unicode (cs : List Char) : jsonStringRest ('\\' :: 'u' :: cs) =
    if 4 ≤ (cs.takeWhile Text.isHexDigit).length then (jsonStringRest (cs.drop 4)).after 6
    else ⟨.error .invalidEscape, (cs.takeWhile Text.isHexDigit).length + 2,
      (cs.takeWhile Text.isHexDigit).length + 3⟩ := by
  match cs with
  | [] => rfl
  | [a] => cases ha : Text.isHexDigit a <;> simp [jsonStringRest, ha]
  | [a, b] =>
    cases ha : Text.isHexDigit a <;> cases hb : Text.isHexDigit b <;>
      simp [jsonStringRest, ha, hb]
  | [a, b, c] =>
    cases ha : Text.isHexDigit a <;> cases hb : Text.isHexDigit b <;>
      cases hc : Text.isHexDigit c <;> simp [jsonStringRest, ha, hb, hc]
  | a :: b :: c :: d :: cs =>
    cases ha : Text.isHexDigit a <;> cases hb : Text.isHexDigit b <;>
      cases hc : Text.isHexDigit c <;> cases hd : Text.isHexDigit d <;>
      simp [jsonStringRest, ha, hb, hc, hd]

theorem jsonStringRest_escape {e : Char} (hu : e ≠ 'u') (hn : e ≠ '\n') (cs : List Char) :
    jsonStringRest ('\\' :: e :: cs) =
      if isSimpleEscape e then (jsonStringRest cs).after 2 else ⟨.error .invalidEscape, 2, 2⟩ := by
  rw [jsonStringRest.eq_8 e cs] <;> simp [hu, hn]

theorem jsonStringRest_plain {c : Char} (hq : c ≠ '"') (hn : c ≠ '\n') (hb : c ≠ '\\')
    (cs : List Char) : jsonStringRest (c :: cs) = (jsonStringRest cs).after 1 := by
  rw [jsonStringRest.eq_9 c cs] <;> simp [hq, hn, hb]

theorem jsonStringRest_same : ∀ s t, Agree (jsonStringRest s).seen s t →
    jsonStringRest t = jsonStringRest s
  | [], t, h => by rw [h.eq_nil]
  | c :: cs, t, h => by
    by_cases hb : c = '\\'
    · subst hb
      cases cs with
      | nil =>
        obtain ⟨t, rfl, ht⟩ := h.eq_cons
        rw [ht.eq_nil]
      | cons e ds =>
        by_cases hu : e = 'u'
        · subst hu
          rw [jsonStringRest_unicode] at h ⊢
          split at h
          · rename_i hhex
            rw [Reading.after_seen, Nat.add_comm] at h
            obtain ⟨t, rfl, ht⟩ := h.eq_cons
            obtain ⟨t, rfl, ht'⟩ := ht.eq_cons
            have hd : Agree (4 + (jsonStringRest (ds.drop 4)).seen) ds t := ht'.mono (by omega)
            have hlen := (hd.mono (Nat.le_add_right _ _)).le_takeWhile hhex
            rw [jsonStringRest_unicode, if_pos hhex, if_pos hlen, jsonStringRest_same _ _ hd.drop]
          · rename_i hhex
            obtain ⟨t, rfl, ht⟩ := h.eq_cons
            obtain ⟨t, rfl, ht'⟩ := ht.eq_cons
            rw [jsonStringRest_unicode, if_neg hhex, ht'.takeWhile_eq, if_neg hhex]
        · by_cases hn : e = '\n'
          · subst hn
            obtain ⟨t, rfl, ht⟩ := h.eq_cons
            obtain ⟨t, rfl, -⟩ := ht.eq_cons
            rfl
          · rw [jsonStringRest_escape hu hn] at h ⊢
            split at h
            · rename_i he
              rw [Reading.after_seen, Nat.add_comm] at h
              obtain ⟨t, rfl, ht⟩ := h.eq_cons
              obtain ⟨t, rfl, ht'⟩ := ht.eq_cons
              rw [jsonStringRest_escape hu hn, jsonStringRest_same ds t ht']
            · rename_i he
              obtain ⟨t, rfl, ht⟩ := h.eq_cons
              obtain ⟨t, rfl, -⟩ := ht.eq_cons
              rw [jsonStringRest_escape hu hn, if_neg he, if_neg he]
    · by_cases hq : c = '"'
      · subst hq
        obtain ⟨t, rfl, -⟩ := h.eq_cons
        rfl
      · by_cases hn : c = '\n'
        · subst hn
          obtain ⟨t, rfl, -⟩ := h.eq_cons
          rfl
        · rw [jsonStringRest_plain hq hn hb, Reading.after_seen, Nat.add_comm] at h
          obtain ⟨t, rfl, ht⟩ := h.eq_cons
          rw [jsonStringRest_plain hq hn hb, jsonStringRest_plain hq hn hb,
            jsonStringRest_same cs t ht]
termination_by s => s.length

theorem jsonString_local : Local (α := Except LexError Unit) jsonString := by
  have h : Local (α := Except LexError Unit) jsonStringRest := by
    refine ⟨jsonStringRest_same, fun s => ?_⟩
    fun_induction jsonStringRest s with
    | case2 | case10 => exact le_rfl
    | case4 | case5 => exact Nat.le_succ 1
    | case6 a b c d cs hhex ih => exact Nat.add_le_add_left ih 6
    | case7 | case8 => exact Nat.le_succ _
    | case9 e cs hn hu4 hu he ih => exact Nat.add_le_add_left ih 2
    | case11 c cs _ _ _ _ _ _ _ ih => exact Nat.add_le_add_left ih 1
    | _ => exact Nat.zero_le _
  exact h.after 1

theorem plainDigits_local : Local (α := Except LexError Nat) plainDigits :=
  .attemptLift (skipWhile_local _)

theorem jsonNumber_local : Local (α := Except LexError Unit) jsonNumber :=
  numeral_local (jsonNumber_numeral (.given plainDigits_local))

/-! ## Pieces -/

theorem jsonNumber_seen (s : List Char) : 0 < (jsonNumber s).seen :=
  Nat.lt_of_lt_of_le Nat.one_pos
    ((skipIf_seen _ s).symm.le.trans ((le_max_left _ _).trans (le_max_left _ _)))

theorem valuePiece_seen (room : Nat) (stack : List Bracket) (s : List Char) :
    0 < (valuePiece room stack s).seen := by
  cases s with
  | nil => exact Nat.one_pos
  | cons c cs =>
    have hword : 0 < (skipWhile Text.isNamePart (c :: cs)).seen := by
      rw [skipWhile_eq]
      exact Nat.succ_pos _
    have hstring : 0 < (jsonString (c :: cs)).seen := by
      rw [jsonString, Reading.after_seen]
      omega
    rw [valuePiece]
    simp only []
    split_ifs
    any_goals exact Nat.one_pos
    · exact hstring
    · exact jsonNumber_seen _
    · exact hword
    · exact hword

theorem valuePiece_local (room : Nat) (stack : List Bracket) : Local (valuePiece room stack) where
  same
    | [], t, h => by rw [h.eq_nil]
    | c :: s, t, h => by
      obtain ⟨t, rfl⟩ := h.head (valuePiece_seen room stack _)
      rw [valuePiece] at h ⊢
      rw [valuePiece]
      simp only [] at h ⊢
      by_cases hb : c = '\x7b' ∨ c = '['
      · rw [if_pos hb, if_pos hb]
      rw [if_neg hb] at h ⊢
      rw [if_neg hb]
      by_cases hq : c = '"'
      · rw [if_pos hq] at h ⊢
        rw [if_pos hq, jsonString_local.same _ _ h]
      rw [if_neg hq] at h ⊢
      rw [if_neg hq]
      by_cases hd : c = '-' ∨ c.isDigit
      · rw [if_pos hd] at h ⊢
        rw [if_pos hd, jsonNumber_local.same _ _ h]
      rw [if_neg hd] at h ⊢
      rw [if_neg hd]
      by_cases ha : Text.isAlphabetic c
      · rw [if_pos ha] at h ⊢
        have hw : Agree (skipWhile Text.isNamePart (c :: s)).seen (c :: s) (c :: t) := by
          split at h <;> exact h
        rw [if_pos ha, (skipWhile_local _).same _ _ hw,
          hw.take_eq ((skipWhile_local _).used_le _)]
      · rw [if_neg ha, if_neg ha]
  used_le
    | [] => Nat.zero_le _
    | c :: s => by
      rw [valuePiece]
      simp only []
      split_ifs
      · exact Nat.zero_le _
      · exact le_rfl
      · exact le_rfl
      · exact jsonString_local.used_le _
      · exact jsonNumber_local.used_le _
      · exact (skipWhile_local _).used_le _
      · exact (skipWhile_local _).used_le _
      · exact Nat.zero_le _

theorem piece_seen (room : Nat) (expect : Expect) (stack : List Bracket) (s : List Char) :
    0 < (piece room expect stack s).seen := by
  cases s with
  | nil => exact Nat.one_pos
  | cons c cs =>
    cases expect with
    | value => exact valuePiece_seen room stack _
    | valueOrClose =>
      rw [piece]
      split
      · exact Nat.one_pos
      · exact valuePiece_seen room stack _
    | keyOrClose =>
      rw [piece]
      split_ifs
      · rw [Reading.map_seen, jsonString, Reading.after_seen]
        omega
      · exact Nat.one_pos
      · exact Nat.one_pos
    | colon =>
      rw [piece]
      split <;> exact Nat.one_pos
    | commaOrClose =>
      rw [piece]
      split_ifs <;> exact Nat.one_pos

theorem piece_local (room : Nat) (expect : Expect) (stack : List Bracket) :
    Local (piece room expect stack) where
  same
    | [], t, h => by rw [h.eq_nil]
    | c :: s, t, h => by
      obtain ⟨t, rfl⟩ := h.head (piece_seen room expect stack _)
      cases expect with
      | value => exact (valuePiece_local room stack).same _ _ h
      | valueOrClose =>
        rw [piece] at h ⊢
        rw [piece]
        split at h
        · rename_i hc
          rw [if_pos hc, if_pos hc]
        · rename_i hc
          rw [if_neg hc, if_neg hc, (valuePiece_local room stack).same _ _ h]
      | keyOrClose =>
        rw [piece] at h ⊢
        rw [piece]
        split at h
        · rename_i hc
          rw [if_pos hc, if_pos hc, jsonString_local.same _ _ h]
        · rename_i hc
          rw [if_neg hc, if_neg hc]
      | colon => rfl
      | commaOrClose => rfl
  used_le
    | [] => Nat.zero_le _
    | c :: s => by
      cases expect with
      | value => exact (valuePiece_local room stack).used_le _
      | valueOrClose =>
        rw [piece]
        split
        · exact le_rfl
        · exact (valuePiece_local room stack).used_le _
      | keyOrClose =>
        rw [piece]
        split_ifs
        · exact jsonString_local.used_le _
        · exact le_rfl
        · exact Nat.zero_le _
      | colon =>
        rw [piece]
        split
        · exact le_rfl
        · exact Nat.zero_le _
      | commaOrClose =>
        rw [piece]
        split
        · exact le_rfl
        · split
          · exact le_rfl
          · exact Nat.zero_le _

/-- What comes of one piece of a JSON value in a text `s`, the pieces behind it included. -/
def followPiece (room : Nat) (steps : List Char) (r : Reading Piece) (s : List Char) :
    Reading (Except LexError Unit) :=
  match r.value with
  | .more expect stack =>
    ((pieces room steps expect stack (s.drop r.used)).after r.used).seeing r.seen
  | .complete [] => r.map fun _ => .ok ()
  | .complete stack =>
    ((pieces room steps .commaOrClose stack (s.drop r.used)).after r.used).seeing r.seen
  | .misplaced e => r.back.map fun _ => .error e
  | .faulty e => r.map fun _ => .error e
  | .bareWord => r.back.map fun _ => .error .unbalancedJson

theorem pieces_cons (room : Nat) (c : Char) (steps : List Char) (expect : Expect)
    (stack : List Bracket) (s : List Char) : pieces room (c :: steps) expect stack s =
      followPiece room steps
        (bind (skipWhile Text.isJsonSpace) (fun _ => piece room expect stack) s) s := rfl

theorem followPiece_seen (room : Nat) (steps : List Char) (r : Reading Piece) (s : List Char) :
    r.seen ≤ (followPiece room steps r s).seen := by
  rw [followPiece]
  split
  · exact le_max_left _ _
  · exact le_rfl
  · exact le_max_left _ _
  · exact le_rfl
  · exact le_rfl
  · exact le_rfl

section Follow

variable {room : Nat} {steps : List Char}
  (ih : ∀ expect stack, Local (α := Except LexError Unit) (pieces room steps expect stack))
include ih

theorem followPiece_same (r : Reading Piece) {s t : List Char}
    (h : Agree (followPiece room steps r s).seen s t) :
    followPiece room steps r t = followPiece room steps r s := by
  obtain ⟨v, u, n⟩ := r
  have hrest (expect : Expect) (stack : List Bracket)
      (h : Agree (max n (u + (pieces room steps expect stack (s.drop u)).seen)) s t) :
      ((pieces room steps expect stack (t.drop u)).after u).seeing n
        = ((pieces room steps expect stack (s.drop u)).after u).seeing n := by
    rw [(ih expect stack).same _ _ (h.mono (le_max_right _ _)).drop]
  cases v with
  | more expect stack => exact hrest expect stack h
  | complete stack =>
    cases stack with
    | nil => rfl
    | cons b stack => exact hrest .commaOrClose (b :: stack) h
  | misplaced e => rfl
  | faulty e => rfl
  | bareWord => rfl

theorem followPiece_used (r : Reading Piece) (hr : r.used ≤ r.seen) (s : List Char) :
    (followPiece room steps r s).used ≤ (followPiece room steps r s).seen := by
  rw [followPiece]
  split
  · exact (Nat.add_le_add_left ((ih _ _).used_le _) _).trans (le_max_right _ _)
  · exact hr
  · exact (Nat.add_le_add_left ((ih _ _).used_le _) _).trans (le_max_right _ _)
  · exact Nat.zero_le _
  · exact hr
  · exact Nat.zero_le _

end Follow

theorem pieces_local (room : Nat) : ∀ (steps : List Char) (expect : Expect)
    (stack : List Bracket), Local (α := Except LexError Unit) (pieces room steps expect stack)
  | [], expect, stack => .const _ le_rfl
  | c :: steps, expect, stack => by
    have hp : Local (bind (skipWhile Text.isJsonSpace) fun _ => piece room expect stack) :=
      .andThen (skipWhile_local _) fun _ => piece_local room expect stack
    refine ⟨fun s t h => ?_, fun s => ?_⟩
    · rw [pieces_cons] at h ⊢
      rw [pieces_cons, hp.same _ _ (h.mono (followPiece_seen room steps _ s)),
        followPiece_same (pieces_local room steps) _ h]
    · rw [pieces_cons]
      exact followPiece_used (pieces_local room steps) _ (hp.used_le s) s

/-- A piece that starts here, faulty or not. -/
def Piece.isRead : Piece → Bool
  | .more .. | .complete _ | .faulty _ => true
  | _ => false

theorem jsonNumber_used {c : Char} (hc : c = '-' ∨ c.isDigit) (cs : List Char) :
    0 < (jsonNumber (c :: cs)).used := by
  rw [jsonNumber]
  by_cases hm : c = '-'
  · refine Nat.lt_of_lt_of_le ?_ (attempt_used _ _ _)
    rw [attempt_skipIf, if_pos (by simp [hm])]
    exact Nat.one_pos
  rw [attempt_used_of_ok (by rw [attempt_skipIf, if_neg (by simp [hm])])]
  by_cases hz : c = '0'
  · refine Nat.lt_of_lt_of_le ?_ (attempt_used _ _ _)
    rw [attempt_skipIf, if_pos (by simp [hz])]
    exact Nat.one_pos
  rw [attempt_used_of_ok (by rw [attempt_skipIf, if_neg (by simp [hz])]),
    if_neg Bool.false_ne_true]
  refine Nat.lt_of_lt_of_le ?_ (attempt_used _ _ _)
  show 0 < (skipWhile Char.isDigit (c :: cs)).used + 0
  rw [skipWhile_eq, List.takeWhile_cons_of_pos (hc.resolve_left hm)]
  exact Nat.succ_pos _

theorem valuePiece_used {room : Nat} {stack : List Bracket} {s : List Char}
    (h : (valuePiece room stack s).value.isRead) : 0 < (valuePiece room stack s).used := by
  cases s with
  | nil => simp [valuePiece, Piece.isRead] at h
  | cons c cs =>
    rw [valuePiece] at h ⊢
    simp only [] at h ⊢
    split_ifs at h ⊢ with hb hroom hbrace hq hd ha hw
    · simp [Piece.isRead] at h
    · exact Nat.one_pos
    · exact Nat.one_pos
    · rw [Reading.map_used, jsonString, Reading.after_used]
      omega
    · exact jsonNumber_used hd cs
    · rw [Reading.map_used]
      refine Nat.pos_of_ne_zero fun h0 => ?_
      rw [h0] at hw
      simp at hw
    · simp [Piece.isRead] at h
    · simp [Piece.isRead] at h

theorem piece_used {room : Nat} {expect : Expect} {stack : List Bracket} {s : List Char}
    (h : (piece room expect stack s).value.isRead) : 0 < (piece room expect stack s).used := by
  cases s with
  | nil => simp [piece, Piece.isRead] at h
  | cons c cs =>
    cases expect with
    | value => exact valuePiece_used h
    | valueOrClose =>
      rw [piece] at h ⊢
      split at h
      · rename_i hc
        rw [if_pos hc]
        exact Nat.one_pos
      · rename_i hc
        rw [if_neg hc]
        exact valuePiece_used h
    | keyOrClose =>
      rw [piece] at h ⊢
      split_ifs at h ⊢
      · rw [Reading.map_used, jsonString, Reading.after_used]
        omega
      · exact Nat.one_pos
      · simp [Piece.isRead] at h
    | colon =>
      rw [piece] at h ⊢
      split at h
      · rename_i hc
        rw [if_pos hc]
        exact Nat.one_pos
      · simp [Piece.isRead] at h
    | commaOrClose =>
      rw [piece] at h ⊢
      split_ifs at h ⊢
      · exact Nat.one_pos
      · exact Nat.one_pos
      · exact Nat.one_pos
      · simp [Piece.isRead] at h

/-- A piece leaves less text than there was. -/
theorem length_drop_piece {room : Nat} {expect : Expect} {stack : List Bracket} {s : List Char}
    {r : Reading Piece}
    (hr : bind (skipWhile Text.isJsonSpace) (fun _ => piece room expect stack) s = r)
    (h : r.value.isRead) : (s.drop r.used).length < s.length := by
  subst hr
  have hu : 0 < (piece room expect stack (s.drop (skipWhile Text.isJsonSpace s).used)).used :=
    piece_used h
  have hs : s ≠ [] := by
    rintro rfl
    simp [bind, skipWhile, piece, Piece.isRead] at h
  have hlen := List.length_pos_iff.2 hs
  rw [bind, Reading.seeing_used, Reading.after_used, List.length_drop]
  omega

/-- Beyond the length of the text the number of pieces that may be read does not matter. -/
theorem pieces_congr (room : Nat) : ∀ (steps steps' : List Char) (expect : Expect)
    (stack : List Bracket) (s : List Char), s.length < steps.length → s.length < steps'.length →
    pieces room steps expect stack s = pieces room steps' expect stack s
  | [], _, _, _, s, h, _ => by simp at h
  | _ :: _, [], _, _, s, _, h => by simp at h
  | c :: steps, c' :: steps', expect, stack, s, h, h' => by
    rw [pieces_cons, pieces_cons]
    rw [List.length_cons] at h h'
    generalize hr : bind (skipWhile Text.isJsonSpace) (fun _ => piece room expect stack) s = r
    have hshort := length_drop_piece hr
    obtain ⟨v, u, n⟩ := r
    have hrest (expect : Expect) (stack : List Bracket) (hd : (s.drop u).length < s.length) :
        pieces room steps expect stack (s.drop u) = pieces room steps' expect stack (s.drop u) :=
      pieces_congr room steps steps' expect stack (s.drop u) (by omega) (by omega)
    cases v with
    | more expect stack =>
      exact congrArg (fun q => (q.after u).seeing n) (hrest expect stack (hshort rfl))
    | complete stack =>
      cases stack with
      | nil => rfl
      | cons b stack =>
        exact congrArg (fun q => (q.after u).seeing n)
          (hrest .commaOrClose (b :: stack) (hshort rfl))
    | misplaced e => rfl
    | faulty e => rfl
    | bareWord => rfl

/-- What comes of the first piece of a JSON value in a text `s`. -/
def followFirst (room : Nat) (r : Reading Piece) (s : List Char) :
    Reading (Option (Except LexError Token.Kind)) :=
  let go (expect : Expect) (stack : List Bracket) :=
    (((pieces room (' ' :: s) expect stack (s.drop r.used)).after r.used).seeing r.seen).map
      fun result => some (result.map fun _ => .jsonSpan)
  match r.value with
  | .more expect stack => go expect stack
  | .complete [] => r.map fun _ => some (.ok .jsonSpan)
  | .complete stack => go .commaOrClose stack
  | .misplaced e => ⟨some (.error e), 1, r.seen⟩
  | .faulty e => r.map fun _ => some (.error e)
  | .bareWord => r.back.map fun _ => none

theorem jsonValue_eq (room : Nat) (s : List Char) :
    jsonValue room s = followFirst room (piece room .value [] s) s := rfl

theorem followFirst_seen (room : Nat) (r : Reading Piece) (s : List Char) :
    r.seen ≤ (followFirst room r s).seen := by
  rw [followFirst]
  split
  · exact le_max_left _ _
  · exact le_rfl
  · exact le_max_left _ _
  · exact le_rfl
  · exact le_rfl
  · exact le_rfl

theorem followFirst_same (room : Nat) (r : Reading Piece) {s t : List Char}
    (h : Agree (followFirst room r s).seen s t) : followFirst room r t = followFirst room r s := by
  obtain ⟨v, u, n⟩ := r
  have hrest (expect : Expect) (stack : List Bracket)
      (h : Agree (max n (u + (pieces room (' ' :: s) expect stack (s.drop u)).seen)) s t) :
      pieces room (' ' :: t) expect stack (t.drop u)
        = pieces room (' ' :: s) expect stack (s.drop u) := by
    -- both read with more pieces than either text has characters
    have hs := pieces_congr room (' ' :: s) (' ' :: (s ++ t)) expect stack (s.drop u)
      (by simp only [List.length_drop, List.length_cons]; omega)
      (by simp only [List.length_drop, List.length_cons, List.length_append]; omega)
    have ht := pieces_congr room (' ' :: t) (' ' :: (s ++ t)) expect stack (t.drop u)
      (by simp only [List.length_drop, List.length_cons]; omega)
      (by simp only [List.length_drop, List.length_cons, List.length_append]; omega)
    rw [hs] at h ⊢
    rw [ht]
    exact (pieces_local room _ expect stack).same _ _ (h.mono (le_max_right _ _)).drop
  let span (q : Reading (Except LexError Unit)) : Reading (Option (Except LexError Token.Kind)) :=
    ((q.after u).seeing n).map fun result => some (result.map fun _ => .jsonSpan)
  cases v with
  | more expect stack => exact congrArg span (hrest expect stack h)
  | complete stack =>
    cases stack with
    | nil => rfl
    | cons b stack => exact congrArg span (hrest .commaOrClose (b :: stack) h)
  | misplaced e => rfl
  | faulty e => rfl
  | bareWord => rfl

theorem jsonValue_local (room : Nat) : Local (jsonValue room) where
  same s t h := by
    rw [jsonValue_eq] at h ⊢
    rw [jsonValue_eq, (piece_local room .value []).same _ _ (h.mono (followFirst_seen room _ s)),
      followFirst_same room _ h]
  used_le s := by
    have hused := (piece_local room .value []).used_le s
    have hseen := piece_seen room .value [] s
    rw [jsonValue_eq]
    generalize piece room .value [] s = r at hused hseen
    rw [followFirst]
    split
    · exact (Nat.add_le_add_left ((pieces_local room _ _ _).used_le _) _).trans (le_max_right _ _)
    · exact hused
    · exact (Nat.add_le_add_left ((pieces_local room _ _ _).used_le _) _).trans (le_max_right _ _)
    · exact hseen
    · exact hused
    · exact Nat.zero_le _

end Lexer

end AvroTree
