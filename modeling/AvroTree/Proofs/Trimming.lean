import AvroTree.Proofs.Spelling

/-!
# What a token is followed by

A lexer that has not used up the end of a text answers the same when that end is cut off (`Trims`),
although it may have looked at it. Together with its not telling the end of the text from a blank
(`Blunt`) this says that a token is read the same in front of its neighbour and in front of a blank
(`plain_swap`, `jsonValue_swap`).
-/

namespace AvroTree

namespace Reading

variable {α β : Type}

/-- What a reading says, whatever was seen for it. -/
def told (r : Reading α) : α × Nat :=
  (r.value, r.used)

theorem told_eq {r r' : Reading α} (h : r.told = r'.told) : r.value = r'.value ∧ r.used = r'.used :=
  Prod.mk.inj h

theorem told_of {r r' : Reading α} (hvalue : r.value = r'.value) (hused : r.used = r'.used) :
    r.told = r'.told :=
  Prod.ext hvalue hused

theorem eq_of_told {r r' : Reading α} (h : r.told = r'.told) :
    r = ⟨r'.value, r'.used, r.seen⟩ := by
  obtain ⟨hvalue, hused⟩ := told_eq h
  rw [← hvalue, ← hused]

theorem told_map {r r' : Reading α} (h : r.told = r'.told) (f : α → β) :
    (r.map f).told = (r'.map f).told :=
  told_of (congrArg f (told_eq h).1) (told_eq h).2

theorem told_after {r r' : Reading α} (h : r.told = r'.told) (n : Nat) :
    (r.after n).told = (r'.after n).told :=
  told_of (told_eq h).1 (congrArg (n + ·) (told_eq h).2)

@[simp]
theorem told_seeing (r : Reading α) (n : Nat) : (r.seeing n).told = r.told := rfl

end Reading

namespace Lexer

open Reading (told told_eq told_of eq_of_told told_map told_after)
open Text (isNamePart isNameStart Ends)

variable {α β : Type} {s r : List Char} {c : Char} {V : TokenSet} {mode : Mode}

/-! ## Cutting off what was not used -/

/-- The end of a text that was not used up can be cut off. -/
def Trims (p : Lexer α) : Prop :=
  ∀ s r, (p (s ++ r)).used ≤ s.length → (p s).told = (p (s ++ r)).told

namespace Trims

theorem const (a : α) (n : Nat) : Trims fun _ => ⟨a, 0, n⟩ :=
  fun _ _ _ => rfl

theorem andThen {p : Lexer α} {f : α → Lexer β} (hp : Trims p) (hf : ∀ a, Trims (f a)) :
    Trims (bind p f) := by
  intro s r hu
  have hsum : (p (s ++ r)).used
      + (f (p (s ++ r)).value ((s ++ r).drop (p (s ++ r)).used)).used ≤ s.length := hu
  have hfirst : (p (s ++ r)).used ≤ s.length := by omega
  obtain ⟨hvalue, hused⟩ := told_eq (hp s r hfirst)
  have hrest := hf (p (s ++ r)).value (s.drop (p (s ++ r)).used) r
  rw [← List.drop_append_of_le_length hfirst, List.length_drop] at hrest
  obtain ⟨hvalue', hused'⟩ := told_eq (hrest (by omega))
  refine told_of ?_ ?_
  · simp only [bind, Reading.seeing_value, Reading.after_value]
    rw [hvalue, hused, hvalue']
  · simp only [bind, Reading.seeing_used, Reading.after_used]
    rw [hvalue, hused, hused']

theorem ite {P : Prop} [Decidable P] {p q : Lexer α} (hp : Trims p) (hq : Trims q) :
    Trims (if P then p else q) := by
  split
  · exact hp
  · exact hq

theorem attemptPure (a : α) : Trims (α := Except LexError α) (pure a : Attempt α) :=
  const _ _

theorem attemptThrow (e : LexError) : Trims (α := Except LexError α) (throw e : Attempt α) :=
  const _ _

theorem attemptLift {p : Lexer α} (h : Trims p) :
    Trims (α := Except LexError α) (liftM p : Attempt α) :=
  andThen h fun _ => const _ _

theorem attemptBind {p : Attempt α} {f : α → Attempt β} (hp : Trims (α := Except LexError α) p)
    (hf : ∀ a, Trims (α := Except LexError β) (f a)) :
    Trims (α := Except LexError β) (p >>= f : Attempt β) := by
  refine andThen hp fun r => ?_
  cases r with
  | ok a => exact hf a
  | error e => exact const _ _

end Trims

theorem skipIf_trims (p : Char → Bool) : Trims (skipIf p) := by
  intro s r hu
  cases s with
  | nil =>
    cases r with
    | nil => rfl
    | cons c r =>
      rw [List.nil_append, skipIf] at hu ⊢
      split at hu
      · simp at hu
      · rw [if_neg ‹_›]
        rfl
  | cons c s => rfl

theorem skipWhile_trims (p : Char → Bool) : Trims (skipWhile p) := by
  intro s r hu
  rw [skipWhile_eq] at hu
  have hlen : (s.takeWhile p).length = ((s ++ r).takeWhile p).length := by
    rw [List.takeWhile_append] at hu ⊢
    split
    · rename_i hall
      rw [if_pos hall, List.length_append] at hu
      rw [List.length_append]
      simp only at hu
      omega
    · rfl
  rw [skipWhile_eq, skipWhile_eq, hlen]

theorem digitsFrom_trims : ∀ (n : Nat), Trims (digitsFrom n)
  | n, s, r, hu => by
    fun_induction digitsFrom n s with
    | case1 n =>
      cases r with
      | nil => rfl
      | cons d r =>
        rw [List.nil_append, digitsFrom.eq_def] at hu ⊢
        simp only at hu ⊢
        split_ifs at hu ⊢ with hd hu'
        · simp at hu
        · revert hu
          cases r with
          | nil => simp
          | cons e r =>
            simp only
            split <;> simp
        · rfl
    | case2 n c cs hc ih =>
      have hread : digitsFrom n (c :: cs ++ r) = (digitsFrom (n + 1) (cs ++ r)).after 1 := by
        rw [List.cons_append, digitsFrom.eq_def]
        simp only [if_pos hc]
      rw [hread, Reading.after_used, List.length_cons] at hu
      rw [hread]
      exact told_after (ih (by omega)) 1
    | case3 n c hc hu' =>
      cases r with
      | nil =>
        rw [List.append_nil, digitsFrom, if_neg hc, if_pos hu']
      | cons d r =>
        rw [List.cons_append, List.nil_append, digitsFrom, if_neg hc, if_pos hu'] at hu ⊢
        split_ifs at hu ⊢ with hd
        · simp only [Reading.after_used, List.length_singleton] at hu
          omega
        · rfl
    | case4 n c hc hu' d ds hd ih =>
      have hread : digitsFrom n (c :: d :: ds ++ r) = (digitsFrom (n + 1) (ds ++ r)).after 2 := by
        rw [List.cons_append, List.cons_append, digitsFrom, if_neg hc, if_pos hu', if_pos hd]
      rw [hread, Reading.after_used, List.length_cons, List.length_cons] at hu
      rw [hread]
      exact told_after (ih (by omega)) 2
    | case5 n c hc hu' d ds hd =>
      rw [List.cons_append, List.cons_append, digitsFrom, if_neg hc, if_pos hu', if_neg hd]
    | case6 n c cs hc hu' =>
      rw [List.cons_append, digitsFrom.eq_def]
      simp only [if_neg hc, if_neg hu']

theorem numeral_trims {α : Type} {p : Attempt α}
    (h : Numeral (fun α p => Trims (α := Except LexError α) p) p) :
    Trims (α := Except LexError α) p := by
  induction h with
  | given h => exact h
  | pure a => exact .attemptPure a
  | invalid => exact .attemptThrow _
  | mark _ => exact .attemptLift (skipIf_trims _)
  | bind _ _ hp hf => exact .attemptBind hp hf

theorem number_trims : Trims (α := Except LexError Token.Kind) number :=
  numeral_trims (number_numeral (.given (digitsFrom_trims 0)))

theorem jsonNumber_trims : Trims (α := Except LexError Unit) jsonNumber :=
  numeral_trims (jsonNumber_numeral (.given (.attemptLift (skipWhile_trims _))))

/-! ## Names -/

theorem nameRest_trims : Trims nameRest := by
  intro s r hu
  fun_induction nameRest s with
  | case1 =>
    cases r with
    | nil => rfl
    | cons d r =>
      rw [List.nil_append, nameRest.eq_def] at hu ⊢
      simp only at hu ⊢
      split_ifs at hu ⊢ with hd hdot
      · simp at hu
      · revert hu
        cases r with
        | nil => simp [told]
        | cons e r =>
          simp only
          split <;> simp [told]
      · rfl
  | case2 c cs hc ih =>
    have hread : nameRest (c :: cs ++ r) = (nameRest (cs ++ r)).after 1 := by
      rw [List.cons_append, nameRest.eq_def]
      simp only [if_pos hc]
    rw [hread, Reading.after_used, List.length_cons] at hu
    rw [hread]
    exact told_after (ih (by omega)) 1
  | case3 hc =>
    cases r with
    | nil => rw [List.append_nil, nameRest, if_neg hc, if_pos rfl]
    | cons d r =>
      rw [List.cons_append, List.nil_append, nameRest, if_neg hc, if_pos rfl] at hu ⊢
      split_ifs at hu ⊢ with hd
      · simp only [Reading.map_used, Reading.after_used, List.length_singleton] at hu
        omega
      · rfl
  | case4 d ds hd hc ih =>
    have hread : nameRest ('.' :: d :: ds ++ r)
        = ((nameRest (ds ++ r)).after 2).map fun _ => true := by
      rw [List.cons_append, List.cons_append, nameRest, if_neg hc, if_pos rfl, if_pos hd]
    rw [hread, Reading.map_used, Reading.after_used, List.length_cons, List.length_cons] at hu
    rw [hread]
    exact told_map (told_after (ih (by omega)) 2) _
  | case5 d ds hd hc =>
    rw [List.cons_append, List.cons_append, nameRest, if_neg hc, if_pos rfl, if_neg hd]
  | case6 c cs hc hdot =>
    rw [List.cons_append, nameRest.eq_def]
    simp only [if_neg hc, if_neg hdot]

theorem nameRest_blunt : Blunt nameRest where
  same s r hr := by
    have hend : nameRest r = nameRest [] := by
      cases r with
      | nil => rfl
      | cons b r =>
        have hb : Text.isSpace b := hr b rfl
        rw [nameRest.eq_def]
        simp only [isNamePart_of_isSpace b hb, Bool.false_eq_true, ↓reduceIte,
          if_neg (Text.ne_of_isSpace hb (c := '.') rfl)]
        rfl
    fun_induction nameRest s with
    | case1 => exact hend
    | case2 c cs hc ih =>
      rw [List.cons_append, nameRest.eq_def]
      simp only [if_pos hc, ih]
    | case3 hc =>
      cases r with
      | nil => rw [List.append_nil, nameRest, if_neg hc, if_pos rfl]
      | cons b r =>
        have hb : ¬isNameStart b := by
          simp [isNameStart, Text.isReserved, show Text.isSpace b from hr b rfl]
        rw [List.cons_append, List.nil_append, nameRest, if_neg hc, if_pos rfl, if_neg hb]
    | case4 d ds hd hc ih =>
      rw [List.cons_append, List.cons_append, nameRest, if_neg hc, if_pos rfl, if_pos hd, ih]
    | case5 d ds hd hc =>
      rw [List.cons_append, List.cons_append, nameRest, if_neg hc, if_pos rfl, if_neg hd]
    | case6 c cs hc hdot =>
      rw [List.cons_append, nameRest.eq_def]
      simp only [if_neg hc, if_neg hdot]
  used_le s := by
    fun_induction nameRest s with
    | case2 _ _ _ ih =>
      rw [Reading.after_used, List.length_cons]
      omega
    | case4 _ _ _ _ ih =>
      rw [Reading.map_used, Reading.after_used, List.length_cons, List.length_cons]
      omega
    | _ => simp

/-- What was not used up may be exchanged for a blank. -/
theorem Trims.swap {p : Lexer α} (ht : Trims p) (hb : Blunt p) {z : List Char}
    (hu : (p (s ++ r)).used ≤ s.length) (hz : Ends z) : (p (s ++ z)).told = (p (s ++ r)).told := by
  rw [hb.same s z hz]
  exact ht s r hu

/-! ## Strings -/

/-- What is read in order has been seen no further than it was used up. -/
def Exact (p : Attempt α) : Prop :=
  ∀ s a, (p s).value = .ok a → (p s).seen ≤ (p s).used

theorem Exact.swap {p : Attempt α} (h : Exact p) (hp : Local (α := Except LexError α) p) {a : α}
    (hv : (p (s ++ r)).value = .ok a) (hu : (p (s ++ r)).used ≤ s.length) (z : List Char) :
    p (s ++ z) = p (s ++ r) := by
  have hseen := (h _ _ hv).trans hu
  refine hp.same _ _ ?_
  rw [Text.Agree, List.take_append_of_le_length hseen, List.take_append_of_le_length hseen]

theorem string_exact (quote : Char) : Exact (string quote) := by
  have hrest (s : List Char) (k : Token.Kind) (h : (stringRest quote s).value = .ok k) :
      (stringRest quote s).seen ≤ (stringRest quote s).used := by
    fun_induction stringRest quote s with
    | case2 => exact le_rfl
    | case5 _ _ _ _ ih => exact Nat.add_le_add_left (ih h) 2
    | case7 _ _ _ _ _ ih => exact Nat.add_le_add_left (ih h) 1
    | _ => cases h
  exact fun s k h => Nat.add_le_add_left (hrest _ k h) 1

theorem quotedName_exact : Exact quotedName := by
  intro s k h
  rw [quotedName] at h ⊢
  split at h
  · rw [if_pos ‹_›]
  · cases h

theorem jsonString_exact : Exact jsonString := by
  have hrest (s : List Char) (u : Unit) (h : (jsonStringRest s).value = .ok u) :
      (jsonStringRest s).seen ≤ (jsonStringRest s).used := by
    fun_induction jsonStringRest s with
    | case2 => exact le_rfl
    | case6 _ _ _ _ _ _ ih => exact Nat.add_le_add_left (ih h) 6
    | case9 _ _ _ _ _ _ ih => exact Nat.add_le_add_left (ih h) 2
    | case11 _ _ _ _ _ _ _ _ _ ih => exact Nat.add_le_add_left (ih h) 1
    | _ => cases h
  exact fun s u h => Nat.add_le_add_left (hrest _ u h) 1

/-! ## Tokens -/

theorem atName_swap {z : List Char} {k : Token.Kind} (hv : (atName (c :: s ++ r)).value = .ok k)
    (hu : (atName (c :: s ++ r)).used ≤ (c :: s).length) (hz : Ends z) :
    (atName (c :: s ++ z)).told = (atName (c :: s ++ r)).told := by
  have hpart (b : Char) (hb : Text.isSpace b) : (isNamePart b || b == '-' || b == '.') = false :=
    isNotePart_of_isSpace b hb
  cases s with
  | nil =>
    cases r with
    | nil => cases hv
    | cons d r =>
      simp only [atName, List.cons_append, List.nil_append, List.drop_one, List.tail_cons] at hv hu
      split at hv
      · rename_i hd
        rw [if_pos hd, Reading.map_used, Reading.after_used, skipWhile_eq,
          List.takeWhile_cons_of_pos
            (by simp [Text.isNamePart, isNameStart] at hd ⊢; simp [hd.2])] at hu
        simp at hu
      · cases hv
  | cons d s =>
    simp only [atName, List.cons_append, List.drop_one, List.tail_cons] at hv hu ⊢
    split at hv
    · rename_i hd
      rw [if_pos hd, Reading.map_used, Reading.after_used, List.length_cons,
        ← List.cons_append] at hu
      rw [if_pos hd, if_pos hd, ← List.cons_append, ← List.cons_append]
      exact told_map
        (told_after ((skipWhile_trims _).swap (skipWhile_blunt hpart) (by omega) hz) 1) _
    · cases hv

theorem word_swap {z : List Char} (hu : (word V (s ++ r)).used ≤ s.length) (hz : Ends z) :
    (word V (s ++ z)).told = (word V (s ++ r)).told := by
  have hused : (nameRest (s ++ r)).used ≤ s.length := hu
  obtain ⟨hvalue, hsame⟩ := told_eq (nameRest_trims.swap nameRest_blunt hused hz)
  refine told_of ?_ hsame
  rw [word, word, Reading.map_value, Reading.map_value, hvalue, hsame,
    List.take_append_of_le_length hused, List.take_append_of_le_length hused]

/-- A number that starts with a sign or a dot is seen to start in front of a blank as well. -/
theorem startsNumber_swap {z : List Char} {k : Token.Kind} (hc : isSign c || c == '.')
    (hv : (number (c :: s ++ r)).value = .ok k)
    (hu : (number (c :: s ++ r)).used ≤ (c :: s).length) :
    (startsNumber (c :: s ++ z)).value = (startsNumber (c :: s ++ r)).value := by
  obtain ⟨hvalue, -⟩ := told_eq (number_trims (c :: s) r hu)
  rw [hv] at hvalue
  have hcases : c = '-' ∨ c = '+' ∨ c = '.' := by
    simpa only [isSign, Bool.or_eq_true, beq_iff_eq, or_assoc] using hc
  cases s with
  | nil =>
    rcases hcases with rfl | rfl | rfl <;> cases hvalue
  | cons d s =>
    rw [List.cons_append, List.cons_append, List.cons_append, List.cons_append]
    rcases hcases with rfl | rfl | rfl
    · by_cases hd : d = '.'
      · subst hd
        cases s with
        | nil => cases hvalue
        | cons e s => rfl
      · simp [startsNumber]
    · by_cases hd : d = '.'
      · subst hd
        cases s with
        | nil => cases hvalue
        | cons e s => rfl
      · simp [startsNumber]
    · rfl

theorem signed_swap {z : List Char} {k : Token.Kind} (hc : isSign c || c == '.')
    (hv : (signed (c :: s ++ r)).value = .ok k)
    (hu : (signed (c :: s ++ r)).used ≤ (c :: s).length) (hz : Ends z) :
    (signed (c :: s ++ z)).told = (signed (c :: s ++ r)).told := by
  unfold signed at hv hu ⊢
  split_ifs at hv hu with hstarts
  rw [Reading.seeing_value] at hv
  rw [Reading.seeing_used] at hu
  rw [startsNumber_swap hc hv hu, if_pos hstarts, if_pos hstarts, Reading.told_seeing,
    Reading.told_seeing]
  exact number_trims.swap number_blunt hu hz

/-- A token other than a JSON value is read the same in front of a blank. -/
theorem plain_swap {z : List Char} {k : Token.Kind}
    (hv : (plain V mode c (c :: s ++ r)).value = .ok k)
    (hu : (plain V mode c (c :: s ++ r)).used ≤ (c :: s).length) (hz : Ends z) :
    (plain V mode c (c :: s ++ z)).told = (plain V mode c (c :: s ++ r)).told := by
  revert hv hu
  refine plain_forms (P := fun p => (p (c :: s ++ r)).value = .ok k →
    (p (c :: s ++ r)).used ≤ (c :: s).length →
      told (p (c :: s ++ z)) = told (p (c :: s ++ r))) V mode c (fun _ _ _ _ => rfl)
    (fun _ hv hu => ?_) (fun _ hv hu => ?_) (fun _ hv hu => atName_swap hv hu hz)
    (fun _ _ hu => number_trims.swap number_blunt hu hz) (fun hs hv hu => signed_swap hs hv hu hz)
    (fun _ _ hu => told_map (word_swap hu hz) _) fun _ _ => rfl
  · rw [(string_exact c).swap (string_local c) hv hu]
  · rw [quotedName_exact.swap quotedName_local hv hu]

/-! ## JSON values -/

section Values

variable {room : Nat} {expect : Expect} {stack : List Bracket} {z : List Char}

theorem isRead_of_isGood {p : Piece} (h : p.isGood) : p.isRead := by
  cases p <;> first | rfl | cases h

theorem jsonString_swap {p : Piece}
    (h : ((jsonString (s ++ r)).map (Piece.ofAttempt p)).value.isGood)
    (hu : (jsonString (s ++ r)).used ≤ s.length) (z : List Char) :
    jsonString (s ++ z) = jsonString (s ++ r) :=
  jsonString_exact.swap jsonString_local (ok_of_ofAttempt h) hu z

theorem valuePiece_swap (h : (valuePiece room stack (s ++ r)).value.isGood)
    (hu : (valuePiece room stack (s ++ r)).used ≤ s.length) (hz : Ends z) :
    (valuePiece room stack (s ++ z)).told = (valuePiece room stack (s ++ r)).told := by
  cases s with
  | nil =>
    have hpos := valuePiece_used (isRead_of_isGood h)
    simp only [List.length_nil] at hu
    omega
  | cons c cs =>
    simp only [List.cons_append] at h hu ⊢
    rw [valuePiece] at h hu ⊢
    rw [valuePiece]
    by_cases hb : c = '\x7b' ∨ c = '['
    · rw [if_pos hb, if_pos hb]
    simp only [if_neg hb] at h hu ⊢
    by_cases hq : c = '"'
    · simp only [if_pos hq] at h hu ⊢
      rw [← List.cons_append, ← List.cons_append, jsonString_swap (s := c :: cs) h hu]
    simp only [if_neg hq] at h hu ⊢
    by_cases hd : c = '-' ∨ c.isDigit
    · simp only [if_pos hd] at h hu ⊢
      exact told_map (jsonNumber_trims.swap jsonNumber_blunt (s := c :: cs) hu hz) _
    simp only [if_neg hd] at h hu ⊢
    by_cases ha : Text.isAlphabetic c
    · simp only [if_pos ha] at h hu ⊢
      have hu : (skipWhile isNamePart (c :: cs ++ r)).used ≤ (c :: cs).length := by
        split at hu <;> exact hu
      obtain ⟨hvalue, hused⟩ := told_eq ((skipWhile_trims isNamePart).swap
        (skipWhile_blunt isNamePart_of_isSpace) hu hz)
      simp only [← List.cons_append] at hvalue hused ⊢
      rw [hused, List.take_append_of_le_length hu, List.take_append_of_le_length hu]
      split <;> exact told_of rfl hused
    · rw [if_neg ha] at h
      cases h

theorem piece_swap (h : (piece room expect stack (s ++ r)).value.isGood)
    (hu : (piece room expect stack (s ++ r)).used ≤ s.length) (hz : Ends z) :
    (piece room expect stack (s ++ z)).told = (piece room expect stack (s ++ r)).told := by
  cases s with
  | nil =>
    have hpos := piece_used (isRead_of_isGood h)
    simp only [List.length_nil] at hu
    omega
  | cons c cs =>
    have hvalue (h : (valuePiece room stack (c :: cs ++ r)).value.isGood)
        (hu : (valuePiece room stack (c :: cs ++ r)).used ≤ (c :: cs).length) (hz : Ends z) :
        (valuePiece room stack (c :: cs ++ z)).told = (valuePiece room stack (c :: cs ++ r)).told :=
      valuePiece_swap h hu hz
    simp only [List.cons_append] at h hu hvalue ⊢
    cases expect with
    | value => exact hvalue h hu hz
    | valueOrClose =>
      rw [piece] at h hu ⊢
      rw [piece]
      split_ifs at h hu ⊢ with hc
      · rfl
      · exact hvalue h hu hz
    | keyOrClose =>
      rw [piece] at h hu ⊢
      rw [piece]
      split_ifs at h hu ⊢ with hq hc
      · rw [← List.cons_append, ← List.cons_append, jsonString_swap (s := c :: cs) h hu]
      · rfl
      · rfl
    | colon => rfl
    | commaOrClose => rfl

/-- Blanks in front of a piece are read the same, whatever the piece is followed by. -/
theorem spacedPiece_swap
    (h : (bind (skipWhile Text.isJsonSpace) (fun _ => piece room expect stack)
      (s ++ r)).value.isGood)
    (hu : (bind (skipWhile Text.isJsonSpace) (fun _ => piece room expect stack) (s ++ r)).used
      ≤ s.length) (hz : Ends z) :
    (bind (skipWhile Text.isJsonSpace) (fun _ => piece room expect stack) (s ++ z)).told
      = (bind (skipWhile Text.isJsonSpace) (fun _ => piece room expect stack) (s ++ r)).told := by
  set n := (skipWhile Text.isJsonSpace (s ++ r)).used with hn
  have hpiece : (piece room expect stack ((s ++ r).drop n)).value.isGood := h
  have hsum : n + (piece room expect stack ((s ++ r).drop n)).used ≤ s.length := hu
  have hpos := piece_used (isRead_of_isGood hpiece)
  -- The piece uses up something of `s`, so the blanks come to an end in it.
  have hblank : skipWhile Text.isJsonSpace (s ++ z) = skipWhile Text.isJsonSpace (s ++ r) := by
    refine (skipWhile_local _).same _ _ ?_
    rw [skipWhile_eq] at hn ⊢
    have hle : ((s ++ r).takeWhile Text.isJsonSpace).length + 1 ≤ s.length := by
      simp only at hn
      omega
    rw [Text.Agree, List.take_append_of_le_length hle, List.take_append_of_le_length hle]
  have hle : n ≤ s.length := by omega
  rw [List.drop_append_of_le_length hle] at hpiece hsum
  have hsame := piece_swap hpiece (by rw [List.length_drop]; omega) hz
  rw [bind, bind, hblank, ← hn, List.drop_append_of_le_length hle,
    List.drop_append_of_le_length hle]
  exact told_after hsame n

theorem pieces_swap (hz : Ends z) : ∀ (steps : List Char) (expect : Expect) (stack : List Bracket)
    (s : List Char), (pieces room steps expect stack (s ++ r)).value = .ok () →
    (pieces room steps expect stack (s ++ r)).used ≤ s.length →
    (pieces room steps expect stack (s ++ z)).told = (pieces room steps expect stack (s ++ r)).told
  | [], _, _, _, h, _ => by cases h
  | c :: steps, expect, stack, s, h, hu => by
    rw [pieces_cons] at h hu ⊢
    rw [pieces_cons]
    have hle := fun hle => eq_of_told (spacedPiece_swap (isGood_of_followPiece h) hle hz)
    generalize bind (skipWhile Text.isJsonSpace) (fun _ => piece room expect stack)
      (s ++ r) = p at *
    generalize bind (skipWhile Text.isJsonSpace) (fun _ => piece room expect stack)
      (s ++ z) = q at *
    obtain ⟨v, u, n⟩ := p
    have hrest (expect : Expect) (stack : List Bracket)
        (h : (pieces room steps expect stack ((s ++ r).drop u)).value = .ok ())
        (hu : u + (pieces room steps expect stack ((s ++ r).drop u)).used ≤ s.length) :
        (pieces room steps expect stack ((s ++ z).drop u)).told
          = (pieces room steps expect stack ((s ++ r).drop u)).told := by
      have hu' : u ≤ s.length := by omega
      rw [List.drop_append_of_le_length hu'] at h hu ⊢
      rw [List.drop_append_of_le_length hu']
      exact pieces_swap hz steps expect stack (s.drop u) h (by rw [List.length_drop]; omega)
    cases v with
    | more expect stack =>
      have hsum : u + (pieces room steps expect stack ((s ++ r).drop u)).used ≤ s.length := hu
      rw [hle (by simp only; omega)]
      exact told_after (hrest expect stack h hu) u
    | complete stack =>
      cases stack with
      | nil =>
        rw [hle hu]
        rfl
      | cons b stack =>
        have hsum : u + (pieces room steps .commaOrClose (b :: stack) ((s ++ r).drop u)).used
          ≤ s.length := hu
        rw [hle (by simp only; omega)]
        exact told_after (hrest .commaOrClose (b :: stack) h hu) u
    | _ => cases h

/-- A JSON value is read the same in front of a blank. -/
theorem jsonValue_swap (h : (jsonValue room (s ++ r)).value = some (.ok .jsonSpan))
    (hu : (jsonValue room (s ++ r)).used ≤ s.length) (hz : Ends z) :
    (jsonValue room (s ++ z)).told = (jsonValue room (s ++ r)).told := by
  have hle := fun hle => eq_of_told (piece_swap (isGood_of_jsonValue h) hle hz)
  rw [jsonValue_eq] at h hu ⊢
  rw [jsonValue_eq]
  generalize piece room .value [] (s ++ r) = p at *
  generalize piece room .value [] (s ++ z) = q at *
  obtain ⟨v, u, n⟩ := p
  have hrest (expect : Expect) (stack : List Bracket)
      (h : (pieces room (' ' :: (s ++ r)) expect stack ((s ++ r).drop u)).value.map
        (fun _ => Token.Kind.jsonSpan) = .ok .jsonSpan)
      (hu : u + (pieces room (' ' :: (s ++ r)) expect stack ((s ++ r).drop u)).used ≤ s.length) :
      (pieces room (' ' :: (s ++ z)) expect stack ((s ++ z).drop u)).told
        = (pieces room (' ' :: (s ++ r)) expect stack ((s ++ r).drop u)).told := by
    have hu' : u ≤ s.length := by omega
    -- How many pieces may be read does not matter, so they may be as many for both.
    have hsteps := pieces_congr room (' ' :: (s ++ r)) (' ' :: (s ++ r ++ z)) expect stack
      ((s ++ r).drop u) (by simp only [List.length_drop, List.length_cons]; omega)
      (by simp only [List.length_drop, List.length_cons, List.length_append]; omega)
    have hsteps' := pieces_congr room (' ' :: (s ++ z)) (' ' :: (s ++ r ++ z)) expect stack
      ((s ++ z).drop u) (by simp only [List.length_drop, List.length_cons]; omega)
      (by simp only [List.length_drop, List.length_cons, List.length_append]; omega)
    have hvalue := ok_of_map h
    rw [hsteps']
    rw [hsteps] at hvalue hu ⊢
    rw [List.drop_append_of_le_length hu'] at hvalue hu ⊢
    rw [List.drop_append_of_le_length hu']
    exact pieces_swap hz _ expect stack _ hvalue (by rw [List.length_drop]; omega)
  -- The result of the pieces becomes that of the value.
  have hspan {q q' : Reading (Except LexError Unit)} (h : q.told = q'.told) :
      ((q.after u).map fun result => some (result.map fun _ => Token.Kind.jsonSpan)).told
        = ((q'.after u).map fun result => some (result.map fun _ => Token.Kind.jsonSpan)).told :=
    told_map (told_after h u) _
  cases v with
  | more expect stack =>
    have hsum : u + (pieces room (' ' :: (s ++ r)) expect stack ((s ++ r).drop u)).used
      ≤ s.length := hu
    rw [hle (by simp only; omega)]
    exact hspan (hrest expect stack (Option.some.inj h) hu)
  | complete stack =>
    cases stack with
    | nil =>
      rw [hle hu]
      rfl
    | cons b stack =>
      have hsum : u + (pieces room (' ' :: (s ++ r)) .commaOrClose (b :: stack)
        ((s ++ r).drop u)).used ≤ s.length := hu
      rw [hle (by simp only; omega)]
      exact hspan (hrest .commaOrClose (b :: stack) (Option.some.inj h) hu)
  | _ => cases h

end Values

end Lexer

end AvroTree
