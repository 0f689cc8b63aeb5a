import AvroTree.Proofs.SchemaRunning

/-!
# How tokens are written

The texts that may be written for a token of a kind (`Spells`), said without the lexer but for JSON
values. Followed by a blank or by the end of the text such a text is read as that token
(`Spells.plain`, `Spells.span`).
-/

namespace AvroTree

open Token (Kind)

namespace Text

/-- A name: no part of it is reserved and it does not start with a digit. -/
def isName : List Char → Bool
  | [] => false
  | c :: cs => isNameStart c && cs.all isNamePart

/-- A part of the name of an annotation. -/
def isNotePart (c : Char) : Bool :=
  isNamePart c || c == '-' || c == '.'

/-- The text ends here or goes on with a blank. -/
def Ends (s : List Char) : Prop :=
  ∀ c ∈ s.head?, isSpace c

/-- Digits with single underscores between them. -/
inductive Digits : List Char → Prop
  | one {d : Char} (h : d.isDigit) : Digits [d]
  | cons {d : Char} {ds : List Char} (h : d.isDigit) (rest : Digits ds) : Digits (d :: ds)
  | underscore {d : Char} {ds : List Char} (h : d.isDigit) (rest : Digits ds) :
      Digits (d :: '_' :: ds)

/-- A sign or nothing. -/
def Sign (s : List Char) : Prop :=
  s = [] ∨ ∃ c, Lexer.isSign c ∧ s = [c]

/-- A power of ten or nothing. -/
def Power (s : List Char) : Prop :=
  s = [] ∨ ∃ c sign ds, Lexer.isExponentMark c ∧ Sign sign ∧ Digits ds ∧ s = c :: (sign ++ ds)

/-- A number: digits in front of a dot or behind it, or both, maybe with a sign and a power of
ten. -/
inductive Number : List Char → Prop
  | whole {sign ds power : List Char} (hsign : Sign sign) (hds : Digits ds) (hpower : Power power) :
      Number (sign ++ (ds ++ power))
  | dotted {sign ds fraction power : List Char} (hsign : Sign sign) (hds : Digits ds)
      (hfraction : fraction = [] ∨ Digits fraction) (hpower : Power power) :
      Number (sign ++ (ds ++ '.' :: (fraction ++ power)))
  | fraction {sign ds power : List Char} (hsign : Sign sign) (hds : Digits ds)
      (hpower : Power power) : Number (sign ++ '.' :: (ds ++ power))

theorem ne_of_isSpace {b c : Char} (hb : isSpace b) (hc : isSpace c = false) : b ≠ c := by
  rintro rfl
  rw [hb] at hc
  cases hc

theorem isDigit_of_isSpace {b : Char} (hb : isSpace b) : b.isDigit = false := by
  by_contra h
  rw [isSpace_of_isDigit (by simpa using h)] at hb
  cases hb

end Text

namespace Lexer

open Text (isNamePart isNameStart isName Ends Digits Sign Power Number ne_of_isSpace)

variable {α β : Type} {s r : List Char} {c : Char} {V : TokenSet} {mode : Mode}

/-! ## Where a text ends and where a blank comes -/

/-- The lexer does not tell a blank behind a text from the end of the text. -/
structure Blunt (p : Lexer α) : Prop where
  same : ∀ s r, Ends r → p (s ++ r) = p s
  used_le : ∀ s, (p s).used ≤ s.length

namespace Blunt

theorem const (a : α) (n : Nat) : Blunt fun _ => ⟨a, 0, n⟩ :=
  ⟨fun _ _ _ => rfl, fun _ => Nat.zero_le _⟩

theorem andThen {p : Lexer α} {f : α → Lexer β} (hp : Blunt p) (hf : ∀ a, Blunt (f a)) :
    Blunt (bind p f) where
  same s r hr := by
    rw [bind, bind, hp.same s r hr, List.drop_append_of_le_length (hp.used_le s),
      (hf _).same _ _ hr]
  used_le s := by
    have hrest := (hf (p s).value).used_le (s.drop (p s).used)
    have hused := hp.used_le s
    rw [List.length_drop] at hrest
    rw [bind, Reading.seeing_used, Reading.after_used]
    omega

theorem ite {P : Prop} [Decidable P] {p q : Lexer α} (hp : Blunt p) (hq : Blunt q) :
    Blunt (if P then p else q) := by
  split
  · exact hp
  · exact hq

theorem attemptPure (a : α) : Blunt (α := Except LexError α) (pure a : Attempt α) :=
  const _ _

theorem attemptThrow (e : LexError) : Blunt (α := Except LexError α) (throw e : Attempt α) :=
  const _ _

theorem attemptLift {p : Lexer α} (h : Blunt p) :
    Blunt (α := Except LexError α) (liftM p : Attempt α) :=
  andThen h fun _ => const _ _

theorem attemptBind {p : Attempt α} {f : α → Attempt β} (hp : Blunt (α := Except LexError α) p)
    (hf : ∀ a, Blunt (α := Except LexError β) (f a)) :
    Blunt (α := Except LexError β) (p >>= f : Attempt β) := by
  refine andThen hp fun r => ?_
  cases r with
  | ok a => exact hf a
  | error e => exact const _ _

end Blunt

theorem skipIf_blunt {p : Char → Bool} (hp : ∀ b, Text.isSpace b → p b = false) :
    Blunt (skipIf p) where
  same s r hr := by
    cases s with
    | nil =>
      cases r with
      | nil => rfl
      | cons b r => simp [skipIf, hp b (hr b rfl)]
    | cons c cs => rfl
  used_le s := by
    cases s with
    | nil => exact le_rfl
    | cons c cs =>
      rw [skipIf]
      split
      · exact Nat.succ_le_succ (Nat.zero_le _)
      · exact Nat.zero_le _

theorem skipWhile_blunt {p : Char → Bool} (hp : ∀ b, Text.isSpace b → p b = false) :
    Blunt (skipWhile p) where
  same s r hr := by
    induction s with
    | nil =>
      cases r with
      | nil => rfl
      | cons b r => simp [skipWhile, hp b (hr b rfl)]
    | cons c cs ih => rw [List.cons_append, skipWhile, skipWhile, ih]
  used_le s := by
    rw [skipWhile_eq]
    exact (List.takeWhile_prefix p).length_le

theorem digitsFrom_blunt (n : Nat) : Blunt (digitsFrom n) where
  same s r hr := by
    have hend (n : Nat) : digitsFrom n r = digitsFrom n [] := by
      cases r with
      | nil => rfl
      | cons b r =>
        have hb : Text.isSpace b := hr b rfl
        have hu : ¬(b = '_' ∧ 0 < n) := fun h => ne_of_isSpace hb rfl h.1
        rw [digitsFrom.eq_def]
        simp only [Text.isDigit_of_isSpace hb, Bool.false_eq_true, ↓reduceIte, if_neg hu]
        rfl
    fun_induction digitsFrom n s with
    | case1 => exact hend _
    | case2 n c cs hc ih =>
      rw [List.cons_append, digitsFrom.eq_def]
      simp only [if_pos hc, ih]
    | case3 n c hc hu =>
      cases r with
      | nil => rw [List.append_nil, digitsFrom, if_neg hc, if_pos hu]
      | cons b r =>
        have hb : ¬b.isDigit := by simp [Text.isDigit_of_isSpace (hr b rfl)]
        rw [List.cons_append, List.nil_append, digitsFrom, if_neg hc, if_pos hu, if_neg hb]
    | case4 n c hc hu d ds hd ih =>
      rw [List.cons_append, List.cons_append, digitsFrom, if_neg hc, if_pos hu, if_pos hd, ih]
    | case5 n c hc hu d ds hd =>
      rw [List.cons_append, List.cons_append, digitsFrom, if_neg hc, if_pos hu, if_neg hd]
    | case6 n c cs hc hu =>
      rw [List.cons_append, digitsFrom.eq_def]
      simp only [if_neg hc, if_neg hu]
  used_le s := by
    fun_induction digitsFrom n s with
    | case2 _ _ _ _ ih =>
      rw [Reading.after_used, List.length_cons]
      omega
    | case4 _ _ _ _ _ _ _ ih =>
      rw [Reading.after_used, List.length_cons, List.length_cons]
      omega
    | _ => simp

theorem isSign_of_isSpace (b : Char) (hb : Text.isSpace b) : isSign b = false := by
  simp [isSign, ne_of_isSpace hb (c := '-') rfl, ne_of_isSpace hb (c := '+') rfl]

theorem isExponentMark_of_isSpace (b : Char) (hb : Text.isSpace b) : isExponentMark b = false := by
  simp [isExponentMark, ne_of_isSpace hb (c := 'e') rfl, ne_of_isSpace hb (c := 'E') rfl]

theorem beq_of_isSpace {c : Char} (hc : Text.isSpace c = false) (b : Char) (hb : Text.isSpace b) :
    (b == c) = false :=
  beq_eq_false_iff_ne.2 (ne_of_isSpace hb hc)

theorem isNamePart_of_isSpace (b : Char) (hb : Text.isSpace b) : isNamePart b = false := by
  simp [isNamePart, Text.isReserved, hb]

theorem isNotePart_of_isSpace (b : Char) (hb : Text.isSpace b) : Text.isNotePart b = false := by
  simp [Text.isNotePart, isNamePart_of_isSpace b hb, beq_of_isSpace (c := '-') rfl b hb,
    beq_of_isSpace (c := '.') rfl b hb]

theorem NumberMark.blunt {p : Char → Bool} (h : NumberMark p) (b : Char) (hb : Text.isSpace b) :
    p b = false := by
  cases h with
  | sign => exact isSign_of_isSpace b hb
  | exponent => exact isExponentMark_of_isSpace b hb
  | _ => exact beq_of_isSpace rfl b hb

theorem numeral_blunt {α : Type} {p : Attempt α}
    (h : Numeral (fun α p => Blunt (α := Except LexError α) p) p) :
    Blunt (α := Except LexError α) p := by
  induction h with
  | given h => exact h
  | pure a => exact .attemptPure a
  | invalid => exact .attemptThrow _
  | mark h => exact .attemptLift (skipIf_blunt h.blunt)
  | bind _ _ hp hf => exact .attemptBind hp hf

theorem number_blunt : Blunt (α := Except LexError Kind) number :=
  numeral_blunt (number_numeral (.given (digitsFrom_blunt 0)))

theorem jsonNumber_blunt : Blunt (α := Except LexError Unit) jsonNumber :=
  numeral_blunt (jsonNumber_numeral
    (.given (.attemptLift (skipWhile_blunt fun _ => Text.isDigit_of_isSpace))))

/-! ## JSON values -/

theorem jsonStringRest_seen (h : (jsonStringRest s).value = .ok ()) :
    (jsonStringRest s).seen ≤ s.length := by
  fun_induction jsonStringRest s with
  | case2 => simp
  | case6 _ _ _ _ _ _ ih =>
    have := ih h
    simp only [Reading.after_seen, List.length_cons]
    omega
  | case9 _ _ _ _ _ _ ih =>
    have := ih h
    simp only [Reading.after_seen, List.length_cons]
    omega
  | case11 _ _ _ _ _ _ _ _ _ ih =>
    have := ih h
    simp only [Reading.after_seen, List.length_cons]
    omega
  | _ => cases h

theorem jsonString_append (hc : s ≠ []) (h : (jsonString s).value = .ok ()) (r : List Char) :
    jsonString (s ++ r) = jsonString s ∧ (jsonString s).used ≤ s.length := by
  obtain ⟨c, cs, rfl⟩ := List.exists_cons_of_ne_nil hc
  have hseen : (jsonString (c :: cs)).seen ≤ (c :: cs).length := by
    have := jsonStringRest_seen (s := cs) h
    rw [jsonString, Reading.after_seen, List.length_cons]
    exact (Nat.add_le_add_left this 1).trans (Nat.add_comm 1 _).le
  refine ⟨jsonString_local.same _ _ ?_, (jsonString_local.used_le _).trans hseen⟩
  rw [Text.Agree, List.take_append_of_le_length hseen]

/-- A piece that belongs to a value. -/
def Piece.isGood : Piece → Bool
  | .more .. | .complete _ => true
  | _ => false

theorem ok_of_ofAttempt {p : Piece} {v : Except LexError Unit} (h : (Piece.ofAttempt p v).isGood) :
    v = .ok () := by
  cases v with
  | ok u => rfl
  | error e => cases h

variable {room : Nat} {expect : Expect} {stack : List Bracket}

theorem valuePiece_append (h : (valuePiece room stack s).value.isGood) (hr : Ends r) :
    valuePiece room stack (s ++ r) = valuePiece room stack s
      ∧ (valuePiece room stack s).used ≤ s.length := by
  cases s with
  | nil => cases h
  | cons c cs =>
    have hword := skipWhile_blunt isNamePart_of_isSpace
    rw [List.cons_append]
    rw [valuePiece] at h ⊢
    rw [valuePiece]
    simp only [] at h ⊢
    by_cases hb : c = '\x7b' ∨ c = '['
    · rw [if_pos hb] at h ⊢
      rw [if_pos hb]
      split_ifs
      · exact ⟨rfl, Nat.zero_le _⟩
      · exact ⟨rfl, Nat.succ_le_succ (Nat.zero_le _)⟩
      · exact ⟨rfl, Nat.succ_le_succ (Nat.zero_le _)⟩
    rw [if_neg hb] at h ⊢
    rw [if_neg hb]
    by_cases hq : c = '"'
    · rw [if_pos hq] at h ⊢
      rw [if_pos hq]
      obtain ⟨hsame, hused⟩ := jsonString_append (List.cons_ne_nil c cs) (ok_of_ofAttempt h) r
      exact ⟨congrArg _ hsame, hused⟩
    rw [if_neg hq] at h ⊢
    rw [if_neg hq]
    by_cases hd : c = '-' ∨ c.isDigit
    · rw [if_pos hd, if_pos hd]
      exact ⟨congrArg _ (jsonNumber_blunt.same (c :: cs) r hr), jsonNumber_blunt.used_le _⟩
    rw [if_neg hd] at h ⊢
    rw [if_neg hd]
    by_cases ha : Text.isAlphabetic c
    · have hword := skipWhile_blunt isNamePart_of_isSpace
      have hused := hword.used_le (c :: cs)
      rw [if_pos ha, if_pos ha, ← List.cons_append, hword.same _ r hr,
        List.take_append_of_le_length hused]
      refine ⟨rfl, ?_⟩
      split <;> exact hused
    · rw [if_neg ha] at h
      cases h

theorem piece_append (h : (piece room expect stack s).value.isGood) (hr : Ends r) :
    piece room expect stack (s ++ r) = piece room expect stack s
      ∧ (piece room expect stack s).used ≤ s.length := by
  cases s with
  | nil => cases h
  | cons c cs =>
    have hone : 1 ≤ (c :: cs).length := Nat.succ_le_succ (Nat.zero_le _)
    have hvalue (h : (valuePiece room stack (c :: cs)).value.isGood) :=
      valuePiece_append h hr
    rw [List.cons_append] at hvalue ⊢
    cases expect with
    | value => exact hvalue h
    | valueOrClose =>
      rw [piece] at h ⊢
      rw [piece]
      split_ifs at h ⊢ with hc
      · exact ⟨rfl, hone⟩
      · exact hvalue h
    | keyOrClose =>
      rw [piece] at h ⊢
      rw [piece]
      split_ifs at h ⊢ with hq hc
      · obtain ⟨hsame, hused⟩ := jsonString_append (List.cons_ne_nil c cs) (ok_of_ofAttempt h) r
        exact ⟨congrArg _ hsame, hused⟩
      · exact ⟨rfl, hone⟩
      · cases h
    | colon =>
      rw [piece] at h ⊢
      rw [piece]
      split_ifs at h ⊢ with hc
      · exact ⟨rfl, hone⟩
      · cases h
    | commaOrClose =>
      rw [piece] at h ⊢
      rw [piece]
      by_cases hc : c = ','
      · rw [if_pos hc]
        exact ⟨rfl, hone⟩
      rw [if_neg hc] at h ⊢
      split_ifs at h ⊢ with hd
      · exact ⟨rfl, hone⟩
      · cases h

theorem isGood_of_followPiece {steps : List Char} {p : Reading Piece}
    (h : (followPiece room steps p s).value = .ok ()) : p.value.isGood := by
  obtain ⟨v, u, n⟩ := p
  cases v with
  | more | complete => rfl
  | _ => cases h

/-- Blanks in front of a piece stay the same when more is put behind it. -/
theorem spacedPiece_append
    (h : (bind (skipWhile Text.isJsonSpace) (fun _ => piece room expect stack) s).value.isGood)
    (hr : Ends r) :
    bind (skipWhile Text.isJsonSpace) (fun _ => piece room expect stack) (s ++ r)
        = bind (skipWhile Text.isJsonSpace) (fun _ => piece room expect stack) s
      ∧ (bind (skipWhile Text.isJsonSpace) (fun _ => piece room expect stack) s).used
        ≤ s.length := by
  have hpiece :
      (piece room expect stack (s.drop (skipWhile Text.isJsonSpace s).used)).value.isGood := h
  obtain ⟨hsame, hused⟩ := piece_append hpiece hr
  have hlt : (skipWhile Text.isJsonSpace s).used < s.length := by
    by_contra hle
    rw [List.drop_eq_nil_of_le (Nat.le_of_not_lt hle)] at hpiece
    cases hpiece
  have hblank : skipWhile Text.isJsonSpace (s ++ r) = skipWhile Text.isJsonSpace s := by
    refine (skipWhile_local _).same _ _ ?_
    rw [skipWhile_eq] at hlt ⊢
    rw [Text.Agree, List.take_append_of_le_length hlt]
  rw [List.length_drop] at hused
  rw [bind, bind, hblank, List.drop_append_of_le_length hlt.le, hsame]
  refine ⟨rfl, ?_⟩
  rw [Reading.seeing_used, Reading.after_used]
  omega

theorem pieces_append (hr : Ends r) : ∀ (steps : List Char) (expect : Expect)
    (stack : List Bracket) (s : List Char), (pieces room steps expect stack s).value = .ok () →
    pieces room steps expect stack (s ++ r) = pieces room steps expect stack s
      ∧ (pieces room steps expect stack s).used ≤ s.length
  | [], _, _, _, h => by cases h
  | c :: steps, expect, stack, s, h => by
    rw [pieces_cons] at h ⊢
    rw [pieces_cons]
    obtain ⟨hsame, hused⟩ := spacedPiece_append (isGood_of_followPiece h) hr
    rw [hsame]
    generalize bind (skipWhile Text.isJsonSpace) (fun _ => piece room expect stack) s = p at *
    obtain ⟨v, u, n⟩ := p
    have hrest (expect : Expect) (stack : List Bracket)
        (h : (pieces room steps expect stack (s.drop u)).value = .ok ()) :
        ((pieces room steps expect stack ((s ++ r).drop u)).after u).seeing n
            = ((pieces room steps expect stack (s.drop u)).after u).seeing n
          ∧ u + (pieces room steps expect stack (s.drop u)).used ≤ s.length := by
      obtain ⟨hsame, hle⟩ := pieces_append hr steps expect stack (s.drop u) h
      rw [List.drop_append_of_le_length hused, hsame]
      rw [List.length_drop] at hle
      have hu : u ≤ s.length := hused
      exact ⟨rfl, by omega⟩
    cases v with
    | more expect stack => exact hrest expect stack h
    | complete stack =>
      cases stack with
      | nil => exact ⟨rfl, hused⟩
      | cons b stack => exact hrest .commaOrClose (b :: stack) h
    | _ => cases h

/-- A JSON value in order starts with a piece in order. -/
theorem isGood_of_jsonValue (h : (jsonValue room s).value = some (.ok .jsonSpan)) :
    (piece room .value [] s).value.isGood := by
  rw [jsonValue_eq] at h
  generalize piece room .value [] s = p at h
  obtain ⟨v, u, n⟩ := p
  cases v with
  | more | complete => rfl
  | _ => cases h

theorem ok_of_map {result : Except LexError Unit} {k : Kind}
    (h : result.map (fun _ => Kind.jsonSpan) = .ok k) : result = .ok () := by
  cases result with
  | ok => rfl
  | error e => cases h

/-- A JSON value is read the same in front of a blank. -/
theorem jsonValue_append (h : (jsonValue room s).value = some (.ok .jsonSpan)) (hr : Ends r) :
    jsonValue room (s ++ r) = jsonValue room s := by
  obtain ⟨hsame, hused⟩ := piece_append (isGood_of_jsonValue h) hr
  rw [jsonValue_eq] at h ⊢
  rw [jsonValue_eq]
  rw [hsame]
  generalize piece room .value [] s = p at *
  obtain ⟨v, u, n⟩ := p
  have hrest (expect : Expect) (stack : List Bracket)
      (h : (pieces room (' ' :: s) expect stack (s.drop u)).value.map (fun _ => Kind.jsonSpan)
        = .ok .jsonSpan) :
      pieces room (' ' :: (s ++ r)) expect stack ((s ++ r).drop u)
        = pieces room (' ' :: s) expect stack (s.drop u) := by
    have hsteps := pieces_congr room (' ' :: s) (' ' :: (s ++ r)) expect stack (s.drop u)
      (by simp only [List.length_drop, List.length_cons]; omega)
      (by simp only [List.length_drop, List.length_cons, List.length_append]; omega)
    rw [hsteps] at h ⊢
    rw [List.drop_append_of_le_length hused]
    exact (pieces_append hr _ expect stack _ (ok_of_map h)).1
  let span (q : Reading (Except LexError Unit)) : Reading (Option (Except LexError Kind)) :=
    ((q.after u).seeing n).map fun result => some (result.map fun _ => .jsonSpan)
  cases v with
  | more expect stack => exact congrArg span (hrest expect stack (Option.some.inj h))
  | complete stack =>
    cases stack with
    | nil => rfl
    | cons b stack =>
      exact congrArg span (hrest .commaOrClose (b :: stack) (Option.some.inj h))
  | _ => cases h

/-! ## Numbers -/

/-- The lexer finds `a` at the front of a text and leaves the rest `r` of it. -/
structure Leaves (p : Attempt α) (s : List Char) (a : α) (r : List Char) : Prop where
  value : (p s).value = .ok a
  rest : s.drop (p s).used = r
  used : (p s).used + r.length = s.length

namespace Leaves

variable {t : List Char} {a : α} {b : β}

theorem bind {p : Attempt α} {f : α → Attempt β} (hp : Leaves p s a t) (hf : Leaves (f a) t b r) :
    Leaves (p >>= f) s b r := by
  have hsplit : (p >>= f : Attempt β) s = ((f a t).after (p s).used).seeing (p s).seen := by
    show Lexer.bind p (ExceptT.bindCont f) s = _
    rw [Lexer.bind, hp.value, hp.rest]
    rfl
  have h₁ := hp.used
  have h₂ := hf.used
  refine ⟨?_, ?_, ?_⟩
  · rw [hsplit]
    exact hf.value
  · rw [hsplit, Reading.seeing_used, Reading.after_used, ← List.drop_drop, hp.rest, hf.rest]
  · rw [hsplit, Reading.seeing_used, Reading.after_used]
    omega

theorem pure (a : α) (s : List Char) : Leaves (pure a) s a s :=
  ⟨rfl, rfl, Nat.zero_add _⟩

theorem skipIf_true {p : Char → Bool} (hc : p c) (s : List Char) :
    Leaves (liftM (skipIf p)) (c :: s) true s := by
  have h : skipIf p (c :: s) = ⟨true, 1, 1⟩ := by rw [skipIf, if_pos hc]
  have hr : (liftM (skipIf p) : Attempt Bool) (c :: s) = ⟨.ok true, 1, 1⟩ := by
    show Lexer.bind (skipIf p) _ (c :: s) = _
    rw [Lexer.bind, h]
    rfl
  exact ⟨by rw [hr], by rw [hr]; rfl, by rw [hr]; exact Nat.add_comm 1 _⟩

theorem skipIf_false {p : Char → Bool} (hs : ∀ c ∈ s.head?, p c = false) :
    Leaves (liftM (skipIf p)) s false s := by
  have h : skipIf p s = ⟨false, 0, 1⟩ := by
    cases s with
    | nil => rfl
    | cons c s => simp [skipIf, hs c rfl]
  have hr : (liftM (skipIf p) : Attempt Bool) s = ⟨.ok false, 0, 1⟩ := by
    show Lexer.bind (skipIf p) _ s = _
    rw [Lexer.bind, h]
    rfl
  exact ⟨by rw [hr], by rw [hr]; rfl, by rw [hr]; exact Nat.zero_add _⟩

end Leaves

/-- Digits do not go on into this text. -/
def Stops (s : List Char) : Prop :=
  ∀ c ∈ s.head?, c.isDigit = false ∧ c ≠ '_'

theorem digitsFrom_stops (hr : Stops r) (n : Nat) : digitsFrom n r = ⟨.ok n, 0, 1⟩ := by
  cases r with
  | nil => rfl
  | cons c r =>
    obtain ⟨hd, hu⟩ := hr c rfl
    have hu : ¬(c = '_' ∧ 0 < n) := fun h => hu h.1
    rw [digitsFrom.eq_def]
    simp only [hd, Bool.false_eq_true, ↓reduceIte, if_neg hu]

theorem digitsFrom_digits {ds : List Char} (hds : Digits ds) (hr : Stops r) (n : Nat) :
    ∃ k, 0 < k ∧ (digitsFrom n (ds ++ r)).value = .ok k
      ∧ (digitsFrom n (ds ++ r)).used = ds.length := by
  induction hds generalizing n with
  | @one d hd =>
    have hread : digitsFrom n (d :: r) = (digitsFrom (n + 1) r).after 1 := by
      rw [digitsFrom.eq_def]
      simp only [hd, ↓reduceIte]
    rw [List.cons_append, List.nil_append, hread, digitsFrom_stops hr]
    exact ⟨n + 1, Nat.succ_pos n, rfl, rfl⟩
  | @cons d ds hd _ ih =>
    have hread : digitsFrom n (d :: (ds ++ r)) = (digitsFrom (n + 1) (ds ++ r)).after 1 := by
      rw [digitsFrom.eq_def]
      simp only [hd, ↓reduceIte]
    obtain ⟨k, hk, hvalue, hused⟩ := ih (n + 1)
    rw [List.cons_append, hread, Reading.after_used, hused]
    exact ⟨k, hk, hvalue, Nat.add_comm 1 _⟩
  | @underscore d ds hd hrest ih =>
    obtain ⟨e, es, rfl, he⟩ : ∃ e es, ds = e :: es ∧ e.isDigit := by
      cases hrest with
      | one h | cons h | underscore h => exact ⟨_, _, rfl, h⟩
    have hread : digitsFrom n (d :: '_' :: (e :: es ++ r))
        = (digitsFrom (n + 1) (e :: es ++ r)).after 2 := by
      have hone : digitsFrom (n + 1) (e :: (es ++ r))
          = (digitsFrom (n + 1 + 1) (es ++ r)).after 1 := by
        rw [digitsFrom.eq_def]
        simp only [he, ↓reduceIte]
      have hu : '_'.isDigit = false := rfl
      rw [digitsFrom.eq_def]
      simp only [hd, ↓reduceIte]
      rw [List.cons_append, digitsFrom, if_neg (by simp [hu]), if_pos ⟨rfl, Nat.succ_pos n⟩,
        if_pos he, hone]
      simp only [Reading.after, Reading.mk.injEq, true_and]
      omega
    obtain ⟨k, hk, hvalue, hused⟩ := ih (n + 1)
    rw [List.cons_append, List.cons_append, hread, Reading.after_used, hused]
    exact ⟨k, hk, hvalue, Nat.add_comm 2 _⟩

/-- Behind a sign, if there is one. -/
theorem sign_leaves {sign : List Char} (h : Sign sign) (hs : ∀ c ∈ s.head?, isSign c = false) :
    ∃ b, Leaves (liftM (skipIf isSign)) (sign ++ s) b s := by
  rcases h with rfl | ⟨c, hc, rfl⟩
  · exact ⟨false, .skipIf_false hs⟩
  · exact ⟨true, .skipIf_true hc s⟩

theorem digits_leaves {ds : List Char} (hds : Digits ds) (hr : Stops r) :
    ∃ k, 0 < k ∧ Leaves digits (ds ++ r) k r := by
  obtain ⟨k, hk, hvalue, hused⟩ := digitsFrom_digits hds hr 0
  refine ⟨k, hk, hvalue, ?_, ?_⟩
  · rw [show (digits (ds ++ r)).used = ds.length from hused, List.drop_left]
  · rw [show (digits (ds ++ r)).used = ds.length from hused, List.length_append]

theorem digits_none (hr : Stops r) : Leaves digits r 0 r := by
  have h : digits r = ⟨.ok 0, 0, 1⟩ := digitsFrom_stops hr 0
  exact ⟨by rw [h], by rw [h]; rfl, by rw [h]; exact Nat.zero_add _⟩

theorem isSign_of_isDigit {d : Char} (h : d.isDigit) : isSign d = false := by
  rw [isSign, Bool.or_eq_false_iff, beq_eq_false_iff_ne, beq_eq_false_iff_ne]
  constructor <;> (rintro rfl; cases h)

theorem digits_head {ds : List Char} (h : Digits ds) (s : List Char) :
    ∃ d t, ds ++ s = d :: t ∧ d.isDigit := by
  cases h with
  | one h | cons h | underscore h => exact ⟨_, _, rfl, h⟩

theorem exponentMark_stops {c : Char} (h : isExponentMark c) : c.isDigit = false ∧ c ≠ '_' := by
  rw [isExponentMark, Bool.or_eq_true, beq_iff_eq, beq_iff_eq] at h
  rcases h with rfl | rfl <;> exact ⟨rfl, by decide⟩

theorem power_stops {power : List Char} (h : Power power) : Stops power := by
  rcases h with rfl | ⟨c, sign, ds, hc, -, -, rfl⟩
  · exact fun c h => by cases h
  · rintro _ ⟨⟩
    exact exponentMark_stops hc

theorem power_undotted {power : List Char} (h : Power power) :
    ∀ c ∈ power.head?, (c == '.') = false := by
  rcases h with rfl | ⟨c, sign, ds, hc, -, -, rfl⟩
  · exact fun c h => by cases h
  · rintro _ ⟨⟩
    rw [isExponentMark, Bool.or_eq_true, beq_iff_eq, beq_iff_eq] at hc
    rcases hc with rfl | rfl <;> rfl

theorem power_leaves {power : List Char} (h : Power power) :
    Leaves (exponent digits) power () [] := by
  rcases h with rfl | ⟨c, sign, ds, hc, hsign, hds, rfl⟩
  · exact .bind (.skipIf_false fun c h => by cases h) (.pure _ _)
  · obtain ⟨k, hk, hdigits⟩ := digits_leaves hds (r := []) fun c h => by cases h
    rw [List.append_nil] at hdigits
    obtain ⟨d, t, ht, hd⟩ := digits_head hds []
    rw [List.append_nil] at ht
    obtain ⟨b, hb⟩ := sign_leaves hsign (s := ds)
      (by rw [ht]; rintro _ ⟨⟩; exact isSign_of_isDigit hd)
    refine .bind (.skipIf_true hc _) (.bind hb (.bind hdigits ?_))
    rw [if_neg (Nat.pos_iff_ne_zero.1 hk)]
    exact .pure _ _

/-- A number is read as one, up to its end. -/
theorem number_leaves (h : Number s) : Leaves number s .number [] := by
  rw [number_eq]
  have hend {whole fraction : Nat} {power : List Char} (hpos : whole + fraction ≠ 0)
      (hpower : Power power) : Leaves (numberEnd whole fraction) power .number [] := by
    rw [numberEnd, if_neg hpos]
    exact .bind (power_leaves hpower) (.pure _ _)
  have hdot (t : List Char) : Leaves (liftM (skipIf (· == '.'))) ('.' :: t) true t :=
    .skipIf_true (p := (· == '.')) rfl t
  cases h with
  | @whole sign ds power hsign hds hpower =>
    obtain ⟨d, t, ht, hd⟩ := digits_head hds power
    obtain ⟨b, hb⟩ := sign_leaves hsign (s := ds ++ power)
      (by rw [ht]; rintro _ ⟨⟩; exact isSign_of_isDigit hd)
    obtain ⟨k, hk, hdigits⟩ := digits_leaves hds (power_stops hpower)
    exact .bind hb (.bind hdigits (.bind (.skipIf_false (power_undotted hpower))
      (.bind (.pure 0 _) (hend (Nat.add_pos_left hk 0).ne' hpower))))
  | @dotted sign ds fraction power hsign hds hfraction hpower =>
    obtain ⟨d, t, ht, hd⟩ := digits_head hds ('.' :: (fraction ++ power))
    obtain ⟨b, hb⟩ := sign_leaves hsign (s := ds ++ '.' :: (fraction ++ power))
      (by rw [ht]; rintro _ ⟨⟩; exact isSign_of_isDigit hd)
    obtain ⟨k, hk, hdigits⟩ := digits_leaves hds (r := '.' :: (fraction ++ power))
      (by rintro _ ⟨⟩; exact ⟨rfl, by decide⟩)
    have hmore : ∃ m, Leaves digits (fraction ++ power) m power := by
      rcases hfraction with rfl | hfraction
      · exact ⟨0, digits_none (power_stops hpower)⟩
      · obtain ⟨m, -, hm⟩ := digits_leaves hfraction (power_stops hpower)
        exact ⟨m, hm⟩
    obtain ⟨m, hm⟩ := hmore
    exact .bind hb (.bind hdigits (.bind (hdot _)
      (.bind hm (hend (Nat.add_pos_left hk m).ne' hpower))))
  | @fraction sign ds power hsign hds hpower =>
    obtain ⟨b, hb⟩ := sign_leaves hsign (s := '.' :: (ds ++ power)) (by rintro _ ⟨⟩; rfl)
    obtain ⟨k, hk, hdigits⟩ := digits_leaves hds (power_stops hpower)
    have hnone : Leaves digits ('.' :: (ds ++ power)) 0 ('.' :: (ds ++ power)) :=
      digits_none (by rintro _ ⟨⟩; exact ⟨rfl, by decide⟩)
    exact .bind hb (.bind hnone (.bind (hdot _)
      (.bind hdigits (hend (Nat.add_pos_right 0 hk).ne' hpower))))

/-! ## Single tokens -/

theorem nameRest_whole {w : List Char} (hw : w.all isNamePart) (hr : Ends r) :
    nameRest (w ++ r) = ⟨false, w.length, w.length + 1⟩ := by
  induction w with
  | nil =>
    cases r with
    | nil => rfl
    | cons b r =>
      have hb := hr b rfl
      rw [List.nil_append, nameRest.eq_def]
      simp [isNamePart_of_isSpace b hb, ne_of_isSpace hb (c := '.') rfl]
  | cons c cs ih =>
    rw [List.all_cons, Bool.and_eq_true] at hw
    rw [List.cons_append, nameRest.eq_def]
    simp only [hw.1, ↓reduceIte, ih hw.2, Reading.after, List.length_cons, Reading.mk.injEq,
      true_and]
    omega

theorem isNamePart_of_isNameStart (h : isNameStart c) : isNamePart c := by
  simp only [isNameStart, Bool.and_eq_true] at h
  exact h.2

theorem word_whole {w : List Char} (hw : w.all isNamePart) (hr : Ends r) (V : TokenSet) :
    (word V (w ++ r)).value = wordKind V w ∧ (word V (w ++ r)).used = w.length := by
  rw [word, nameRest_whole hw hr]
  refine ⟨?_, rfl⟩
  simp [Reading.map_value]

theorem isSign_cases (h : isSign c) : c = '-' ∨ c = '+' := by
  simpa [isSign] using h

/-- A number starts with a digit, or with a sign or a dot that is seen to start a number. -/
theorem number_start (h : Number s) (r : List Char) : ∃ c cs, s = c :: cs
    ∧ (c.isDigit ∨ (isSign c || c == '.') ∧ (startsNumber (c :: (cs ++ r))).value) := by
  have hunsigned {t : List Char} (hd : ∃ d u, t = d :: u ∧ d.isDigit) {sign : List Char}
      (hsign : Sign sign) : ∃ c cs, sign ++ t = c :: cs
        ∧ (c.isDigit ∨ (isSign c || c == '.') ∧ (startsNumber (c :: (cs ++ r))).value) := by
    obtain ⟨d, u, rfl, hd⟩ := hd
    rcases hsign with rfl | ⟨c, hc, rfl⟩
    · exact ⟨d, u, rfl, .inl hd⟩
    · have hdot : d ≠ '.' := by
        rintro rfl
        cases hd
      refine ⟨c, d :: u, rfl, .inr ⟨by simp [hc], ?_⟩⟩
      rcases isSign_cases hc with rfl | rfl <;> simp [startsNumber, hd, isSign]
  cases h with
  | @whole sign ds power hsign hds hpower => exact hunsigned (digits_head hds _) hsign
  | @dotted sign ds fraction power hsign hds hfraction hpower =>
    exact hunsigned (digits_head hds _) hsign
  | @fraction sign ds power hsign hds hpower =>
    obtain ⟨d, u, hu, hd⟩ := digits_head hds power
    rw [hu]
    rcases hsign with rfl | ⟨c, hc, rfl⟩
    · exact ⟨'.', d :: u, rfl, .inr ⟨rfl, by simp [startsNumber, hd]⟩⟩
    · refine ⟨c, '.' :: d :: u, rfl, .inr ⟨by simp [hc], ?_⟩⟩
      rcases isSign_cases hc with rfl | rfl <;> simp [startsNumber, hd, isSign]

theorem numberStart_cases {P : Prop} (h : c.isDigit ∨ (isSign c || c == '.') ∧ P) :
    c.isDigit ∨ c = '-' ∨ c = '+' ∨ c = '.' := by
  rcases h with hc | ⟨hc, -⟩
  · exact .inl hc
  · exact .inr (by simpa [isSign, or_assoc] using hc)

/-- A character that may start a number and nothing else. -/
theorem plain_number (hc : c.isDigit ∨ (isSign c || c == '.') ∧ (startsNumber s).value)
    (V : TokenSet) (mode : Mode) : (plain V mode c s).value = (number s).value
      ∧ (plain V mode c s).used = (number s).used := by
  have hstart := numberStart_cases hc
  have hne {d : Char} (hd : d.isDigit = false) (hd' : d ≠ '-' ∧ d ≠ '+' ∧ d ≠ '.') : c ≠ d := by
    rintro rfl
    simp [hd, hd'] at hstart
  have hpunct : Punct.ofChar? c = none := by
    cases h : Punct.ofChar? c with
    | none => rfl
    | some p =>
      refine absurd (char_of_ofChar? h) (hne ?_ ?_)
      · cases p <;> rfl
      · cases p <;> decide
  rw [plain, hpunct]
  simp only [hne (d := '"') rfl (by decide), hne (d := '\'') rfl (by decide),
    hne (d := '\x60') rfl (by decide), hne (d := '@') rfl (by decide), false_and, ↓reduceIte]
  by_cases hd : c.isDigit
  · rw [if_pos hd]
    exact ⟨rfl, rfl⟩
  · obtain ⟨hsign, hvalue⟩ := hc.resolve_left hd
    rw [if_neg hd, if_pos hsign, if_pos hvalue]
    exact ⟨rfl, rfl⟩

theorem number_whole (h : Number s) (hr : Ends r) :
    (number (s ++ r)).value = .ok .number ∧ (number (s ++ r)).used = s.length := by
  have hread := number_leaves h
  rw [number_blunt.same s r hr]
  exact ⟨hread.value, hread.used⟩

end Lexer

/-- The texts that may be written for a token of a kind. No more than `room` brackets are open at
once in a JSON value. -/
inductive Spells (room : Nat) : Kind → List Char → Prop
  | keyword (w : Keyword) : Spells room (.keyword w) w.spelling.toList
  | punct (p : Punct) : Spells room (.punct p) p.spelling.toList
  | identifier {s : List Char} (h : Text.isName s)
      (hword : Keyword.ofSpelling? (String.ofList s) = none) : Spells room .identifier s
  | string {raw : List Char} (h : SchemaText.Literal raw) :
      Spells room .string ('"' :: (raw ++ ['"']))
  | number {s : List Char} (h : Text.Number s) : Spells room .number s
  | atName {c : Char} {cs : List Char} (h : Text.isNameStart c) (hs : cs.all Text.isNotePart) :
      Spells room .atName ('@' :: c :: cs)
  | jsonSpan {s : List Char} (h : (Lexer.jsonValue room s).value = some (.ok .jsonSpan))
      (hused : (Lexer.jsonValue room s).used = s.length) : Spells room .jsonSpan s

namespace Spells

variable {room : Nat} {k : Kind} {s r : List Char}

/-- A text written for a token starts neither with a blank nor like a comment. -/
structure Bare (c : Char) : Prop where
  space : Text.isSpace c = false
  slash : c ≠ '/'

theorem bare_of_nameStart {c : Char} (h : Text.isNameStart c) : Bare c := by
  refine ⟨?_, ?_⟩
  · by_contra hc
    rw [Bool.not_eq_false] at hc
    have hpart := Lexer.isNamePart_of_isSpace c hc
    rw [Lexer.isNamePart_of_isNameStart h] at hpart
    cases hpart
  · rintro rfl
    cases h

/-- The characters that keywords are written with. -/
def letters : List Char :=
  "abcdefghijklmnopqrstuvwxyz_".toList

theorem letters_nameStart : letters.all Text.isNameStart := by
  decide +kernel

theorem mem_keywords (w : Keyword) : w ∈ Keyword.all := by
  cases w <;> decide

theorem keyword_letters (w : Keyword) :
    w.spelling.toList ≠ [] ∧ w.spelling.toList.all letters.contains := by
  have hall : ∀ w ∈ Keyword.all,
      w.spelling.toList ≠ [] ∧ w.spelling.toList.all letters.contains := by
    decide +kernel
  exact hall w (mem_keywords w)

theorem keyword_isName (w : Keyword) : Text.isName w.spelling.toList := by
  obtain ⟨hne, hall⟩ := keyword_letters w
  have hstart : ∀ c ∈ w.spelling.toList, Text.isNameStart c := fun c hc =>
    List.all_eq_true.1 letters_nameStart c (List.contains_iff_mem.1 (List.all_eq_true.1 hall c hc))
  obtain ⟨c, cs, hw⟩ := List.exists_cons_of_ne_nil hne
  rw [hw] at hstart ⊢
  rw [Text.isName, Bool.and_eq_true, List.all_eq_true]
  exact ⟨hstart c List.mem_cons_self, fun d hd =>
    Lexer.isNamePart_of_isNameStart (hstart d (List.mem_cons_of_mem c hd))⟩

theorem ofSpelling?_spelling (w : Keyword) : Keyword.ofSpelling? w.spelling = some w := by
  cases w <;> rfl

/-- What a text written for a token other than a JSON value is read as, whatever is wanted: only a
keyword that is not wanted may become a name. -/
structure PlainlyRead (k : Kind) (s : List Char) (c : Char) (r : List Char) : Prop where
  bare : Bare c
  used (V : TokenSet) : (Lexer.plain V .idl c (s ++ r)).used = s.length
  value (V : TokenSet) : (Lexer.plain V .idl c (s ++ r)).value = .ok k
    ∨ (Lexer.plain V .idl c (s ++ r)).value = .ok .identifier ∧ V.contains k = false

theorem plain_word {w : List Char} {c : Char} {cs : List Char} (hw : w = c :: cs)
    (hname : Text.isName w) (hr : Text.Ends r) (V : TokenSet) :
    (Lexer.plain V .idl c (w ++ r)).value = .ok (Lexer.wordKind V w)
      ∧ (Lexer.plain V .idl c (w ++ r)).used = w.length := by
  subst hw
  rw [Text.isName, Bool.and_eq_true] at hname
  have hall : (c :: cs).all Text.isNamePart := by
    rw [List.all_cons, Bool.and_eq_true]
    exact ⟨Lexer.isNamePart_of_isNameStart hname.1, hname.2⟩
  obtain ⟨hvalue, hused⟩ := Lexer.word_whole hall hr V
  rw [Lexer.plain_nameStart hname.1]
  exact ⟨congrArg Except.ok hvalue, hused⟩

theorem PlainlyRead.keyword (w : Keyword) (hr : Text.Ends r) :
    ∃ c cs, w.spelling.toList = c :: cs ∧ PlainlyRead (.keyword w) w.spelling.toList c r := by
  have hname := keyword_isName w
  obtain ⟨c, cs, hw⟩ := List.exists_cons_of_ne_nil (keyword_letters w).1
  have hbare : Bare c := by
    rw [hw, Text.isName, Bool.and_eq_true] at hname
    exact bare_of_nameStart hname.1
  refine ⟨c, cs, hw, hbare, fun V => (plain_word hw hname hr V).2, fun V => ?_⟩
  rw [(plain_word hw hname hr V).1, Lexer.wordKind, String.ofList_toList, ofSpelling?_spelling]
  cases hV : V.contains (.keyword w) with
  | true => exact .inl (by simp [hV])
  | false => cases V.contains .identifier <;> simp

theorem PlainlyRead.identifier (hname : Text.isName s)
    (hword : Keyword.ofSpelling? (String.ofList s) = none) (hr : Text.Ends r) :
    ∃ c cs, s = c :: cs ∧ PlainlyRead .identifier s c r := by
  obtain ⟨c, cs, rfl⟩ : ∃ c cs, s = c :: cs := by
    cases s with
    | nil => cases hname
    | cons c cs => exact ⟨c, cs, rfl⟩
  have hbare : Bare c := by
    rw [Text.isName, Bool.and_eq_true] at hname
    exact bare_of_nameStart hname.1
  refine ⟨c, cs, rfl, hbare, fun V => (plain_word rfl hname hr V).2, fun V => .inl ?_⟩
  rw [(plain_word rfl hname hr V).1, Lexer.wordKind, hword]

theorem PlainlyRead.punct (p : Punct) (r : List Char) :
    PlainlyRead (.punct p) p.spelling.toList p.char r := by
  have hchar : Punct.ofChar? p.char = some p := by cases p <;> rfl
  refine ⟨⟨by cases p <;> rfl, by cases p <;> decide⟩, fun V => ?_, fun V => .inl ?_⟩
  · rw [Lexer.plain, hchar]
    cases p <;> rfl
  · rw [Lexer.plain, hchar]

theorem PlainlyRead.string {raw : List Char} (hraw : SchemaText.Literal raw) (r : List Char) :
    PlainlyRead .string ('"' :: (raw ++ ['"'])) '"' r := by
  refine ⟨⟨rfl, by decide⟩, fun V => ?_, fun V => .inl ?_⟩
  all_goals
    obtain ⟨hvalue, hused⟩ := SchemaText.stringRest_of_literal hraw r
    have hplain : Lexer.plain V .idl '"' ('"' :: (raw ++ ['"']) ++ r)
        = Lexer.string '"' ('"' :: (raw ++ ['"']) ++ r) := rfl
    rw [hplain, Lexer.string, List.cons_append, List.append_assoc, List.drop_succ_cons,
      List.drop_zero, List.singleton_append]
  · rw [Reading.after_used, hused]
    simp [Nat.add_comm]
  · exact hvalue

theorem PlainlyRead.number (h : Text.Number s) (hr : Text.Ends r) :
    ∃ c cs, s = c :: cs ∧ PlainlyRead .number s c r := by
  obtain ⟨c, cs, rfl, hc⟩ := Lexer.number_start h r
  obtain ⟨hvalue, hused⟩ := Lexer.number_whole h hr
  have hbare : Bare c := by
    rcases Lexer.numberStart_cases hc with hd | rfl | rfl | rfl
    · exact ⟨Text.isSpace_of_isDigit hd, by rintro rfl; cases hd⟩
    all_goals exact ⟨rfl, by decide⟩
  refine ⟨c, cs, rfl, hbare, fun V => ?_, fun V => .inl ?_⟩
  · exact (Lexer.plain_number hc V .idl).2.trans hused
  · exact (Lexer.plain_number hc V .idl).1.trans hvalue

theorem PlainlyRead.atName {c : Char} {cs : List Char} (hc : Text.isNameStart c)
    (hcs : cs.all Text.isNotePart) (hr : Text.Ends r) :
    PlainlyRead .atName ('@' :: c :: cs) '@' r := by
  have hp : Lexer.Blunt (Lexer.skipWhile Text.isNotePart) :=
    Lexer.skipWhile_blunt Lexer.isNotePart_of_isSpace
  have hused : (Lexer.skipWhile Text.isNotePart (c :: cs ++ r)).used = (c :: cs).length := by
    have hall : ∀ d ∈ c :: cs, Text.isNotePart d := by
      intro d hd
      rcases List.mem_cons.1 hd with rfl | hd
      · simp [Text.isNotePart, Lexer.isNamePart_of_isNameStart hc]
      · exact List.all_eq_true.1 hcs d hd
    rw [hp.same _ r hr, Lexer.skipWhile_eq, List.takeWhile_eq_self_iff.2 hall]
  have hplain (V : TokenSet) : Lexer.plain V .idl '@' ('@' :: (c :: cs) ++ r)
      = ((Lexer.skipWhile Text.isNotePart (c :: cs ++ r)).after 1).map fun _ => .ok .atName := by
    show Lexer.atName ('@' :: (c :: cs) ++ r) = _
    rw [Lexer.atName]
    simp only [List.cons_append, List.drop_succ_cons, List.drop_zero, hc, ↓reduceIte]
    rfl
  refine ⟨⟨rfl, by decide⟩, fun V => ?_, fun V => .inl ?_⟩
  · rw [hplain, Reading.map_used, Reading.after_used, hused, Nat.add_comm]
    rfl
  · rw [hplain, Reading.map_value]

theorem plain (h : Spells room k s) (hk : k ≠ .jsonSpan) (hr : Text.Ends r) :
    ∃ c cs, s = c :: cs ∧ PlainlyRead k s c r := by
  cases h with
  | keyword w => exact PlainlyRead.keyword w hr
  | identifier hname hword => exact PlainlyRead.identifier hname hword hr
  | punct p => exact ⟨p.char, [], by cases p <;> rfl, .punct p r⟩
  | string hraw => exact ⟨_, _, rfl, .string hraw r⟩
  | number h => exact PlainlyRead.number h hr
  | atName hc hcs => exact ⟨_, _, rfl, .atName hc hcs hr⟩
  | jsonSpan => exact absurd rfl hk

/-- A text written for a JSON value is read whole where one is wanted. -/
theorem span (h : Spells room .jsonSpan s) (hr : Text.Ends r) :
    ∃ c cs, s = c :: cs ∧ Bare c ∧ Lexer.startsJsonValue c
      ∧ (Lexer.jsonValue room (s ++ r)).value = some (.ok .jsonSpan)
      ∧ (Lexer.jsonValue room (s ++ r)).used = s.length := by
  cases h with
  | jsonSpan h hused =>
    obtain ⟨c, cs, rfl, hstart, -, hc⟩ := SchemaText.JsonText.start ⟨h, rfl⟩
    obtain ⟨hslash, hspace⟩ := Parse.Schema.startsJson_plain hc
    refine ⟨c, cs, rfl, ⟨hspace, hslash⟩, hstart, ?_, ?_⟩
    · rw [Lexer.jsonValue_append h hr, h]
    · rw [Lexer.jsonValue_append h hr, hused]

end Spells

end AvroTree
