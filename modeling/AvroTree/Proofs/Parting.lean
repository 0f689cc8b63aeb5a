import AvroTree.Proofs.SchemaRunning
import AvroTree.Proofs.Trimming
import AvroTree.Proofs.Windows

/-!
# Tokens in front of a blank

Something else may be put behind a text without changing the token in front, as long as that token
ends in the text and what is put there starts with a blank (`Parted`). Where a JSON value stands
this holds even of the plain token that would be read there if no such value were wanted, because
nothing that a name or a number could go on with comes behind the value (`plain_of_jsonValue`).
-/

namespace AvroTree

open Token (Kind)

namespace Lexer

open Reading (told told_eq told_of told_map told_after)
open Text (isNamePart isNameStart Ends)

variable {α β : Type} {c : Char} {V W : TokenSet} {mode : Mode} {u r z : List Char} {cap : Nat}
  {state : State}

/-- The lexer ends in `u` and says the same when `z` stands behind `u` in place of `r`. -/
structure Parted (p : Lexer α) (u r z : List Char) : Prop where
  told : (p (u ++ z)).told = (p (u ++ r)).told
  used_le : (p (u ++ r)).used ≤ u.length

namespace Parted

theorem of_trims {p : Lexer α} (ht : Trims p) (hb : Blunt p) (hu : (p (u ++ r)).used ≤ u.length)
    (hz : Ends z) : Parted p u r z :=
  ⟨ht.swap hb hu hz, hu⟩

theorem map {p : Lexer α} (h : Parted p u r z) (f : α → β) :
    Parted (fun s => (p s).map f) u r z :=
  ⟨told_map h.told f, h.used_le⟩

end Parted

/-! ## How far names and numbers go -/

/-- The characters that a name or a number may go on with. -/
def isMunched (c : Char) : Bool :=
  isNamePart c || c.isDigit || c == '.' || isSign c

/-- The lexer goes no further than such characters do. -/
def Munches (p : Lexer α) : Prop :=
  ∀ s, (p s).used ≤ (s.takeWhile isMunched).length

theorem length_takeWhile_drop {q : Char → Bool} : ∀ {n : Nat} {s : List Char},
    n ≤ (s.takeWhile q).length → (s.takeWhile q).length = n + ((s.drop n).takeWhile q).length
  | 0, s, _ => (Nat.zero_add _).symm
  | n + 1, [], h => by simp at h
  | n + 1, c :: s, h => by
    by_cases hc : q c
    · rw [List.takeWhile_cons_of_pos hc, List.length_cons] at h ⊢
      rw [length_takeWhile_drop (Nat.le_of_succ_le_succ h), List.drop_succ_cons]
      omega
    · rw [List.takeWhile_cons_of_neg hc] at h
      simp at h

namespace Munches

theorem const (a : α) (n : Nat) : Munches fun _ => ⟨a, 0, n⟩ :=
  fun _ => Nat.zero_le _

theorem andThen {p : Lexer α} {f : α → Lexer β} (hp : Munches p) (hf : ∀ a, Munches (f a)) :
    Munches (bind p f) := by
  intro s
  rw [length_takeWhile_drop (hp s), bind, Reading.seeing_used, Reading.after_used]
  exact Nat.add_le_add_left (hf _ _) _

theorem ite {P : Prop} [Decidable P] {p q : Lexer α} (hp : Munches p) (hq : Munches q) :
    Munches (if P then p else q) := by
  split
  · exact hp
  · exact hq

theorem attemptPure (a : α) : Munches (α := Except LexError α) (pure a : Attempt α) :=
  const _ _

theorem attemptThrow (e : LexError) : Munches (α := Except LexError α) (throw e : Attempt α) :=
  const _ _

theorem attemptLift {p : Lexer α} (h : Munches p) :
    Munches (α := Except LexError α) (liftM p : Attempt α) :=
  andThen h fun _ => const _ _

theorem attemptBind {p : Attempt α} {f : α → Attempt β} (hp : Munches (α := Except LexError α) p)
    (hf : ∀ a, Munches (α := Except LexError β) (f a)) :
    Munches (α := Except LexError β) (p >>= f : Attempt β) := by
  refine andThen hp fun r => ?_
  cases r with
  | ok a => exact hf a
  | error e => exact const _ _

end Munches

theorem skipIf_munches {q : Char → Bool} (hq : ∀ c, q c → isMunched c) : Munches (skipIf q) := by
  intro s
  cases s with
  | nil => exact le_rfl
  | cons c s =>
    rw [skipIf]
    split
    · rw [List.takeWhile_cons_of_pos (hq c ‹_›)]
      exact Nat.succ_le_succ (Nat.zero_le _)
    · exact Nat.zero_le _

theorem isMunched_of_isNamePart {c : Char} (h : isNamePart c) : isMunched c := by
  simp [isMunched, h]

theorem isMunched_of_isSign {c : Char} (h : isSign c) : isMunched c := by
  simp [isMunched, h]

theorem digitsFrom_munches (n : Nat) : Munches (digitsFrom n) := by
  intro s
  have hdigit {d : Char} (h : d.isDigit) : isMunched d := by simp [isMunched, h]
  have hscore : isMunched '_' := by decide
  fun_induction digitsFrom n s with
  | case2 n c cs hc ih =>
    rw [List.takeWhile_cons_of_pos (hdigit hc), Reading.after_used, List.length_cons]
    omega
  | case4 n c hc hu d ds hd ih =>
    rw [hu.1, List.takeWhile_cons_of_pos hscore, List.takeWhile_cons_of_pos (hdigit hd),
      Reading.after_used, List.length_cons, List.length_cons]
    omega
  | case3 n c hc hu =>
    rw [hu.1, List.takeWhile_cons_of_pos hscore]
    exact Nat.succ_le_succ (Nat.zero_le _)
  | case5 n c hc hu d ds hd =>
    rw [hu.1, List.takeWhile_cons_of_pos hscore]
    exact Nat.succ_le_succ (Nat.zero_le _)
  | _ => exact Nat.zero_le _

theorem NumberMark.munched {q : Char → Bool} (h : NumberMark q) (c : Char) (hc : q c) :
    isMunched c := by
  cases h with
  | sign => exact isMunched_of_isSign hc
  | exponent =>
    simp only [isExponentMark, Bool.or_eq_true, beq_iff_eq] at hc
    rcases hc with rfl | rfl <;> decide
  | _ =>
    rw [beq_iff_eq.1 hc]
    decide

theorem numeral_munches {α : Type} {p : Attempt α}
    (h : Numeral (fun α p => Munches (α := Except LexError α) p) p) :
    Munches (α := Except LexError α) p := by
  induction h with
  | given h => exact h
  | pure a => exact .attemptPure a
  | invalid => exact .attemptThrow _
  | mark h => exact .attemptLift (skipIf_munches h.munched)
  | bind _ _ hp hf => exact .attemptBind hp hf

theorem number_munches : Munches (α := Except LexError Kind) number :=
  numeral_munches (number_numeral (.given (digitsFrom_munches 0)))

theorem nameRest_munches : Munches nameRest := by
  intro s
  fun_induction nameRest s with
  | case2 c cs hc ih =>
    rw [List.takeWhile_cons_of_pos (isMunched_of_isNamePart hc), Reading.after_used,
      List.length_cons]
    omega
  | case4 d ds hd hc ih =>
    rw [List.takeWhile_cons_of_pos (by decide : isMunched '.'), List.takeWhile_cons_of_pos
      (isMunched_of_isNamePart (isNamePart_of_isNameStart hd)), Reading.map_used,
      Reading.after_used, List.length_cons, List.length_cons]
    omega
  | _ => exact Nat.zero_le _

/-- Where no such character comes the lexer has stopped. -/
theorem Munches.used_le {p : Lexer α} (h : Munches p) {s : List Char} {n : Nat}
    (hend : ∀ d ∈ (s.drop n).head?, isMunched d = false) : (p s).used ≤ n := by
  refine (h s).trans ?_
  by_contra hlt
  rw [length_takeWhile_drop (Nat.le_of_not_le hlt)] at hlt
  cases hd : s.drop n with
  | nil => simp [hd] at hlt
  | cons d t =>
    rw [hd] at hend hlt
    rw [List.takeWhile_cons_of_neg (by simp [hend d rfl])] at hlt
    simp at hlt

/-! ## Where a JSON value stands -/

/-- A JSON number that starts with a minus goes on with something else than a dot. -/
theorem jsonNumber_minus {cs : List Char} (h : (jsonNumber ('-' :: cs ++ r)).value = .ok ())
    (hu : (jsonNumber ('-' :: cs ++ r)).used ≤ ('-' :: cs).length) :
    ∃ d t, cs = d :: t ∧ d ≠ '.' := by
  obtain ⟨hvalue, -⟩ := told_eq (jsonNumber_trims ('-' :: cs) r hu)
  rw [h] at hvalue
  cases cs with
  | nil => cases hvalue
  | cons d t =>
    refine ⟨d, t, rfl, fun hd => ?_⟩
    subst hd
    cases hvalue

theorem jsonNumber_of_jsonValue {room : Nat} {cs : List Char}
    (h : (jsonValue room ('-' :: cs)).value = some (.ok .jsonSpan)) :
    (jsonNumber ('-' :: cs)).value = .ok ()
      ∧ (jsonNumber ('-' :: cs)).used = (jsonValue room ('-' :: cs)).used := by
  have hpiece : piece room .value [] ('-' :: cs)
      = (jsonNumber ('-' :: cs)).map (.ofAttempt (.complete [])) := by
    simp [piece, valuePiece]
  rw [jsonValue_eq, hpiece, followFirst, Reading.map_value] at h ⊢
  cases hv : (jsonNumber ('-' :: cs)).value with
  | ok u => exact ⟨rfl, rfl⟩
  | error e =>
    rw [hv] at h
    cases h

/-- The only sign that starts a JSON value is the minus. -/
theorem minus_of_sign (hc : startsJsonValue c) (h : isSign c || c == '.') : c = '-' := by
  simp only [isSign, Bool.or_eq_true, beq_iff_eq] at h
  rcases h with (rfl | rfl) | rfl
  · rfl
  · exact absurd hc (by decide)
  · exact absurd hc (by decide)

/-- The plain token that starts where a JSON value does ends in that value. -/
theorem plain_of_jsonValue {room : Nat} {cs : List Char} (hc : startsJsonValue c)
    (h : (jsonValue room (c :: cs ++ r)).value = some (.ok .jsonSpan))
    (hu : (jsonValue room (c :: cs ++ r)).used ≤ (c :: cs).length)
    (hend : ∀ d ∈ ((c :: cs ++ r).drop (jsonValue room (c :: cs ++ r)).used).head?,
      isMunched d = false) (hz : Ends z) (V : TokenSet) (mode : Mode) :
    Parted (plain V mode c) (c :: cs) r z := by
  have hnumber : Parted number (c :: cs) r z :=
    .of_trims number_trims number_blunt ((number_munches.used_le hend).trans hu) hz
  have hword : Parted (word V) (c :: cs) r z := by
    have hused : (word V (c :: cs ++ r)).used ≤ (c :: cs).length :=
      (nameRest_munches.used_le hend).trans hu
    exact ⟨word_swap hused hz, hused⟩
  have hstring (hc : c = '"') : Parted (string c) (c :: cs) r z := by
    subst hc
    obtain ⟨hvalue, hused⟩ := stringRest_of_jsonValue h
    have hvalue : (string '"' ('"' :: cs ++ r)).value = .ok .string := hvalue
    have hused : (string '"' ('"' :: cs ++ r)).used ≤ ('"' :: cs).length := hused.trans_le hu
    exact ⟨congrArg told ((string_exact '"').swap (string_local '"') hvalue hused z), hused⟩
  have hstarts (hc : c = '-') :
      (startsNumber (c :: cs ++ z)).value = (startsNumber (c :: cs ++ r)).value := by
    subst hc
    obtain ⟨hvalue, hused⟩ := jsonNumber_of_jsonValue h
    obtain ⟨d, t, rfl, hd⟩ := jsonNumber_minus hvalue (hused.trans_le hu)
    simp [startsNumber]
  have hlong : 1 ≤ (c :: cs).length := Nat.succ_le_succ (Nat.zero_le _)
  have hother {d : Char} (hd : startsJsonValue d = false) : c ≠ d := by
    rintro rfl
    exact absurd hc (by rw [hd]; decide)
  have hsigned (hs : isSign c || c == '.') : Parted signed (c :: cs) r z := by
    unfold signed
    refine ⟨?_, ?_⟩
    · rw [hstarts (minus_of_sign hc hs)]
      split_ifs
      · exact hnumber.told
      · rfl
    · split_ifs
      · exact hnumber.used_le
      · exact hlong
  exact plain_forms (P := fun p => Parted p (c :: cs) r z) V mode c (fun _ _ => ⟨rfl, hlong⟩)
    (fun h => hstring (h.resolve_right fun h => hother (by decide) h.1))
    (fun h => absurd h (hother (by decide))) (fun h => absurd h (hother (by decide)))
    (fun _ => hnumber) hsigned (fun _ => hword.map _) ⟨rfl, hlong⟩

/-! ## Comments -/

/-- Whether a character goes on with a line comment. -/
def inLine (c : Char) : Bool :=
  !Text.endsLine c

/-- Comments are wanted. -/
def Welcomes (V : TokenSet) : Prop :=
  V.contains .comment ∧ V.contains .docComment

theorem takeWhile_swap {q : Char → Bool} {v : List Char}
    (hv : ((v ++ r).takeWhile q).length ≤ v.length)
    (hz : v.all q → ∀ d ∈ z.head?, q d = false) :
    (v ++ z).takeWhile q = (v ++ r).takeWhile q := by
  rw [List.takeWhile_append] at hv ⊢
  rw [List.takeWhile_append]
  split_ifs at hv ⊢ with hfull
  · have hall : v.all q := by
      rw [List.all_eq_true]
      rw [← (List.takeWhile_prefix q).eq_of_length hfull]
      exact fun d hd => List.mem_takeWhile_imp hd
    have hr : r.takeWhile q = [] := by
      rw [List.length_append] at hv
      exact List.eq_nil_of_length_eq_zero (by omega)
    have hz : z.takeWhile q = [] := by
      cases z with
      | nil => rfl
      | cons d z => rw [List.takeWhile_cons_of_neg (by simp [hz hall d rfl])]
    rw [hz, hr]
  · rfl

theorem comment_line_told {cs : List Char} (hV : V.contains .comment) :
    (comment V false state ('/' :: '/' :: cs)).told
      = (⟨some ⟨0, .comment⟩, state⟩, 2 + (cs.takeWhile inLine).length) := by
  rw [comment_line V state rfl, if_pos hV, skipWhile_eq]
  rfl

theorem comment_block_told (hs : state.comment = none) {cs : List Char}
    (hV : Welcomes V) (hclosed : (commentBody cs).value = .closed) :
    (comment V false state ('/' :: '*' :: cs)).told
      = (⟨some ⟨0, if isDoc state ('/' :: '*' :: cs) then .docComment else .comment⟩, state⟩,
        2 + (commentBody cs).used) := by
  have hkind : (commentKind V state ('/' :: '*' :: cs)).token
      = if isDoc state ('/' :: '*' :: cs) then .docComment else .comment := by
    rw [commentKind, hV.2]
    split_ifs <;> simp_all [CommentKind.token]
  have hwanted : V.contains (commentKind V state ('/' :: '*' :: cs)).token := by
    rw [hkind]
    split_ifs
    · exact hV.2
    · exact hV.1
  have hdone : ({ state with comment := none } : State) = state := by
    rw [← hs]
  rw [comment_block V state (by simp), if_pos hwanted, Reading.told_seeing, finishComment_eq,
    closeComment, Reading.after_value]
  rw [if_pos (show (commentBody (List.drop 2 ('/' :: '*' :: cs))).value = .closed from hclosed),
    hkind,
    hdone]
  rfl

theorem two_le_of_closed {cs : List Char} (h : (commentBody cs).value = .closed) :
    2 ≤ (commentBody cs).used := by
  fun_induction commentBody cs with
  | case3 cs => exact le_rfl
  | case4 c cs hstar hclose ih => exact (ih h).trans (Nat.le_add_left _ _)
  | _ => cases h

/-- A comment that is closed in `u` ends there whatever comes behind it. -/
theorem commentBody_swap (h : (commentBody (u ++ r)).value = .closed)
    (hu : (commentBody (u ++ r)).used ≤ u.length) (z : List Char) :
    commentBody (u ++ z) = commentBody (u ++ r) := by
  have hseen := (commentBody_closed h).1.trans_le hu
  refine commentBody_local.same _ _ ?_
  rw [Text.Agree, List.take_append_of_le_length hseen, List.take_append_of_le_length hseen]

theorem comment_block_swap (hs : state.comment = none) (hV : Welcomes V)
    (h : (commentBody (u ++ r)).value = .closed) (hu : (commentBody (u ++ r)).used ≤ u.length)
    (z : List Char) : (comment V false state ('/' :: '*' :: (u ++ z))).told
      = (comment V false state ('/' :: '*' :: (u ++ r))).told := by
  have hsame := commentBody_swap h hu z
  obtain ⟨a, b, v, rfl⟩ : ∃ a b v, u = a :: b :: v := by
    have := two_le_of_closed h
    rcases u with _ | ⟨a, _ | ⟨b, v⟩⟩
    · simp only [List.length_nil] at hu
      omega
    · simp only [List.length_cons, List.length_nil] at hu
      omega
    · exact ⟨a, b, v, rfl⟩
  have hdoc : isDoc state ('/' :: '*' :: (a :: b :: v ++ z))
      ↔ isDoc state ('/' :: '*' :: (a :: b :: v ++ r)) := by
    simp [isDoc]
  rw [comment_block_told hs hV h, comment_block_told hs hV (hsame ▸ h), hsame]
  simp only [hdoc]

/-! ## The end of the text -/

theorem stringRest_used_le (quote : Char) (s : List Char) :
    (stringRest quote s).used ≤ s.length := by
  fun_induction stringRest quote s with
  | case1 => exact le_rfl
  | case5 d ds _ _ ih =>
    rw [Reading.after_used, List.length_cons, List.length_cons]
    omega
  | case7 c cs _ _ _ ih =>
    rw [Reading.after_used, List.length_cons]
    omega
  | _ => simp

/-- No plain token ends behind the text. -/
theorem plain_used_le (V : TokenSet) (mode : Mode) (c : Char) (cs : List Char) :
    (plain V mode c (c :: cs)).used ≤ (c :: cs).length := by
  have hlong : 1 ≤ (c :: cs).length := Nat.succ_le_succ (Nat.zero_le _)
  refine plain_choice (P := fun r => r.used ≤ (c :: cs).length) V mode c (c :: cs)
    (fun _ _ => hlong) (fun _ => ?_) (fun _ => ?_) (fun _ => ?_)
    (fun _ _ => number_blunt.used_le _)
    (fun _ => nameRest_blunt.used_le _) fun _ => hlong
  · have := stringRest_used_le c cs
    show 1 + (stringRest c cs).used ≤ cs.length + 1
    omega
  · rw [quotedName]
    split
    · rename_i h
      exact Nat.succ_le_of_lt (List.getElem?_eq_some_iff.1 h.2).1
    · exact hlong
  · rw [atName]
    split
    · exact hlong
    · rename_i d ds hds
      split
      · rw [Reading.map_used, Reading.after_used, skipWhile_eq]
        have := (List.takeWhile_prefix (fun d => Text.isNamePart d || d == '-' || d == '.')
          (l := d :: ds)).length_le
        have hcs : cs = d :: ds := hds
        rw [hcs, List.length_cons]
        dsimp only at this ⊢
        omega
      · exact hlong

/-- No JSON value ends behind the text. -/
theorem jsonValue_used_le {room : Nat} {s : List Char}
    (h : (jsonValue room s).value = some (.ok .jsonSpan)) :
    (jsonValue room s).used ≤ s.length := by
  have hnil : Ends [] := fun _ h => nomatch h
  obtain ⟨-, hused⟩ := piece_append (isGood_of_jsonValue h) hnil
  rw [jsonValue_eq] at h ⊢
  generalize piece room .value [] s = p at *
  obtain ⟨v, u, n⟩ := p
  have hrest {expect : Expect} {stack : List Bracket}
      (h : (pieces room (' ' :: s) expect stack (s.drop u)).value.map (fun _ => Kind.jsonSpan)
        = .ok .jsonSpan) :
      u + (pieces room (' ' :: s) expect stack (s.drop u)).used ≤ s.length := by
    have := (pieces_append hnil _ expect stack _ (ok_of_map h)).2
    rw [List.length_drop] at this
    exact Nat.add_le_of_le_sub' hused this
  cases v with
  | more expect stack => exact hrest (Option.some.inj h)
  | complete stack =>
    cases stack with
    | nil => exact hused
    | cons b stack => exact hrest (Option.some.inj h)
  | _ => cases h

theorem lexeme_used_le {cs : List Char} {k : Kind}
    (h : (lexeme cap V state c (c :: cs)).value = .ok k) :
    (lexeme cap V state c (c :: cs)).used ≤ (c :: cs).length := by
  by_cases hk : k = .jsonSpan
  · subst hk
    obtain ⟨hvalue, hused⟩ := jsonValue_of_lexeme h
    exact hused.trans_le (jsonValue_used_le hvalue)
  · rw [(plain_of_lexeme hk h).2]
    exact plain_used_le V state.mode c cs

/-! ## Tokens in order -/

/-- A plain token is in order and ends at the same place whatever is wanted. -/
theorem plain_wanted {s : List Char} {k : Kind} (h : (plain V mode c s).value = .ok k)
    (W : TokenSet) : (∃ k, (plain W mode c s).value = .ok k)
      ∧ (plain W mode c s).used = (plain V mode c s).used := by
  by_cases hc : Text.isNameStart c
  · rw [plain_nameStart hc, plain_nameStart hc]
    exact ⟨⟨_, rfl⟩, rfl⟩
  · rw [plain_other hc W V]
    exact ⟨⟨_, h⟩, rfl⟩

/-- A token in order that is no JSON value is no word where such a value stands. -/
theorem lexeme_plain (hV : V.contains .jsonSpan = false) (s : List Char) :
    lexeme cap V state c s = plain V state.mode c s := by
  rw [lexeme, hV, Bool.false_and, if_neg Bool.false_ne_true]

/-- At the front of the text `u ++ r`, which starts with no blank, stands a token in order that ends
in `u`. Behind a JSON value nothing comes that a name or a number could go on with. -/
inductive Whole (cap : Nat) (state : State) : (u r : List Char) → Prop
  | line {cs r : List Char} (h : ((cs ++ r).takeWhile inLine).length ≤ cs.length) :
      Whole cap state ('/' :: '/' :: cs) r
  | block {cs r : List Char} (hclosed : (commentBody (cs ++ r)).value = .closed)
      (h : (commentBody (cs ++ r)).used ≤ cs.length) : Whole cap state ('/' :: '*' :: cs) r
  | plain {c : Char} {cs r : List Char} {k : Kind} {V : TokenSet}
      (h : (plain V state.mode c (c :: cs ++ r)).value = .ok k)
      (hu : (Lexer.plain V state.mode c (c :: cs ++ r)).used ≤ (c :: cs).length) :
      Whole cap state (c :: cs) r
  | json {c : Char} {cs r : List Char} (hc : startsJsonValue c)
      (h : (jsonValue (cap - state.depth) (c :: cs ++ r)).value = some (.ok .jsonSpan))
      (hu : (jsonValue (cap - state.depth) (c :: cs ++ r)).used ≤ (c :: cs).length)
      (hend : ∀ d ∈ ((c :: cs ++ r).drop (jsonValue (cap - state.depth) (c :: cs ++ r)).used).head?,
        isMunched d = false) : Whole cap state (c :: cs) r

/-- The line comment that fills `u`, if there is one, ends in front of `z`. -/
def Seals (u z : List Char) : Prop :=
  ∀ cs, u = '/' :: '/' :: cs → cs.all inLine → ∀ d ∈ z.head?, inLine d = false


theorem startsJsonValue_of_lexeme {s : List Char}
    (h : (lexeme cap V state c s).value = .ok .jsonSpan) :
    V.contains .jsonSpan ∧ startsJsonValue c := by
  by_contra hn
  rw [lexeme, if_neg (by simpa using hn)] at h
  exact (plain_kind V state.mode c s).2 (by rw [h]; rfl)

/-- A JSON value that is wanted is read the same in front of a blank. -/
theorem lexeme_json_swap {cs : List Char}
    (h : (lexeme cap V state c (c :: cs ++ r)).value = .ok .jsonSpan)
    (hu : (lexeme cap V state c (c :: cs ++ r)).used ≤ (c :: cs).length) (hz : Ends z) :
    (lexeme cap V state c (c :: cs ++ z)).told = (lexeme cap V state c (c :: cs ++ r)).told := by
  obtain ⟨hwanted, hstarts⟩ := startsJsonValue_of_lexeme h
  obtain ⟨hvalue, hused⟩ := jsonValue_of_lexeme h
  have hsame := jsonValue_swap hvalue (hused ▸ hu) hz
  have hread {s : List Char}
      (hs : (jsonValue (cap - state.depth) s).value = some (.ok .jsonSpan)) :
      (lexeme cap V state c s).told = (.ok .jsonSpan, (jsonValue (cap - state.depth) s).used) := by
    rw [lexeme, if_pos (by simp [hwanted, hstarts])]
    simp only [hs]
    rfl
  obtain ⟨hvalue', hused'⟩ := told_eq hsame
  rw [hread hvalue, hread (hvalue'.trans hvalue), hused']

theorem judge_told {a b : Reading (Except LexError Kind)} (h : a.told = b.told) :
    (judge cap V state c a).told = (judge cap V state c b).told := by
  obtain ⟨hvalue, hused⟩ := told_eq h
  unfold judge
  simp only [hvalue]
  split
  · rfl
  · exact told_of rfl hused

theorem tokenHere_lexeme (hc : c ≠ '/') (cs : List Char) :
    (tokenHere cap V false state (c :: cs)).told
      = (judge cap V state c (lexeme cap V state c (c :: cs))).told := by
  rw [tokenHere_cons cap V state (startsComment_of_ne hc)]
  exact judge_told (Reading.told_seeing _ _)

theorem judge_used_le {a : Reading (Except LexError Kind)} :
    (judge cap V state c a).used ≤ a.used := by
  rcases judge_cases cap V state c a with h | h <;> rw [h]
  · exact Nat.zero_le _
  · exact le_rfl

/-- A JSON value that is found is one that its lexer reads. -/
theorem lexeme_of_found {cs : List Char} {f : Found} (hc : c ≠ '/')
    (h : (tokenHere cap V false state (c :: cs)).value.found = some f)
    (hkind : f.kind = .jsonSpan ∨ f.kind.isExtra) :
    (lexeme cap V state c (c :: cs)).value = .ok .jsonSpan
      ∧ (tokenHere cap V false state (c :: cs)).used = (lexeme cap V state c (c :: cs)).used := by
  have hextra : f.kind.isExtra = false := by
    rw [(tokenHere_found h).1, leadsComment, startsComment_of_ne hc, Bool.false_and]
  have hkind : f.kind = .jsonSpan := hkind.resolve_right (by simp [hextra])
  have htold : (tokenHere cap V false state (c :: cs)).told
      = (judge cap V state c (lexeme cap V state c (c :: cs))).told := tokenHere_lexeme hc cs
  obtain ⟨hvalue, hused⟩ := told_eq htold
  rw [hvalue] at h
  rw [hused]
  rcases judge_cases cap V state c (lexeme cap V state c (c :: cs)) with hj | hj
  · rw [hj] at h
    cases h
  · rw [hj] at h ⊢
    cases h
    refine ⟨?_, rfl⟩
    change (track cap state _).1 = _ at hkind
    rcases track_kind cap state (kindOf (lexeme cap V state c (c :: cs)).value) with ht | ht
    · rw [ht] at hkind
      cases hv : (lexeme cap V state c (c :: cs)).value with
      | ok k =>
        rw [hv] at hkind
        exact congrArg _ hkind
      | error e =>
        rw [hv] at hkind
        cases hkind
    · rw [ht] at hkind
      cases hkind

namespace Whole

/-- What stands at the front, comments apart, is read the same in front of a blank when no JSON
value is wanted. -/
theorem lexeme_told {cs : List Char} (h : Whole cap state (c :: cs) r) (hc : c ≠ '/') (hz : Ends z)
    (hV : V.contains .jsonSpan = false) : Parted (lexeme cap V state c) (c :: cs) r z := by
  have hplain : lexeme cap V state c = Lexer.plain V state.mode c := funext (lexeme_plain hV)
  rw [hplain]
  cases h with
  | line => exact absurd rfl hc
  | block => exact absurd rfl hc
  | plain h hu =>
    obtain ⟨⟨k, hk⟩, hused⟩ := plain_wanted h V
    exact ⟨plain_swap hk (hused.trans_le hu) hz, hused.trans_le hu⟩
  | json hstarts h hu hend => exact plain_of_jsonValue hstarts h hu hend hz V state.mode

theorem ne_nil (h : Whole cap state u r) : u ≠ [] := by
  cases h <;> simp

/-- Where a slash starts a token in order it starts a comment. -/
theorem comment_cases {cs : List Char} (h : Whole cap state ('/' :: cs) r) :
    (∃ v, cs = '/' :: v ∧ ((v ++ r).takeWhile inLine).length ≤ v.length)
      ∨ ∃ v, cs = '*' :: v ∧ (commentBody (v ++ r)).value = .closed
        ∧ (commentBody (v ++ r)).used ≤ v.length := by
  cases h with
  | line h => exact .inl ⟨_, rfl, h⟩
  | block hclosed h => exact .inr ⟨_, rfl, hclosed, h⟩
  | plain h => cases h
  | json hstarts => exact absurd hstarts (by decide)

/-- The value and the end of the token are the same in front of a blank, but a line comment may go
on with what comes behind it. -/
theorem comment_told {cs : List Char} (h : Whole cap state ('/' :: cs) r)
    (hs : state.comment = none)
    (hV : Welcomes V) :
    (tokenHere cap V false state ('/' :: cs ++ z)).value
        = (tokenHere cap V false state ('/' :: cs ++ r)).value
      ∧ (tokenHere cap V false state ('/' :: cs ++ r)).used ≤ ('/' :: cs).length
      ∧ (Seals ('/' :: cs) z → (tokenHere cap V false state ('/' :: cs ++ z)).used
        = (tokenHere cap V false state ('/' :: cs ++ r)).used) := by
  rcases h.comment_cases with ⟨v, rfl, hv⟩ | ⟨v, rfl, hclosed, hv⟩
  · have hstarts (x : List Char) : startsComment ('/' :: '/' :: x) := by simp [startsComment]
    have htold (x : List Char) : (comment V false state ('/' :: '/' :: x)).told
        = (⟨some ⟨0, .comment⟩, state⟩, 2 + (x.takeWhile inLine).length) :=
      comment_line_told hV.1
    simp only [List.cons_append]
    rw [tokenHere_comment cap V state (hstarts _), tokenHere_comment cap V state (hstarts _)]
    obtain ⟨hvalue, hused⟩ := Prod.mk.inj (htold (v ++ z))
    obtain ⟨hvalue', hused'⟩ := Prod.mk.inj (htold (v ++ r))
    refine ⟨hvalue.trans hvalue'.symm, ?_, fun hseals => ?_⟩
    · rw [hused', List.length_cons, List.length_cons]
      omega
    · rw [hused, hused', takeWhile_swap hv (hseals v rfl)]
  · have hstarts (x : List Char) : startsComment ('/' :: '*' :: x) := by simp [startsComment]
    simp only [List.cons_append]
    rw [tokenHere_comment cap V state (hstarts _), tokenHere_comment cap V state (hstarts _)]
    obtain ⟨hvalue, hused⟩ := told_eq (comment_block_swap hs hV hclosed hv z)
    refine ⟨hvalue, ?_, fun _ => hused⟩
    rw [(Prod.mk.inj (comment_block_told hs hV hclosed)).2, List.length_cons, List.length_cons]
    omega

/-- The token that stands at the front is the same in front of a blank. A JSON value is wanted only
where it stands. -/
theorem told (h : Whole cap state u r) (hs : state.comment = none) (hz : Ends z) (hV : Welcomes V)
    (hjson : V.contains .jsonSpan = false ∨ ∃ f,
      (tokenHere cap V false state (u ++ r)).value.found = some f
        ∧ (f.kind = .jsonSpan ∨ f.kind.isExtra)
        ∧ r.length ≤ ((u ++ r).drop (tokenHere cap V false state (u ++ r)).used).length) :
    (tokenHere cap V false state (u ++ z)).value = (tokenHere cap V false state (u ++ r)).value
      ∧ (tokenHere cap V false state (u ++ r)).used ≤ u.length
      ∧ (Seals u z → (tokenHere cap V false state (u ++ z)).used
        = (tokenHere cap V false state (u ++ r)).used) := by
  cases u with
  | nil => exact absurd rfl h.ne_nil
  | cons c cs =>
    by_cases hc : c = '/'
    · subst hc
      exact h.comment_told hs hV
    have hparted (h : Parted (lexeme cap V state c) (c :: cs) r z) :
        (tokenHere cap V false state (c :: cs ++ z)).told
          = (tokenHere cap V false state (c :: cs ++ r)).told
        ∧ (tokenHere cap V false state (c :: cs ++ r)).used ≤ (c :: cs).length := by
      obtain ⟨htold, hused⟩ := h
      rw [List.cons_append] at htold hused ⊢
      rw [List.cons_append] at htold ⊢
      rw [tokenHere_lexeme hc, tokenHere_lexeme hc, (told_eq (tokenHere_lexeme hc _)).2]
      exact ⟨judge_told htold, judge_used_le.trans hused⟩
    have hread : Parted (lexeme cap V state c) (c :: cs) r z := by
      rcases hjson with hV | ⟨f, hf, hkind, hlen⟩
      · exact h.lexeme_told hc hz hV
      · rw [List.cons_append] at hf hlen
        obtain ⟨hvalue, heq⟩ := lexeme_of_found hc hf hkind
        have hinside := lexeme_used_le hvalue
        rw [heq, List.length_drop] at hlen
        rw [← List.cons_append] at hlen hinside hvalue
        have hused : (lexeme cap V state c (c :: cs ++ r)).used ≤ (c :: cs).length := by
          rw [List.length_append] at hlen hinside
          omega
        exact ⟨lexeme_json_swap hvalue hused hz, hused⟩
    obtain ⟨htold, hused⟩ := hparted hread
    exact ⟨(told_eq htold).1, hused, fun _ => (told_eq htold).2⟩

end Whole
end Lexer

end AvroTree
