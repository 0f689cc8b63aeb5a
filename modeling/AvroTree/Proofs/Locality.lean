import AvroTree.Proofs.Numerals
import AvroTree.Proofs.Places

/-!
# Lexers answer by what they have seen

A lexer that has seen `n` characters of a text, its end counting as one, gives the same answer on
every text that agrees with it on these, and it has used up no more than it has seen: `Local`.
It holds of the lexers of names, numbers and strings and is kept by putting lexers together.
-/

namespace AvroTree

namespace Text

/-- No difference between two texts among their first `n` characters, where an end counts as a
character of its own. -/
def Agree (n : Nat) (s t : List Char) : Prop :=
  s.take n = t.take n

namespace Agree

variable {n m : Nat} {s t : List Char}

theorem symm (h : Agree n s t) : Agree n t s :=
  Eq.symm h

theorem mono (h : Agree n s t) (hm : m ≤ n) : Agree m s t := by
  have := congrArg (List.take m) h
  rwa [List.take_take, List.take_take, Nat.min_eq_left hm] at this

theorem drop {u : Nat} (h : Agree (u + m) s t) : Agree m (s.drop u) (t.drop u) := by
  have := congrArg (List.drop u) h
  rwa [List.drop_take, List.drop_take, Nat.add_sub_cancel_left] at this

theorem getElem? (h : Agree n s t) {i : Nat} (hi : i < n) : t[i]? = s[i]? := by
  have := congrArg (fun l => l[i]?) h
  simpa [List.getElem?_take, hi] using this.symm

theorem take_eq (h : Agree n s t) (hm : m ≤ n) : t.take m = s.take m :=
  (h.mono hm).symm

theorem eq_nil (h : Agree (n + 1) [] t) : t = [] := by
  cases t with
  | nil => rfl
  | cons c t => simp [Agree] at h

theorem eq_cons {c : Char} (h : Agree (n + 1) (c :: s) t) : ∃ t', t = c :: t' ∧ Agree n s t' := by
  cases t with
  | nil => simp [Agree] at h
  | cons d t =>
    simp only [Agree, List.take_succ_cons, List.cons.injEq] at h
    exact ⟨t, by rw [h.1], h.2⟩

theorem head {c : Char} (h : Agree n (c :: s) t) (hn : 0 < n) : ∃ t', t = c :: t' := by
  obtain ⟨t, rfl, -⟩ := (h.mono hn : Agree (0 + 1) (c :: s) t).eq_cons
  exact ⟨t, rfl⟩

theorem takeWhile_eq {p : Char → Bool} : ∀ {s t : List Char},
    Agree ((s.takeWhile p).length + 1) s t → t.takeWhile p = s.takeWhile p
  | [], t, h => by rw [h.eq_nil]
  | c :: s, t, h => by
    by_cases hc : p c
    · rw [List.takeWhile_cons_of_pos hc] at h ⊢
      obtain ⟨t, rfl, ht⟩ := h.eq_cons
      rw [List.takeWhile_cons_of_pos hc, takeWhile_eq ht]
    · obtain ⟨t, rfl, -⟩ := h.eq_cons
      rw [List.takeWhile_cons_of_neg hc, List.takeWhile_cons_of_neg hc]

theorem le_takeWhile {p : Char → Bool} : ∀ {m : Nat} {s t : List Char}, Agree m s t →
    m ≤ (s.takeWhile p).length → m ≤ (t.takeWhile p).length
  | 0, _, _, _, _ => Nat.zero_le _
  | m + 1, [], _, _, hm => by simp at hm
  | m + 1, c :: s, t, h, hm => by
    by_cases hc : p c
    · obtain ⟨t, rfl, ht⟩ := h.eq_cons
      rw [List.takeWhile_cons_of_pos hc, List.length_cons] at hm ⊢
      exact Nat.succ_le_succ (le_takeWhile ht (Nat.le_of_succ_le_succ hm))
    · rw [List.takeWhile_cons_of_neg hc] at hm
      simp at hm

end Agree

end Text

namespace Reading

variable {α β : Type} (r : Reading α) (f : α → β) (n : Nat)

@[simp]
theorem map_value : (r.map f).value = f r.value := rfl

@[simp]
theorem map_used : (r.map f).used = r.used := rfl

@[simp]
theorem map_seen : (r.map f).seen = r.seen := rfl

@[simp]
theorem after_value : (r.after n).value = r.value := rfl

@[simp]
theorem after_used : (r.after n).used = n + r.used := rfl

@[simp]
theorem after_seen : (r.after n).seen = n + r.seen := rfl

@[simp]
theorem back_value : r.back.value = r.value := rfl

@[simp]
theorem back_used : r.back.used = 0 := rfl

@[simp]
theorem back_seen : r.back.seen = r.seen := rfl

@[simp]
theorem seeing_value : (r.seeing n).value = r.value := rfl

@[simp]
theorem seeing_used : (r.seeing n).used = r.used := rfl

@[simp]
theorem seeing_seen : (r.seeing n).seen = max n r.seen := rfl

end Reading

namespace Lexer

open Text (Agree)

variable {α β : Type}

structure Local (p : Lexer α) : Prop where
  same : ∀ s t, Agree (p s).seen s t → p t = p s
  used_le : ∀ s, (p s).used ≤ (p s).seen

/-! ## Putting lexers together -/

namespace Local

theorem const (a : α) {u n : Nat} (h : u ≤ n) : Local fun _ => ⟨a, u, n⟩ :=
  ⟨fun _ _ _ => rfl, fun _ => h⟩

/-- A reading may be changed by one who sees no less. -/
theorem post {p : Lexer α} (h : Local p) {f : Reading α → Reading β}
    (hseen : ∀ r, r.seen ≤ (f r).seen) (hused : ∀ r, r.used ≤ r.seen → (f r).used ≤ (f r).seen) :
    Local fun s => f (p s) :=
  ⟨fun s t ht => by rw [h.same s t (ht.mono (hseen _))], fun s => hused _ (h.used_le s)⟩

theorem map {p : Lexer α} (h : Local p) (f : α → β) : Local fun s => (p s).map f :=
  h.post (fun _ => le_rfl) fun _ => id

/-- An answer may also depend on the text that was used up. -/
theorem mapText {p : Lexer α} (h : Local p) (f : List Char → α → β) :
    Local fun s => (p s).map (f (s.take (p s).used)) :=
  ⟨fun s t ht => by rw [h.same s t ht, ht.take_eq (h.used_le s)], h.used_le⟩

theorem seeing {p : Lexer α} (h : Local p) (n : Nat) : Local fun s => (p s).seeing n :=
  h.post (fun _ => le_max_right _ _) fun _ hr => hr.trans (le_max_right _ _)

theorem after {p : Lexer α} (h : Local p) (n : Nat) : Local fun s => (p (s.drop n)).after n :=
  ⟨fun s t ht => by rw [h.same _ _ ht.drop], fun s => Nat.add_le_add_left (h.used_le _) n⟩

/-- One lexer behind another whose answer chooses it. -/
theorem andThen {p : Lexer α} {f : α → Lexer β} (hp : Local p) (hf : ∀ a, Local (f a)) :
    Local (bind p f) where
  same s t ht := by
    have hs : p t = p s := hp.same s t (ht.mono (le_max_left _ _))
    have hd := (ht.mono (le_max_right _ _) : Agree ((p s).used + _) s t).drop
    rw [bind, bind, hs, (hf _).same _ _ hd]
  used_le s := (Nat.add_le_add_left ((hf _).used_le _) _).trans (le_max_right _ _)

theorem ite {c : Prop} [Decidable c] {p q : Lexer α} (hp : Local p) (hq : Local q) :
    Local (if c then p else q) := by
  split
  · exact hp
  · exact hq

theorem cond {c : Prop} [Decidable c] {p q : Lexer α} (hp : Local p) (hq : Local q) :
    Local fun s => if c then p s else q s := by
  split
  · exact hp
  · exact hq

/-! The same for lexers that may find their token faulty. -/

theorem attemptPure (a : α) : Local (α := Except LexError α) (pure a : Attempt α) :=
  const _ le_rfl

theorem attemptThrow (e : LexError) : Local (α := Except LexError α) (throw e : Attempt α) :=
  const _ le_rfl

theorem attemptLift {p : Lexer α} (h : Local p) :
    Local (α := Except LexError α) (liftM p : Attempt α) :=
  andThen h fun _ => const _ le_rfl

theorem attemptBind {p : Attempt α} {f : α → Attempt β} (hp : Local (α := Except LexError α) p)
    (hf : ∀ a, Local (α := Except LexError β) (f a)) :
    Local (α := Except LexError β) (p >>= f : Attempt β) := by
  refine andThen hp fun r => ?_
  cases r with
  | ok a => exact hf a
  | error e => exact const _ le_rfl

end Local

/-! A lexer behind another uses up what that one has used up and perhaps more. -/

theorem attempt_used (p : Attempt α) (f : α → Attempt β) (s : List Char) :
    (p s).used ≤ ((p >>= f : Attempt β) s).used :=
  Nat.le_add_right _ _

theorem attempt_used_of_ok {p : Attempt α} {a : α} {s : List Char} {n : Nat}
    (h : p s = (⟨.ok a, 0, n⟩ : Reading (Except LexError α))) (f : α → Attempt β) :
    ((p >>= f : Attempt β) s).used = (f a s).used := by
  show (bind p (ExceptT.bindCont f) s).used = _
  rw [bind, h]
  exact Nat.zero_add _

/-! ## Classes of characters -/

theorem peek_local : Local peek where
  same
    | [], t, h => by rw [h.eq_nil]
    | c :: s, t, h => by
      obtain ⟨t, rfl, -⟩ := h.eq_cons
      rfl
  used_le _ := Nat.zero_le _

theorem skipIf_seen (p : Char → Bool) (s : List Char) : (skipIf p s).seen = 1 := by
  cases s with
  | nil => rfl
  | cons c s =>
    rw [skipIf]
    split <;> rfl

theorem skipIf_local (p : Char → Bool) : Local (skipIf p) where
  same
    | [], t, h => by rw [h.eq_nil]
    | c :: s, t, h => by
      rw [skipIf_seen] at h
      obtain ⟨t, rfl⟩ := h.head Nat.one_pos
      rfl
  used_le
    | [] => Nat.zero_le _
    | c :: s => by
      rw [skipIf]
      split
      · exact le_rfl
      · exact Nat.zero_le _

theorem attempt_skipIf (p : Char → Bool) (c : Char) (cs : List Char) :
    (liftM (skipIf p) : Attempt Bool) (c :: cs)
      = if p c then ⟨.ok true, 1, 1⟩ else (⟨.ok false, 0, 1⟩ : Reading (Except LexError Bool)) := by
  show (((⟨.ok (skipIf p (c :: cs)).value, 0, 0⟩ : Reading (Except LexError Bool)).after
    (skipIf p (c :: cs)).used).seeing (skipIf p (c :: cs)).seen) = _
  rw [skipIf]
  split <;> rfl

theorem skipWhile_eq (p : Char → Bool) : ∀ s : List Char, skipWhile p s =
    ⟨(s.takeWhile p).length, (s.takeWhile p).length, (s.takeWhile p).length + 1⟩
  | [] => rfl
  | c :: s => by
    rw [skipWhile, skipWhile_eq p s]
    by_cases hc : p c
    · rw [if_pos hc, List.takeWhile_cons_of_pos hc, List.length_cons]
      simp only [Reading.after, Reading.map, Reading.mk.injEq, true_and]
      omega
    · rw [if_neg hc, List.takeWhile_cons_of_neg hc]
      rfl

theorem skipWhile_local (p : Char → Bool) : Local (skipWhile p) where
  same s t h := by
    rw [skipWhile_eq] at h
    rw [skipWhile_eq, skipWhile_eq, h.takeWhile_eq]
  used_le s := by
    rw [skipWhile_eq]
    exact Nat.le_succ _

/-! ## Names -/

theorem nameRest_local : Local nameRest where
  same s := by
    fun_induction nameRest s with
    | case1 =>
      intro t h
      rw [h.eq_nil, nameRest]
    | case2 c cs hc ih =>
      intro t h
      rw [Reading.after_seen, Nat.add_comm] at h
      obtain ⟨t, rfl, ht⟩ := h.eq_cons
      rw [nameRest.eq_def (c :: t)]
      simp only [if_pos hc, ih t ht]
    | case3 hc =>
      intro t h
      obtain ⟨t, rfl, ht⟩ := h.eq_cons
      rw [ht.eq_nil, nameRest, if_neg hc, if_pos rfl]
    | case4 d ds hd hc ih =>
      intro t h
      rw [Reading.map_seen, Reading.after_seen, Nat.add_comm] at h
      obtain ⟨t, rfl, ht⟩ := h.eq_cons
      obtain ⟨t, rfl, ht'⟩ := ht.eq_cons
      rw [nameRest, if_neg hc, if_pos rfl, if_pos hd, ih t ht']
    | case5 d ds hd hc =>
      intro t h
      obtain ⟨t, rfl, ht⟩ := h.eq_cons
      obtain ⟨t, rfl, ht⟩ := ht.eq_cons
      rw [nameRest, if_neg hc, if_pos rfl, if_neg hd]
    | case6 c cs hc hdot =>
      intro t h
      obtain ⟨t, rfl, ht⟩ := h.eq_cons
      rw [nameRest.eq_def]
      simp only [if_neg hc, if_neg hdot]
  used_le s := by
    fun_induction nameRest s with
    | case2 c cs hc ih => exact Nat.add_le_add_left ih 1
    | case4 d ds hd hc ih => exact Nat.add_le_add_left ih 2
    | _ => exact Nat.zero_le _

theorem word_local (valid : TokenSet) : Local (word valid) :=
  nameRest_local.mapText fun text dotted =>
    if dotted then Token.Kind.identifier else wordKind valid text

theorem quotedName_local : Local (α := Except LexError Token.Kind) quotedName where
  same s t h := by
    have hseen : (quotedName s).seen = (skipWhile Text.isNamePart (s.drop 1)).value + 2 := by
      rw [quotedName]
      split <;> rfl
    rw [hseen] at h
    have hw : skipWhile Text.isNamePart (t.drop 1) = skipWhile Text.isNamePart (s.drop 1) := by
      refine (skipWhile_local _).same _ _ ?_
      rw [skipWhile_eq] at h ⊢
      exact (h.mono (by simp only []; omega) : Agree (1 + _) s t).drop
    rw [quotedName, quotedName, hw, h.getElem? (Nat.lt_succ_self _)]
  used_le s := by
    rw [quotedName]
    split
    · exact le_rfl
    · exact Nat.succ_le_succ (Nat.zero_le _)

theorem atName_local : Local (α := Except LexError Token.Kind) atName := by
  have h : atName = fun s => (bind peek (fun c => if c.any Text.isNameStart then
      fun s => (skipWhile (fun d => Text.isNamePart d || d == '-' || d == '.') s).map
        fun _ => .ok .atName
      else fun _ => ⟨.error .unexpectedCharacter, 0, 0⟩) (s.drop 1)).after 1 := by
    funext s
    rw [atName]
    cases s.drop 1 with
    | nil => rfl
    | cons c cs =>
      by_cases hc : Text.isNameStart c
      · simp [hc, bind, peek, skipWhile_eq, Reading.map, Reading.after, Reading.seeing]
      · simp [hc, bind, peek, Reading.after, Reading.seeing]
  rw [h]
  exact .after (.andThen peek_local fun c => .ite ((skipWhile_local _).map _) (.const _ le_rfl)) 1

/-! ## Numbers -/

theorem startsNumber_local : Local startsNumber where
  same s t h := by
    fun_cases startsNumber s with
    | case1 d tail =>
      obtain ⟨t, rfl, ht⟩ := h.eq_cons
      obtain ⟨t, rfl, -⟩ := ht.eq_cons
      rfl
    | case2 c cs hdot hsign =>
      have hs : (startsNumber (c :: '.' :: cs)).seen = 3 := by simp [startsNumber, hsign]
      rw [hs] at h
      obtain ⟨t, rfl, ht⟩ := h.eq_cons
      obtain ⟨t, rfl, ht'⟩ := ht.eq_cons
      have hd : t.head? = cs.head? := by
        rw [List.head?_eq_getElem?, List.head?_eq_getElem?, ht'.getElem? Nat.one_pos]
      simp [startsNumber, hsign, hd]
    | case3 c cs hdot hsign =>
      have hs : (startsNumber (c :: '.' :: cs)).seen = 2 := by simp [startsNumber, hsign]
      rw [hs] at h
      obtain ⟨t, rfl, ht⟩ := h.eq_cons
      obtain ⟨t, rfl, -⟩ := ht.eq_cons
      simp [startsNumber, hsign]
    | case4 c d tail hc hd =>
      have hs (l : List Char) : startsNumber (c :: d :: l) = ⟨isSign c && d.isDigit, 0, 2⟩ :=
        startsNumber.eq_3 c d l (fun h => hc h) (fun h => hd h)
      rw [hs] at h
      obtain ⟨t, rfl, ht⟩ := h.eq_cons
      obtain ⟨t, rfl, -⟩ := ht.eq_cons
      exact hs t
    | case5 s h1 h2 h3 =>
      match s, h, h3 with
      | [], h, _ =>
        rw [h.eq_nil]
        rfl
      | [c], h, _ =>
        have hs : startsNumber [c] = ⟨false, 0, 2⟩ := by simp [startsNumber]
        rw [hs] at h
        obtain ⟨t, rfl, ht⟩ := h.eq_cons
        rw [ht.eq_nil, hs]
      | c :: d :: tail, _, h3 => exact (h3 c d tail rfl).elim
  used_le s := by
    fun_cases startsNumber s <;> exact Nat.zero_le _

theorem digitsFrom_local (n : Nat) : Local (digitsFrom n) where
  same s := by
    fun_induction digitsFrom n s with
    | case1 n =>
      intro t h
      rw [h.eq_nil, digitsFrom]
    | case2 n c cs hc ih =>
      intro t h
      rw [Reading.after_seen, Nat.add_comm] at h
      obtain ⟨t, rfl, ht⟩ := h.eq_cons
      rw [digitsFrom.eq_def n (c :: t)]
      simp only [if_pos hc, ih t ht]
    | case3 n c hc hu =>
      intro t h
      obtain ⟨t, rfl, ht⟩ := h.eq_cons
      rw [ht.eq_nil, digitsFrom, if_neg hc, if_pos hu]
    | case4 n c hc hu d ds hd ih =>
      intro t h
      rw [Reading.after_seen, Nat.add_comm] at h
      obtain ⟨t, rfl, ht⟩ := h.eq_cons
      obtain ⟨t, rfl, ht'⟩ := ht.eq_cons
      rw [digitsFrom, if_neg hc, if_pos hu, if_pos hd, ih t ht']
    | case5 n c hc hu d ds hd =>
      intro t h
      obtain ⟨t, rfl, ht⟩ := h.eq_cons
      obtain ⟨t, rfl, ht⟩ := ht.eq_cons
      rw [digitsFrom, if_neg hc, if_pos hu, if_neg hd]
    | case6 n c cs hc hu =>
      intro t h
      obtain ⟨t, rfl, ht⟩ := h.eq_cons
      rw [digitsFrom.eq_def]
      simp only [if_neg hc, if_neg hu]
  used_le s := by
    fun_induction digitsFrom n s with
    | case2 n c cs hc ih => exact Nat.add_le_add_left ih 1
    | case4 n c hc hu d ds hd ih => exact Nat.add_le_add_left ih 2
    | case3 | case5 => exact Nat.le_succ 1
    | _ => exact Nat.zero_le _

theorem numeral_local {α : Type} {p : Attempt α}
    (h : Numeral (fun α p => Local (α := Except LexError α) p) p) :
    Local (α := Except LexError α) p := by
  induction h with
  | given h => exact h
  | pure a => exact .attemptPure a
  | invalid => exact .attemptThrow _
  | mark _ => exact .attemptLift (skipIf_local _)
  | bind _ _ hp hf => exact .attemptBind hp hf

theorem number_local : Local (α := Except LexError Token.Kind) number :=
  numeral_local (number_numeral (.given (digitsFrom_local 0)))

/-! ## Strings -/

theorem stringRest_local (quote : Char) :
    Local (α := Except LexError Token.Kind) (stringRest quote) where
  same s := by
    fun_induction stringRest quote s with
    | case1 =>
      intro t h
      rw [h.eq_nil, stringRest]
    | case2 cs =>
      intro t h
      obtain ⟨t, rfl, -⟩ := h.eq_cons
      rw [stringRest.eq_def]
      simp only [↓reduceIte]
    | case3 hq =>
      intro t h
      obtain ⟨t, rfl, ht⟩ := h.eq_cons
      rw [ht.eq_nil, stringRest, if_neg hq, if_pos rfl]
    | case4 ds hq =>
      intro t h
      obtain ⟨t, rfl, ht⟩ := h.eq_cons
      obtain ⟨t, rfl, -⟩ := ht.eq_cons
      rw [stringRest, if_neg hq, if_pos rfl, if_pos rfl]
    | case5 d ds hd hq ih =>
      intro t h
      rw [Reading.after_seen, Nat.add_comm] at h
      obtain ⟨t, rfl, ht⟩ := h.eq_cons
      obtain ⟨t, rfl, ht'⟩ := ht.eq_cons
      rw [stringRest, if_neg hq, if_pos rfl, if_neg hd, ih t ht']
    | case6 cs hq hb =>
      intro t h
      obtain ⟨t, rfl, -⟩ := h.eq_cons
      rw [stringRest.eq_def]
      simp only [if_neg hq, if_neg hb, ↓reduceIte]
    | case7 c cs hq hb hn ih =>
      intro t h
      rw [Reading.after_seen, Nat.add_comm] at h
      obtain ⟨t, rfl, ht⟩ := h.eq_cons
      rw [stringRest.eq_def quote (c :: t)]
      simp only [if_neg hq, if_neg hb, if_neg hn, ih t ht]
  used_le s := by
    fun_induction stringRest quote s with
    | case2 => exact le_rfl
    | case3 | case4 => exact Nat.le_succ 1
    | case5 d ds hd hq ih => exact Nat.add_le_add_left ih 2
    | case7 c cs hq hb hn ih => exact Nat.add_le_add_left ih 1
    | _ => exact Nat.zero_le _

theorem string_local (quote : Char) : Local (α := Except LexError Token.Kind) (string quote) :=
  (stringRest_local quote).after 1

end Lexer

end AvroTree
