import AvroTree.Benchmark.MiddleEdit
import AvroTree.Proofs.Counterparts
import AvroTree.Proofs.Windows

/-!
# A blank in front of a newline

A blank that is put in front of a newline, or at the end of a text, changes no token
(`Stand.Beside.next`). It may come to stand between two tokens, in a block comment, or at the end of
a line comment or of a string that is not closed. Whichever it is, what is left of the two texts
behind the token differs by such a blank again, or by nothing, and so the streams of both go on in
step (`Stream.beside`). The edit a benchmark makes is one of this kind (`middleEdit_keeps_tokens`).
-/

namespace AvroTree

open Token (Kind)

namespace Text

variable {s t : List Char} {c : Char}

/-- The text ends here or goes on with a newline. -/
def Breaks (s : List Char) : Prop :=
  ∀ c ∈ s.head?, c = '\n'

theorem Breaks.ends (h : Breaks s) : Ends s := by
  intro c hc
  rw [h c hc]
  decide

/-- The second text is the first, or has one more blank, in front of a newline or at the end. -/
inductive Padded : List Char → List Char → Prop
  | nil : Padded [] []
  | blank {s : List Char} (h : Breaks s) : Padded s (' ' :: s)
  | cons (c : Char) {s t : List Char} (h : Padded s t) : Padded (c :: s) (c :: t)

namespace Padded

theorem refl : ∀ s : List Char, Padded s s
  | [] => nil
  | c :: s => cons c (refl s)

theorem append (h : Padded s t) : ∀ u : List Char, Padded (u ++ s) (u ++ t)
  | [] => h
  | c :: u => cons c (h.append u)

theorem parts (h : Padded s t) :
    s = t ∨ ∃ u r, Breaks r ∧ s = u ++ r ∧ t = u ++ ' ' :: r := by
  induction h with
  | nil => exact .inl rfl
  | @blank s h => exact .inr ⟨[], s, h, rfl, rfl⟩
  | cons c _ ih =>
    rcases ih with rfl | ⟨u, r, hr, rfl, rfl⟩
    · exact .inl rfl
    · exact .inr ⟨c :: u, r, hr, rfl, rfl⟩

/-- Nothing is put in front of a character other than a newline. -/
theorem eq_cons (h : Padded (c :: s) t) (hc : c ≠ '\n') : ∃ t', t = c :: t' ∧ Padded s t' := by
  cases h with
  | blank h => exact absurd (h c rfl) hc
  | cons _ h => exact ⟨_, rfl, h⟩

theorem eq_cons_of_ne (h : Padded s (c :: t)) (hc : c ≠ ' ') :
    ∃ s', s = c :: s' ∧ Padded s' t := by
  cases h with
  | blank => exact absurd rfl hc
  | cons _ h => exact ⟨_, rfl, h⟩

theorem head?_iff (h : Padded s t) (hspace : c ≠ ' ') (hbreak : c ≠ '\n') :
    t.head? = some c ↔ s.head? = some c := by
  constructor
  · intro ht
    obtain ⟨t, rfl⟩ := List.head?_eq_some_iff.1 ht
    obtain ⟨s, rfl, -⟩ := h.eq_cons_of_ne hspace
    rfl
  · intro hs
    obtain ⟨s, rfl⟩ := List.head?_eq_some_iff.1 hs
    obtain ⟨t, rfl, -⟩ := h.eq_cons hbreak
    rfl

end Padded

end Text

namespace Lexer

open Text (Breaks Padded isNamePart isNameStart)

variable {α β : Type} {s t : List Char} {c : Char} {state : State} {cap : Nat}

theorem ahead_padded (h : Padded s t) : Padded (ahead s) (ahead t) := by
  induction h with
  | nil => exact .nil
  | @blank s h =>
    rw [ahead_cons, if_pos (by decide)]
    exact .refl _
  | cons c h ih =>
    rw [ahead_cons, ahead_cons]
    split
    · exact ih
    · exact .cons c h

/-! ## Readings in step -/

/-- The two readings say the same and leave the same of both texts, but for the blank. -/
structure Pads (s t : List Char) (r r' : Reading α) : Prop where
  value : r'.value = r.value
  rest : Padded (s.drop r.used) (t.drop r'.used)

namespace Pads

variable {r r' : Reading α}

theorem map (h : Pads s t r r') (f : α → β) : Pads s t (r.map f) (r'.map f) :=
  ⟨congrArg f h.value, h.rest⟩

theorem seeing (h : Pads s t r r') (m n : Nat) : Pads s t (r.seeing m) (r'.seeing n) :=
  ⟨h.value, h.rest⟩

theorem behind (h : Pads s t r r') (u : List Char) :
    Pads (u ++ s) (u ++ t) (r.after u.length) (r'.after u.length) where
  value := h.value
  rest := by
    rw [Reading.after_used, Reading.after_used, List.drop_length_add_append,
      List.drop_length_add_append]
    exact h.rest

end Pads

/-- A lexer that does not tell a blank from the end of the text. -/
theorem Blunt.pads {p : Lexer α} (hp : Blunt p) (h : Padded s t) : Pads s t (p s) (p t) := by
  rcases h.parts with rfl | ⟨u, r, hr, rfl, rfl⟩
  · exact ⟨rfl, .refl _⟩
  · have hblank : Text.Ends (' ' :: r) := by
      rintro c ⟨⟩
      decide
    rw [hp.same u r hr.ends, hp.same u _ hblank]
    refine ⟨rfl, ?_⟩
    rw [List.drop_append_of_le_length (hp.used_le u), List.drop_append_of_le_length (hp.used_le u)]
    exact (Padded.blank hr).append _

/-- Characters that are skipped up to the newline or to one in front of it. -/
theorem skipWhile_pads {p : Char → Bool} (hp : p '\n' = false) (h : Padded s t) (a : α) :
    Pads s t ((skipWhile p s).map fun _ => a) ((skipWhile p t).map fun _ => a) := by
  induction h with
  | nil => exact ⟨rfl, .nil⟩
  | @blank s h =>
    have hs : (skipWhile p s).used = 0 := by
      cases s with
      | nil => rfl
      | cons c s =>
        obtain rfl : c = '\n' := h c rfl
        rw [skipWhile, if_neg (Bool.eq_false_iff.1 hp)]
    refine ⟨rfl, ?_⟩
    rw [Reading.map_used, Reading.map_used, hs, skipWhile]
    split
    · rw [Reading.map_used, Reading.after_used, hs]
      exact .refl s
    · exact .blank h
  | cons c h ih =>
    rw [skipWhile, skipWhile]
    split
    · exact ih.behind [c]
    · exact ⟨rfl, .cons c h⟩

/-! ## Names and numbers -/

theorem word_blunt (V : TokenSet) : Blunt (word V) where
  same s r hr := by
    rw [word, word, nameRest_blunt.same s r hr,
      List.take_append_of_le_length (nameRest_blunt.used_le s)]
  used_le s := nameRest_blunt.used_le s

theorem startsNumber_cons (c d : Char) (s : List Char) : startsNumber (c :: d :: s) =
    if c = '.' then ⟨d.isDigit, 0, 2⟩
    else if d = '.' then
      if isSign c then ⟨(s.head?.map Char.isDigit).getD false, 0, 3⟩ else ⟨false, 0, 2⟩
    else ⟨isSign c && d.isDigit, 0, 2⟩ := by
  split
  · rename_i hc
    rw [hc, startsNumber]
  · rename_i hc
    split
    · rename_i hd
      rw [hd, startsNumber.eq_2 c s hc]
    · exact startsNumber.eq_3 c d s hc ‹_›

theorem startsNumber_blunt : Blunt startsNumber where
  same s r hr := by
    have hempty (b : Char) (hb : Text.isSpace b) (r : List Char) :
        startsNumber (b :: r) = ⟨false, 0, 2⟩ := by
      cases r with
      | nil => simp [startsNumber]
      | cons d r =>
        simp [startsNumber_cons, Text.ne_of_isSpace hb (c := '.') rfl, isSign_of_isSpace b hb]
    rcases r with _ | ⟨b, r⟩
    · rw [List.append_nil]
    have hb : Text.isSpace b := hr b rfl
    rcases s with _ | ⟨c, _ | ⟨d, _ | ⟨e, s⟩⟩⟩
    · exact hempty b hb r
    · have hdot : b ≠ '.' := Text.ne_of_isSpace hb rfl
      have hone : startsNumber [c] = ⟨false, 0, 2⟩ := by simp [startsNumber]
      rw [hone, List.singleton_append, startsNumber_cons]
      simp [hdot, Text.isDigit_of_isSpace hb]
    · simp [startsNumber_cons, Text.isDigit_of_isSpace hb]
    · simp [startsNumber_cons]
  used_le s := by
    rw [startsNumber_used]
    exact Nat.zero_le _

theorem quotedName_pads (h : Padded s t) :
    Pads (c :: s) (c :: t) (quotedName (c :: s)) (quotedName (c :: t)) := by
  have hname := (skipWhile_blunt isNamePart_of_isSpace).pads h
  have hused (s : List Char) : (skipWhile isNamePart s).used = (skipWhile isNamePart s).value := by
    rw [skipWhile_eq]
  rw [quotedName, quotedName]
  simp only [List.drop_succ_cons, List.drop_zero, List.getElem?_cons_succ]
  obtain ⟨hvalue, hrest⟩ := hname
  rw [hused, hused, hvalue] at hrest
  rw [hvalue]
  generalize (skipWhile isNamePart s).value = n at hrest
  have hquote : t[n]? = some '\x60' ↔ s[n]? = some '\x60' := by
    rw [← List.head?_drop, ← List.head?_drop]
    exact hrest.head?_iff (by decide) (by decide)
  simp only [hquote]
  split
  · rename_i hn
    obtain ⟨s', hs⟩ := List.head?_eq_some_iff.1 ((List.head?_drop).trans hn.2)
    rw [hs] at hrest
    obtain ⟨t', ht, h'⟩ := hrest.eq_cons (by decide)
    refine ⟨rfl, ?_⟩
    rw [List.drop_succ_cons, List.drop_succ_cons, ← List.drop_drop, ← List.drop_drop, hs, ht]
    exact h'
  · exact ⟨rfl, h⟩

theorem atName_pads (h : Padded s t) :
    Pads (c :: s) (c :: t) (atName (c :: s)) (atName (c :: t)) := by
  have hblank : ¬isNameStart ' ' := by decide
  have hbreak : ¬isNameStart '\n' := by decide
  rw [atName, atName]
  simp only [List.drop_succ_cons, List.drop_zero]
  cases h with
  | nil => exact ⟨rfl, .nil⟩
  | @blank s h =>
    have hs := Padded.blank h
    simp only [if_neg hblank]
    cases s with
    | nil => exact ⟨rfl, hs⟩
    | cons d s =>
      obtain rfl : d = '\n' := h d rfl
      simp only [if_neg hbreak]
      exact ⟨rfl, hs⟩
  | @cons d s t h =>
    simp only
    split
    · exact (((skipWhile_blunt isNotePart_of_isSpace).pads (h.cons d)).behind [c]).map _
    · exact ⟨rfl, h.cons d⟩

/-! ## Strings -/

/-- A string takes a blank along, and nothing else changes. -/
theorem stringRest_blank {quote : Char} (hspace : quote ≠ ' ') (s : List Char) :
    stringRest quote (' ' :: s) = (stringRest quote s).after 1 := by
  rw [stringRest.eq_def]
  simp [hspace.symm]

theorem stringRest_break {quote : Char} (hbreak : quote ≠ '\n') (s : List Char) :
    stringRest quote ('\n' :: s) = ⟨.error .unterminatedString, 0, 1⟩ := by
  rw [stringRest.eq_def]
  simp [hbreak.symm]

theorem stringRest_pads {quote : Char} (hspace : quote ≠ ' ') (hbreak : quote ≠ '\n')
    (h : Padded s t) : Pads s t (stringRest quote s) (stringRest quote t) := by
  fun_induction stringRest quote s generalizing t with
  | case1 =>
    cases h with
    | nil => exact ⟨rfl, .nil⟩
    | blank =>
      rw [stringRest_blank hspace]
      exact ⟨rfl, .nil⟩
  | case2 cs =>
    obtain ⟨t, rfl, h'⟩ := h.eq_cons hbreak
    rw [stringRest.eq_def]
    simp only [↓reduceIte]
    exact ⟨rfl, h'⟩
  -- A backslash takes the blank along in place of the newline, and the string stays as open.
  | case3 hquote =>
    obtain ⟨t, rfl, h'⟩ := h.eq_cons (by decide)
    cases h' with
    | nil =>
      rw [stringRest, if_neg hquote, if_pos rfl]
      exact ⟨rfl, .nil⟩
    | blank =>
      rw [stringRest, if_neg hquote, if_pos rfl, if_neg (by decide)]
      exact ⟨rfl, .nil⟩
  | case4 ds hquote =>
    obtain ⟨t, rfl, h'⟩ := h.eq_cons (by decide)
    cases h' with
    | blank =>
      rw [stringRest, if_neg hquote, if_pos rfl, if_neg (by decide), stringRest_break hbreak]
      exact ⟨rfl, .refl _⟩
    | cons _ h' =>
      rw [stringRest, if_neg hquote, if_pos rfl, if_pos rfl]
      exact ⟨rfl, h'.cons _⟩
  | case5 d ds hd hquote ih =>
    obtain ⟨t, rfl, h'⟩ := h.eq_cons (by decide)
    obtain ⟨t, rfl, h''⟩ := h'.eq_cons hd
    rw [stringRest, if_neg hquote, if_pos rfl, if_neg hd]
    exact (ih h'').behind ['\\', d]
  | case6 cs hquote hslash =>
    cases h with
    | blank =>
      rw [stringRest_blank hspace, stringRest_break hbreak]
      exact ⟨rfl, .refl _⟩
    | cons _ h =>
      rw [stringRest_break hbreak]
      exact ⟨rfl, h.cons _⟩
  | case7 c cs hquote hslash hc ih =>
    obtain ⟨t, rfl, h'⟩ := h.eq_cons hc
    have hread : stringRest quote (c :: t) = (stringRest quote t).after 1 := by
      rw [stringRest.eq_def]
      simp only [if_neg hquote, if_neg hslash, if_neg hc]
    rw [hread]
    exact (ih h').behind [c]

theorem string_pads {quote : Char} (hspace : quote ≠ ' ') (hbreak : quote ≠ '\n')
    (h : Padded s t) : Pads (c :: s) (c :: t) (string quote (c :: s)) (string quote (c :: t)) :=
  (stringRest_pads hspace hbreak h).behind [c]

/-! ## Comments -/

theorem commentBody_pads (state : State) (k : CommentKind) (h : Padded s t) :
    Pads s t ((commentBody s).map (ended state k 0)) ((commentBody t).map (ended state k 0)) := by
  induction h with
  | nil => exact ⟨rfl, .nil⟩
  | @blank s h =>
    have hspace : ' ' = '*' → ∃ d ds, s = d :: ds ∧ d ≠ '/' := nofun
    rw [commentBody_cons hspace]
    refine ⟨rfl, ?_⟩
    rw [Reading.map_used, Reading.map_used, Reading.after_used, Nat.add_comm, List.drop_succ_cons]
    exact .refl _
  | @cons c s t h ih =>
    by_cases hclose : c = '*' ∧ s.head? = some '/'
    · obtain ⟨rfl, hs⟩ := hclose
      obtain ⟨s, rfl⟩ := List.head?_eq_some_iff.1 hs
      obtain ⟨t, rfl, h'⟩ := h.eq_cons (by decide)
      exact ⟨rfl, h'⟩
    -- A star at the end may be half of the closing mark, but no blank makes it one.
    by_cases hstar : c = '*' ∧ s = []
    · obtain ⟨rfl, rfl⟩ := hstar
      cases h with
      | nil => exact ⟨rfl, .nil⟩
      | blank => exact ⟨rfl, .nil⟩
    have hs : c = '*' → ∃ d ds, s = d :: ds ∧ d ≠ '/' := by
      rintro rfl
      obtain ⟨d, ds, rfl⟩ := List.exists_cons_of_ne_nil fun hs => hstar ⟨rfl, hs⟩
      exact ⟨d, ds, rfl, fun hd => hclose ⟨rfl, congrArg some hd⟩⟩
    have ht : c = '*' → ∃ d ds, t = d :: ds ∧ d ≠ '/' := by
      rintro rfl
      obtain ⟨d, ds, rfl, hd⟩ := hs rfl
      cases h with
      | blank => exact ⟨' ', _, rfl, by decide⟩
      | cons _ h => exact ⟨d, _, rfl, hd⟩
    rw [commentBody_cons hs, commentBody_cons ht]
    exact ih.behind [c]

theorem isDoc_padded (state : State) (h : Padded s t) :
    isDoc state ('/' :: '*' :: t) ↔ isDoc state ('/' :: '*' :: s) := by
  have hhead {s : List Char} : isDoc state ('/' :: '*' :: s)
      ↔ state.mode ≠ .json ∧ s.head? = some '*' ∧ (s.drop 1).head? ≠ some '/' := by
    rw [isDoc, List.head?_drop, and_assoc, List.head?_eq_getElem?]
    rfl
  rw [hhead, hhead, h.head?_iff (by decide) (by decide)]
  refine and_congr_right fun _ => and_congr_right fun hs => ?_
  obtain ⟨s, rfl⟩ := List.head?_eq_some_iff.1 hs
  obtain ⟨t, rfl, h'⟩ := h.eq_cons (by decide)
  exact (h'.head?_iff (by decide) (by decide)).not

theorem startsComment_padded (h : Padded s t) :
    startsComment (c :: t) = startsComment (c :: s) := by
  simp only [startsComment_cons, h.head?_iff (c := '/') (by decide) (by decide),
    h.head?_iff (c := '*') (by decide) (by decide)]

theorem comment_pads (state : State) (h : Padded s t) (hs : startsComment (c :: s)) :
    Pads (c :: s) (c :: t) (comment .lexical false state (c :: s))
      (comment .lexical false state (c :: t)) := by
  rw [startsComment_cons] at hs
  simp only [Bool.and_eq_true, Bool.or_eq_true, beq_iff_eq, decide_eq_true_eq] at hs
  obtain ⟨rfl, hs⟩ := hs
  rcases hs with hs | hs
  all_goals
    obtain ⟨s, rfl⟩ := List.head?_eq_some_iff.1 hs
    obtain ⟨t, rfl, h'⟩ := h.eq_cons (by decide)
  · have hwanted : TokenSet.lexical.contains .comment := contains_comment .block
    rw [comment_line .lexical state rfl, comment_line .lexical state rfl,
      if_pos hwanted, if_pos hwanted]
    exact (skipWhile_pads (by decide) h' _).behind ['/', '/']
  · have hkind : commentKind .lexical state ('/' :: '*' :: t)
        = commentKind .lexical state ('/' :: '*' :: s) := by
      simp only [commentKind, isDoc_padded state h']
    rw [comment_block .lexical state (by simp), comment_block .lexical state (by simp), hkind,
      if_pos (contains_comment _), if_pos (contains_comment _), finishComment_whole,
      finishComment_whole]
    exact ((commentBody_pads state _ h').behind ['/', '*']).seeing _ _

/-! ## Tokens -/

theorem signed_pads (h : Padded s t) :
    Pads (c :: s) (c :: t) (signed (c :: s)) (signed (c :: t)) := by
  rw [signed, signed, (startsNumber_blunt.pads (h.cons c)).value]
  split
  · exact (number_blunt.pads (h.cons c)).seeing _ _
  · exact ⟨rfl, h⟩

theorem plain_pads (V : TokenSet) (mode : Mode) (h : Padded s t) :
    Pads (c :: s) (c :: t) (plain V mode c (c :: s)) (plain V mode c (c :: t)) := by
  refine plain_forms (P := fun p => Pads (c :: s) (c :: t) (p (c :: s)) (p (c :: t))) V mode c
    (fun _ _ => ⟨rfl, h⟩) (fun hc => ?_) (fun hc => ?_) (fun hc => ?_)
    (fun _ => number_blunt.pads (h.cons c)) (fun _ => signed_pads h)
    (fun _ => ((word_blunt V).pads (h.cons c)).map _) ⟨rfl, h⟩
  · rcases hc with rfl | ⟨rfl, -⟩
    · exact string_pads (by decide) (by decide) h
    · exact string_pads (by decide) (by decide) h
  · exact quotedName_pads h
  · exact atName_pads h

theorem judge_pads {r r' : Reading (Except LexError Kind)} (h : Pads s t r r') (hst : Padded s t)
    (V : TokenSet) : Pads s t (judge cap V state c r) (judge cap V state c r') := by
  rw [judge, judge, h.value]
  split
  · exact ⟨rfl, hst⟩
  · exact h.map _

/-- In front of a token, and not of a blank, both lexers find the same. -/
theorem tokenHere_pads (h : Padded s t) (ht : ∀ c ∈ t.head?, Text.isSpace c = false) :
    Pads s t (tokenHere cap .lexical false state s) (tokenHere cap .lexical false state t) := by
  cases h with
  | nil => exact ⟨rfl, by simpa using Padded.nil⟩
  | blank => exact absurd (ht ' ' rfl) (by decide)
  | @cons c s t h =>
    have hsame := startsComment_padded (c := c) h
    cases hs : startsComment (c :: s) with
    | true =>
      rw [hs] at hsame
      rw [tokenHere_comment cap .lexical state hs, tokenHere_comment cap .lexical state hsame]
      exact comment_pads state h hs
    | false =>
      rw [hs] at hsame
      rw [tokenHere_cons cap .lexical state hs, tokenHere_cons cap .lexical state hsame,
        lexeme_lexical, lexeme_lexical]
      exact judge_pads ((plain_pads .lexical state.mode h).seeing _ _) (h.cons c) .lexical

/-! ## Passes -/

namespace Stand

variable {p q : Stand} {u v : Scanned}

/-- Both lexers are in the same state, and their texts are the same but for the blank. -/
structure Beside (p q : Stand) : Prop where
  state : q.state = p.state
  rest : Padded p.rest q.rest

/-- Both find a token of the same kind, and behind it they are in the same state and stand beside
each other again. -/
theorem Beside.next (h : Beside p q) (hp : p.Sound cap) (hq : q.Sound cap)
    (hu : p.token? cap .lexical = some u) (hv : q.token? cap .lexical = some v) :
    (v.token.kind = u.token.kind ∧ v.after = u.after)
      ∧ Beside (p.next cap .lexical) (q.next cap .lexical) := by
  obtain ⟨f, hf, hkind, hstate, -, hrest⟩ := here_found hp hu
  obtain ⟨g, hg, hkind', hstate', -, hrest'⟩ := here_found hq hv
  have hpads : Pads (ahead p.rest) (ahead q.rest) (p.here cap .lexical) (q.here cap .lexical) := by
    rw [here, here, h.state]
    exact tokenHere_pads (ahead_padded h.rest) (ahead_head q.rest)
  have hsame : (q.next cap .lexical).state = (p.next cap .lexical).state := by
    rw [hstate, hstate', hpads.value]
  obtain rfl : g = f := by
    rw [hpads.value, hf] at hg
    exact (Option.some.inj hg).symm
  refine ⟨⟨hkind'.symm.trans hkind, ?_⟩, hsame, ?_⟩
  · rw [after_eq hu, after_eq hv, hsame]
  · rw [hrest, hrest']
    exact hpads.rest

end Stand

/-- The streams of two lexers beside each other have the same kinds and the same states. -/
theorem Stream.beside {p q : Stand} {ts us : List Scanned} (hs : Stream cap p ts)
    (hs' : Stream cap q us) (h : p.Beside q) (hp : p.Sound cap) (hq : q.Sound cap) :
    us.map (·.token.kind) = ts.map (·.token.kind) ∧ us.map (·.after) = ts.map (·.after) := by
  induction hs generalizing q us with
  | stop ht hk =>
    cases hs' with
    | stop hu hk' =>
      obtain ⟨⟨hkind, hafter⟩, -⟩ := h.next hp hq ht hu
      exact ⟨congrArg (fun k => [k]) hkind, congrArg (fun a => [a]) hafter⟩
    | more hu hk' _ => exact absurd ((h.next hp hq ht hu).1.1.trans hk) hk'
  | more ht hk _ ih =>
    cases hs' with
    | stop hu hk' => exact absurd ((h.next hp hq ht hu).1.1.symm.trans hk') hk
    | more hu hk' hrest =>
      obtain ⟨⟨hkind, hafter⟩, hnext⟩ := h.next hp hq ht hu
      obtain ⟨hkinds, hafters⟩ := ih hrest hnext (Stand.next_sound hp) (Stand.next_sound hq)
      exact ⟨congrArg₂ List.cons hkind hkinds, congrArg₂ List.cons hafter hafters⟩

end Lexer

namespace Benchmark

open Text (Breaks size)
open Lexer (tokenize)

theorem exists_of_mem_newlines {s : List Char} {n b : Nat} (h : b ∈ newlines n s) :
    ∃ u r, s = u ++ '\n' :: r ∧ b = n + size u := by
  induction s generalizing n with
  | nil => cases h
  | cons c s ih =>
    rw [newlines] at h
    split at h
    · rename_i hc
      subst hc
      rcases List.mem_cons.1 h with rfl | h
      · exact ⟨[], s, rfl, rfl⟩
      · obtain ⟨u, r, rfl, rfl⟩ := ih h
        exact ⟨'\n' :: u, r, rfl, by rw [Text.size_cons, ← Nat.add_assoc]; rfl⟩
    · obtain ⟨u, r, rfl, rfl⟩ := ih h
      exact ⟨c :: u, r, rfl, by rw [Text.size_cons, ← Nat.add_assoc]⟩

/-- The edit is made in front of a newline or at the end of the text. -/
theorem middleByte_parts (text : String) :
    ∃ u r, text.toList = u ++ r ∧ Breaks r ∧ middleByte text = size u := by
  have hfound {b : Nat} (h : b ∈ newlines 0 text.toList) :
      ∃ u r, text.toList = u ++ r ∧ Breaks r ∧ b = size u := by
    obtain ⟨u, r, htext, hb⟩ := exists_of_mem_newlines h
    refine ⟨u, '\n' :: r, htext, ?_, hb.trans (Nat.zero_add _)⟩
    rintro c ⟨⟩
    rfl
  rw [middleByte]
  split
  · rename_i b hb
    exact hfound (List.mem_of_find?_eq_some hb)
  · cases hlast : (newlines 0 text.toList).getLast? with
    | some b => exact hfound (List.mem_of_getLast? hlast)
    | none => exact ⟨text.toList, [], (List.append_nil _).symm, nofun, Text.utf8ByteSize_eq text⟩

-- Where lines end in a return and a newline the blank comes between the two.
example : middleByte "a;\r\nb" = 3 := by decide

/-- The edit a benchmark makes puts one blank in front of a newline or at the end of the text. It
changes neither the kinds of the tokens nor the states of the lexer behind them. -/
theorem middleEdit_keeps_tokens (config : Lexer.Config) (mode : Mode) (text : String) :
    (∃ u r, text.toList = u ++ r ∧ Breaks r ∧ (middleEdit text).2 = .ofList (u ++ ' ' :: r)
      ∧ (middleEdit text).1 = Edit.replace text (size u) (size u) " ")
    ∧ (tokenize config mode (middleEdit text).2).map (·.token.kind)
      = (tokenize config mode text).map (·.token.kind)
    ∧ (tokenize config mode (middleEdit text).2).map (·.after)
      = (tokenize config mode text).map (·.after) := by
  obtain ⟨u, r, htext, hr, hbyte⟩ := middleByte_parts text
  have hedited : (middleEdit text).2 = .ofList (u ++ ' ' :: r) := by
    rw [middleEdit]
    simp only [hbyte, Edit.result?, le_refl, ↓reduceIte, htext, Text.dropBytes?_append,
      Text.takeBytes_append, Option.getD_some, List.append_assoc]
    rfl
  refine ⟨⟨u, r, htext, hr, hedited, ?_⟩, ?_⟩
  · rw [middleEdit, hbyte]
  rw [hedited]
  refine (Lexer.tokenize_stream config mode text).beside (Lexer.tokenize_stream config mode _) ?_
    (Lexer.Stand.start_sound mode _) (Lexer.Stand.start_sound mode _)
  refine ⟨rfl, ?_⟩
  rw [htext, String.toList_ofList]
  exact (Text.Padded.blank hr).append u

end Benchmark

end AvroTree
