import AvroTree.Proofs.Scanning

/-!
# What a found token is like

In front of a found token stand only blanks (`token_blanks`), and it uses up at least one
character unless it is the end (`token_used`), which is found exactly where only blanks are left.
Whether a comment or the end comes next is decided by the text alone as long as comments, the end
and errors are looked for (`token_ahead`), and a plain pass finds a token everywhere
(`token_lexical`).
-/

namespace AvroTree

namespace TokenSet

theorem index_lt (k : Token.Kind) : k.index < Token.Kind.count := by
  cases k with
  | keyword w => cases w <;> decide
  | punct p => cases p <;> decide
  | _ => exact of_decide_eq_true rfl

theorem contains_single (j k : Token.Kind) :
    (single j).contains k = decide (k.index = j.index) := by
  show (BitVec.twoPow Token.Kind.count j.index).getLsbD k.index = _
  have hj := index_lt j
  have hk := index_lt k
  rw [BitVec.getLsbD_twoPow]
  by_cases h : k.index = j.index
  · simp [h, hj]
  · simp [h, Ne.symm h]

theorem all_getElem? {k : Token.Kind} (hk : k.index < 8) : Token.Kind.all[k.index]? = some k := by
  cases k with
  | keyword w => exact absurd hk (by show ¬9 + _ < 8; omega)
  | punct p => exact absurd hk (by show ¬42 + _ < 8; omega)
  | error e => exact absurd hk (by decide : ¬8 < 8)
  | _ => rfl

/-- The kinds in front of the errors are known by their index. -/
theorem eq_of_index {j k : Token.Kind} (hj : j.index < 8) (h : k.index = j.index) : k = j := by
  have hsome := all_getElem? (h ▸ hj : k.index < 8)
  rw [h, all_getElem? hj] at hsome
  exact (Option.some.inj hsome).symm

theorem contains_single_eof {k : Token.Kind} (hk : k ≠ .eof) :
    (single k).contains .eof = false := by
  rw [contains_single]
  exact decide_eq_false fun h => hk (eq_of_index (by decide) h.symm)

theorem contains_lexical (k : Token.Kind) : lexical.contains k = decide (k ≠ .jsonSpan) := by
  show (BitVec.allOnes _ &&& ~~~ BitVec.twoPow _ Token.Kind.jsonSpan.index).getLsbD k.index = _
  have hk := index_lt k
  have hs : (BitVec.twoPow Token.Kind.count Token.Kind.jsonSpan.index).getLsbD k.index
      = decide (k.index = Token.Kind.jsonSpan.index) := contains_single .jsonSpan k
  rw [BitVec.getLsbD_and, BitVec.getLsbD_allOnes, BitVec.getLsbD_not, hs]
  by_cases h : k = .jsonSpan
  · simp [h]
  · have hi : k.index ≠ Token.Kind.jsonSpan.index := fun h' => h (eq_of_index (by decide) h')
    simp [h, hk, hi]

end TokenSet

/-- Neither a comment nor the end. -/
def Token.Kind.isProper (k : Token.Kind) : Bool :=
  !k.isExtra && k != .eof

namespace Lexer

variable {α β : Type}

/-! ## What single tokens come to -/

/-- What the lexer finds, when it finds its token in order, satisfies `P`. -/
def Gives (p : Attempt α) (P : α → Prop) : Prop :=
  ∀ s a, (p s).value = .ok a → P a

namespace Gives

variable {P : α → Prop}

theorem pure {a : α} (h : P a) : Gives (pure a : Attempt α) P := by
  intro s b hb
  cases hb
  exact h

theorem bind {p : Attempt β} {f : β → Attempt α} (h : ∀ b, Gives (f b) P) :
    Gives (p >>= f : Attempt α) P := by
  intro s a ha
  have hv : (ExceptT.bindCont f (p s).value (s.drop (p s).used)).value = .ok a := ha
  cases hp : (p s).value with
  | ok b =>
    rw [hp] at hv
    exact h b _ a hv
  | error e =>
    rw [hp] at hv
    cases hv

theorem ite {c : Prop} [Decidable c] {p q : Attempt α} (hp : Gives p P) (hq : Gives q P) :
    Gives (if c then p else q) P := by
  split
  · exact hp
  · exact hq

/-- What gives one thing gives no other. -/
theorem other {p : Attempt α} {a b : α} {s : List Char} {Q : Prop} (h : Gives p (· = a))
    (hv : (p s).value = .ok b) (hab : a ≠ b) : Q :=
  absurd (h s b hv).symm hab

end Gives

theorem number_gives : Gives number (· = .number) := by
  refine .bind fun _ => .bind fun whole => .bind fun dot => .ite ?_ ?_
  · exact .bind fun _ => .ite (.bind fun _ => .bind fun _ => .pure rfl) (.bind fun _ => .pure rfl)
  · exact .bind fun _ => .ite (.bind fun _ => .bind fun _ => .pure rfl) (.bind fun _ => .pure rfl)

theorem quotedName_gives : Gives quotedName (· = .identifier) := by
  intro s k h
  rw [quotedName] at h
  split at h
  · cases h
    rfl
  · cases h

theorem atName_gives : Gives atName (· = .atName) := by
  intro s k h
  rw [atName] at h
  split at h
  · cases h
  · split at h
    · cases h
      rfl
    · cases h

theorem stringRest_gives (quote : Char) (s : List Char) {k : Token.Kind}
    (h : (stringRest quote s).value = .ok k) : k = .string := by
  fun_induction stringRest quote s with
  | case2 => simp_all
  | case5 _ _ _ _ ih => exact ih h
  | case7 _ _ _ _ _ ih => exact ih h
  | _ => cases h

theorem string_gives (quote : Char) : Gives (string quote) (· = .string) :=
  fun s _ h => stringRest_gives quote (s.drop 1) h

theorem word_kind (valid : TokenSet) (s : List Char) :
    (word valid s).value = .identifier ∨ ∃ k, (word valid s).value = .keyword k := by
  rw [word]
  simp only [Reading.map_value]
  split
  · exact .inl rfl
  · rw [wordKind]
    split
    · split
      · exact .inr ⟨_, rfl⟩
      · exact .inl rfl
    · exact .inl rfl

theorem jsonValue_gives {room : Nat} {s : List Char} {k : Token.Kind}
    (h : (jsonValue room s).value = some (.ok k)) : k = .jsonSpan := by
  have map_ok {r : Except LexError Unit}
      (h : some (r.map fun _ => Token.Kind.jsonSpan) = some (.ok k)) : k = .jsonSpan := by
    cases r with
    | ok _ =>
      cases h
      rfl
    | error e => cases h
  rw [jsonValue_eq, followFirst] at h
  split at h
  · exact map_ok h
  · cases h
    rfl
  · exact map_ok h
  · cases h
  · cases h
  · cases h

/-- What `plain` may come to, each with what it knows of the first character. -/
theorem plain_choice {P : Reading (Except LexError Token.Kind) → Prop} (valid : TokenSet)
    (mode : Mode) (c : Char) (s : List Char)
    (punct : ∀ p, Punct.ofChar? c = some p → P ⟨.ok (.punct p), 1, 1⟩)
    (string : c = '"' ∨ c = '\'' → P (string c s))
    (quotedName : c = '\x60' → P (quotedName s))
    (atName : c = '@' → P (atName s))
    (number : ∀ n, c.isDigit ∨ isSign c ∨ c = '.' → P ((number s).seeing n))
    (word : Text.isNameStart c → P ((word valid s).map .ok))
    (stray : ∀ n, P ⟨.error .unexpectedCharacter, 1, n⟩) :
    P (plain valid mode c s) := by
  refine plain_forms (P := fun p => P (p s)) valid mode c punct
    (fun hc => string (hc.imp_right And.left)) quotedName atName (fun hd => ?_) (fun hs => ?_) word
    (stray _)
  · have h := number 0 (.inl hd)
    rwa [Reading.seeing, Nat.zero_max] at h
  · rw [signed]
    split
    · exact number _ (.inr (by simpa using hs))
    · exact stray _

theorem char_of_ofChar? {p : Punct} {c : Char} (h : Punct.ofChar? c = some p) : c = p.char := by
  have := List.find?_some h
  exact (beq_iff_eq.1 this).symm

/-- A character that starts a name starts nothing else. -/
theorem plain_nameStart {c : Char} (hc : Text.isNameStart c) (V : TokenSet) (mode : Mode)
    (s : List Char) : plain V mode c s = (word V s).map .ok := by
  have hne {d : Char} (hd : Text.isNameStart d = false) : c ≠ d := by
    rintro rfl
    rw [hc] at hd
    cases hd
  have hpunct : Punct.ofChar? c = none := by
    cases h : Punct.ofChar? c with
    | none => rfl
    | some p =>
      refine absurd (char_of_ofChar? h) (hne ?_)
      cases p <;> rfl
  have hdigit : c.isDigit = false := by
    simp only [Text.isNameStart, Bool.and_eq_true, Bool.not_eq_true'] at hc
    exact hc.1
  have hsign : (isSign c || c == '.') = false := by
    simp [isSign, hne (d := '-') rfl, hne (d := '+') rfl, hne (d := '.') rfl]
  rw [plain, hpunct]
  simp only [hne (d := '"') rfl, hne (d := '\'') rfl, hne (d := '\x60') rfl, hne (d := '@') rfl,
    hdigit, hsign, hc, false_and, Bool.false_eq_true, ↓reduceIte]

/-- What is wanted matters only where a name may start. -/
theorem plain_other {c : Char} (hc : ¬Text.isNameStart c) (V W : TokenSet) (mode : Mode) :
    plain V mode c = plain W mode c := by
  funext s
  simp only [plain, hc, if_false, Bool.false_eq_true]

/-- A token read by `plain` is neither comment nor end nor a JSON value. -/
theorem plain_kind (valid : TokenSet) (mode : Mode) (c : Char) (s : List Char) :
    (kindOf (plain valid mode c s).value).isProper
      ∧ kindOf (plain valid mode c s).value ≠ .jsonSpan := by
  have attempt {p : Attempt Token.Kind} {j : Token.Kind} (h : Gives p (· = j))
      (hj : j.isProper ∧ j ≠ .jsonSpan) :
      (kindOf (p s).value).isProper ∧ kindOf (p s).value ≠ .jsonSpan := by
    cases hv : (p s).value with
    | ok k =>
      obtain rfl := h s k hv
      exact hj
    | error e => exact ⟨rfl, nofun⟩
  refine plain_choice (P := fun r => (kindOf r.value).isProper ∧ kindOf r.value ≠ .jsonSpan)
    valid mode c s (fun _ _ => ⟨rfl, nofun⟩) (fun _ => attempt (string_gives c) ⟨rfl, nofun⟩)
    (fun _ => attempt quotedName_gives ⟨rfl, nofun⟩) (fun _ => attempt atName_gives ⟨rfl, nofun⟩)
    (fun _ _ => attempt number_gives ⟨rfl, nofun⟩) (fun _ => ?_) fun _ => ⟨rfl, nofun⟩
  rw [Reading.map_value, kindOf]
  rcases word_kind valid s with h | ⟨k, h⟩
  · rw [h]
    exact ⟨rfl, nofun⟩
  · rw [h]
    exact ⟨rfl, nofun⟩

theorem lexeme_kind (cap : Nat) (valid : TokenSet) (state : State) (c : Char) (s : List Char) :
    (kindOf (lexeme cap valid state c s).value).isProper := by
  have hplain := (plain_kind valid state.mode c s).1
  rw [lexeme]
  split
  · simp only []
    split
    · rename_i result hr
      rw [Reading.map_value]
      cases result with
      | ok k =>
        obtain rfl := jsonValue_gives hr
        rfl
      | error e => rfl
    · exact hplain
  · exact hplain

theorem lexeme_lexical (cap : Nat) (state : State) (c : Char) (s : List Char) :
    lexeme cap .lexical state c s = plain .lexical state.mode c s := by
  have h : TokenSet.lexical.contains .jsonSpan = false := by
    rw [TokenSet.contains_lexical]
    rfl
  rw [lexeme, h, Bool.false_and, if_neg Bool.false_ne_true]

/-! ## Tokens use up characters -/

theorem digitsFrom_used (n : Nat) {c : Char} (h : c.isDigit) (cs : List Char) :
    0 < (digitsFrom n (c :: cs)).used := by
  rw [digitsFrom.eq_def]
  simp only [h, ↓reduceIte, Reading.after_used]
  omega

theorem number_used {c : Char} (h : c.isDigit ∨ isSign c ∨ c = '.') (cs : List Char) :
    0 < (number (c :: cs)).used := by
  rw [number]
  by_cases hs : isSign c
  · refine Nat.lt_of_lt_of_le ?_ (attempt_used _ _ _)
    rw [attempt_skipIf, if_pos hs]
    exact Nat.one_pos
  rw [attempt_used_of_ok (by rw [attempt_skipIf, if_neg hs])]
  by_cases hd : c.isDigit
  · exact Nat.lt_of_lt_of_le (digitsFrom_used 0 hd cs) (attempt_used _ _ _)
  obtain rfl : c = '.' := by simpa [hs, hd] using h
  have hdot : digits ('.' :: cs) = (⟨.ok 0, 0, 1⟩ : Reading (Except LexError Nat)) := by
    show digitsFrom 0 ('.' :: cs) = _
    rw [digitsFrom.eq_def]
    rfl
  rw [attempt_used_of_ok hdot]
  refine Nat.lt_of_lt_of_le ?_ (attempt_used _ _ _)
  rw [attempt_skipIf, if_pos (beq_self_eq_true _)]
  exact Nat.one_pos

theorem nameRest_used {c : Char} (h : Text.isNameStart c) (cs : List Char) :
    0 < (nameRest (c :: cs)).used := by
  have hp : Text.isNamePart c := by
    rw [Text.isNameStart, Bool.and_eq_true] at h
    exact h.2
  rw [nameRest.eq_def]
  simp only [hp, ↓reduceIte, Reading.after_used]
  omega

theorem plain_used (valid : TokenSet) (mode : Mode) (c : Char) (cs : List Char) :
    0 < (plain valid mode c (c :: cs)).used := by
  refine plain_choice (P := fun r => 0 < r.used) valid mode c (c :: cs) (fun _ _ => Nat.one_pos)
    (fun _ => Nat.lt_add_right _ Nat.one_pos) (fun _ => ?_) (fun _ => ?_)
    (fun _ h => number_used h cs)
    (fun h => nameRest_used h cs) fun _ => Nat.one_pos
  · rw [quotedName]
    split <;> exact Nat.succ_pos _
  · rw [atName]
    split
    · exact Nat.one_pos
    · split
      · exact Nat.lt_add_right _ Nat.one_pos
      · exact Nat.one_pos

theorem jsonValue_used {room : Nat} {s : List Char} {result : Except LexError Token.Kind}
    (h : (jsonValue room s).value = some result) : 0 < (jsonValue room s).used := by
  have hread (hr : (piece room .value [] s).value.isRead) : 0 < (piece room .value [] s).used :=
    piece_used hr
  rw [jsonValue_eq, followFirst] at h ⊢
  revert h hread
  cases hv : (piece room .value [] s).value with
  | more expect stack => exact fun _ hread => Nat.lt_add_right _ (hread rfl)
  | complete stack =>
    cases stack with
    | nil => exact fun _ hread => hread rfl
    | cons b stack => exact fun _ hread => Nat.lt_add_right _ (hread rfl)
  | misplaced e => exact fun _ _ => Nat.one_pos
  | faulty e => exact fun _ hread => hread rfl
  | bareWord =>
    intro h
    cases h

theorem lexeme_used (cap : Nat) (valid : TokenSet) (state : State) (c : Char) (cs : List Char) :
    0 < (lexeme cap valid state c (c :: cs)).used := by
  have hplain := plain_used valid state.mode c cs
  rw [lexeme]
  split
  · simp only []
    split
    · rename_i result hr
      exact jsonValue_used hr
    · exact hplain
  · exact hplain

/-! ## The state behind a token -/

/-- A state between two tokens: no comment is open, and not too many brackets are. -/
structure State.Sound (cap : Nat) (state : State) : Prop where
  comment : state.comment = none
  depth : state.depth ≤ cap

theorem State.close_depth (state : State) (b : Bracket) : (state.close b).depth ≤ state.depth := by
  rw [State.close]
  split
  · exact le_rfl
  · rename_i outer h
    have hle := (state.stack.dropWhile_suffix (· != b)).length_le
    rw [h, List.length_cons] at hle
    exact (Nat.le_succ _).trans hle

theorem State.close_comment (state : State) (b : Bracket) :
    (state.close b).comment = state.comment := by
  rw [State.close]
  split <;> rfl

theorem track_sound {cap : Nat} {state : State} (h : state.Sound cap) (kind : Token.Kind) :
    (track cap state kind).2.Sound cap := by
  cases kind with
  | punct p =>
    rw [track]
    split
    · split
      · exact h
      · exact ⟨h.comment, by rw [State.depth, List.length_cons]; exact Nat.lt_of_not_le ‹_›⟩
    · exact ⟨(State.close_comment _ _).trans h.comment, (State.close_depth _ _).trans h.depth⟩
    · exact h
  | _ => exact h

theorem track_kind (cap : Nat) (state : State) (kind : Token.Kind) :
    (track cap state kind).1 = kind ∨ (track cap state kind).1 = .error .depthExceeded := by
  cases kind with
  | punct p =>
    rw [track]
    split
    · split
      · exact .inr rfl
      · exact .inl rfl
    · exact .inl rfl
    · exact .inl rfl
  | _ => exact .inl rfl

theorem track_proper (cap : Nat) (state : State) {kind : Token.Kind} (h : kind.isProper) :
    (track cap state kind).1.isProper := by
  rcases track_kind cap state kind with ht | ht
  · rwa [ht]
  · rw [ht]
    rfl

theorem closeComment_state {cap : Nat} {state : State} (h : state.Sound cap) (valid : TokenSet)
    (kind : CommentKind) (r : Reading BodyEnd) :
    (closeComment valid state kind r).value.state = state := by
  have hs : { state with comment := none } = state := by
    rw [← h.comment]
  rw [closeComment]
  split_ifs <;> exact hs

theorem comment_state {cap : Nat} {state : State} (h : state.Sound cap) (valid : TokenSet)
    (s : List Char) : (comment valid false state s).value.state = state := by
  by_cases hl : s[1]? = some '/'
  · rw [comment_line valid state hl]
    split <;> rfl
  · rw [comment_block valid state hl]
    split
    · rw [Reading.seeing_value, finishComment_eq]
      exact closeComment_state h valid _ _
    · rfl

/-- What was read at a character other than a comment's is no token, or it is one of the kind that
the count of brackets leaves it. -/
theorem judge_cases (cap : Nat) (valid : TokenSet) (state : State) (c : Char)
    (r : Reading (Except LexError Token.Kind)) :
    judge cap valid state c r = r.reject state ∨
      judge cap valid state c r = r.accept
        { (track cap state (kindOf r.value)).2 with mode := impliedMode state (kindOf r.value) c }
        (track cap state (kindOf r.value)).1 := by
  rw [judge]
  split
  · exact .inl rfl
  · exact .inr rfl

theorem tokenHere_state {cap : Nat} {state : State} (h : state.Sound cap) (valid : TokenSet)
    (s : List Char) : (tokenHere cap valid false state s).value.state.Sound cap := by
  cases s with
  | nil =>
    rw [tokenHere]
    split <;> exact h
  | cons c cs =>
    cases hc : startsComment (c :: cs) with
    | true =>
      rw [tokenHere_comment cap valid state hc, comment_state h valid]
      exact h
    | false =>
      rw [tokenHere_cons cap valid state hc]
      rcases judge_cases cap valid state c _ with hj | hj
      · rw [hj]
        exact h
      · rw [hj]
        exact ⟨(track_sound h _).comment, (track_sound h _).depth⟩

/-- Where no token is found the state stays. -/
theorem tokenHere_none {cap : Nat} {valid : TokenSet} {state : State} (h : state.Sound cap)
    {s : List Char} (hf : (tokenHere cap valid false state s).value.found = none) :
    (tokenHere cap valid false state s).value.state = state := by
  cases s with
  | nil =>
    rw [tokenHere]
    split <;> rfl
  | cons c cs =>
    cases hc : startsComment (c :: cs) with
    | true => rw [tokenHere_comment cap valid state hc, comment_state h valid]
    | false =>
      rw [tokenHere_cons cap valid state hc] at hf ⊢
      rcases judge_cases cap valid state c _ with hj | hj
      · rw [hj]
        rfl
      · rw [hj] at hf
        cases hf

/-! ## What comes next -/

/-- Whether a comment comes first, one that is closed or runs to the end of its line. -/
def leadsComment (s : List Char) : Bool :=
  startsComment s && (s[1]? == some '/' || (commentBody (s.drop 2)).value == .closed)

theorem CommentKind.token_isExtra (k : CommentKind) : k.token.isExtra := by
  cases k <;> rfl

/-- A found comment is one, or an error for its end is missing. -/
theorem comment_found {valid : TokenSet} {state : State} {s : List Char} {f : Found}
    (h : (comment valid false state s).value.found = some f) :
    f.kind ≠ .eof ∧ 0 < (comment valid false state s).used ∧
      f.kind.isExtra = (s[1]? == some '/' || (commentBody (s.drop 2)).value == .closed) := by
  by_cases hl : s[1]? = some '/'
  · rw [comment_line valid state hl] at h ⊢
    split at h
    · rename_i hv
      cases h
      rw [if_pos hv]
      refine ⟨by simp, Nat.lt_add_right _ Nat.two_pos, ?_⟩
      simp [hl, Token.Kind.isExtra]
    · cases h
  · rw [comment_block valid state hl] at h ⊢
    split at h
    · rename_i hv
      rw [if_pos hv]
      rw [Reading.seeing_value, finishComment_eq, closeComment] at h
      rw [Reading.seeing_used, finishComment_eq, closeComment]
      rw [Reading.after_value] at h ⊢
      have hl' : (s[1]? == some '/') = false := by simpa using hl
      have hused : 0 < ((commentBody (s.drop 2)).after 2).used := Nat.lt_add_right _ Nat.two_pos
      split_ifs at h with hclosed herr
      · cases h
        rw [if_pos hclosed]
        refine ⟨?_, hused, ?_⟩
        · cases commentKind valid state s <;> simp [CommentKind.token]
        · rw [CommentKind.token_isExtra, hclosed]
          simp
      · cases h
        rw [if_neg hclosed, if_pos herr]
        refine ⟨by simp, hused, ?_⟩
        rw [hl', Bool.false_or, beq_eq_false_iff_ne.2 hclosed]
        rfl
      · cases h
    · cases h

/-- A token is found at its first character, uses up some of the text unless it is the end, and is
a comment only where the text starts with one. -/
theorem tokenHere_found {cap : Nat} {valid : TokenSet} {state : State} {s : List Char} {f : Found}
    (h : (tokenHere cap valid false state s).value.found = some f) :
    f.kind.isExtra = leadsComment s ∧ (f.kind = .eof ↔ s = [])
      ∧ (s ≠ [] → 0 < (tokenHere cap valid false state s).used) := by
  cases s with
  | nil =>
    rw [tokenHere] at h
    split at h
    · cases h
      exact ⟨rfl, ⟨fun _ => rfl, fun _ => rfl⟩, fun h => absurd rfl h⟩
    · cases h
  | cons c cs =>
    cases hc : startsComment (c :: cs) with
    | true =>
      rw [tokenHere_comment cap valid state hc] at h ⊢
      obtain ⟨heof, hused, hextra⟩ := comment_found h
      rw [leadsComment, hc, Bool.true_and]
      exact ⟨hextra, ⟨fun h => absurd h heof, by simp⟩, fun _ => hused⟩
    | false =>
      rw [tokenHere_cons cap valid state hc] at h ⊢
      have hproper := lexeme_kind cap valid state c (c :: cs)
      have hused := lexeme_used cap valid state c cs
      rcases judge_cases cap valid state c _ with hj | hj
      · rw [hj] at h
        cases h
      · rw [hj] at h ⊢
        cases h
        have ht := track_proper cap state hproper
        rw [Token.Kind.isProper, Bool.and_eq_true, Bool.not_eq_true', bne_iff_ne] at ht
        rw [leadsComment, hc]
        exact ⟨ht.1, ⟨fun h => absurd h ht.2, by simp⟩, fun _ => hused⟩

theorem comment_lexical (state : State) (s : List Char) :
    (comment .lexical false state s).value.found.isSome := by
  have hl : ∀ k : CommentKind, TokenSet.lexical.contains k.token := by
    intro k
    rw [TokenSet.contains_lexical]
    cases k <;> rfl
  by_cases hs : s[1]? = some '/'
  · have hline : TokenSet.lexical.contains .comment := hl .block
    rw [comment_line .lexical state hs, if_pos hline]
    rfl
  · have herr : TokenSet.lexical.contains (.error .unterminatedComment) := by
      rw [TokenSet.contains_lexical]
      rfl
    rw [comment_block .lexical state hs, if_pos (hl _), Reading.seeing_value, finishComment_eq,
      closeComment, if_pos herr]
    split <;> rfl

/-- A plain pass finds a token everywhere. -/
theorem tokenHere_lexical (cap : Nat) (state : State) (s : List Char) :
    (tokenHere cap .lexical false state s).value.found.isSome := by
  cases s with
  | nil =>
    rw [tokenHere, TokenSet.contains_lexical]
    rfl
  | cons c cs =>
    cases hc : startsComment (c :: cs) with
    | true =>
      rw [tokenHere_comment cap _ state hc]
      exact comment_lexical state _
    | false =>
      have hkind := (plain_kind .lexical state.mode c (c :: cs)).2
      rw [tokenHere_cons cap _ state hc, judge, Reading.seeing_value, lexeme_lexical]
      have hvalid : TokenSet.lexical.contains
          (kindOf (plain .lexical state.mode c (c :: cs)).value) := by
        rw [TokenSet.contains_lexical]
        exact decide_eq_true hkind
      have htrack : TokenSet.lexical.contains
          (track cap state (kindOf (plain .lexical state.mode c (c :: cs)).value)).1 := by
        rcases track_kind cap state _ with ht | ht
        · rw [ht]
          exact hvalid
        · rw [ht, TokenSet.contains_lexical]
          rfl
      rw [hvalid, htrack]
      rfl

/-! ## The token of a text -/

/-- A text without the blanks in front of it. -/
def ahead (s : List Char) : List Char :=
  s.drop (blanks s)

/-- What holds of a token found at the front of `s`, blanks included, with `used` characters used
up. -/
structure Found.At (s : List Char) (used : Nat) (f : Found) : Prop where
  blanks : f.blanks = Lexer.blanks s
  extra : f.kind.isExtra = leadsComment (ahead s)
  eof : f.kind = .eof ↔ ahead s = []
  le_used : f.blanks ≤ used
  lt_used : f.kind ≠ .eof → f.blanks < used

theorem token_found {cap : Nat} {valid : TokenSet} {state : State} {s : List Char} {f : Found}
    (hc : state.comment = none) (h : (token cap valid false state s).value.found = some f) :
    f.At s (token cap valid false state s).used := by
  rw [token_eq cap valid hc] at h ⊢
  rw [behindBlanks] at h ⊢
  cases hf : (tokenHere cap valid false state (s.drop (blanks s))).value.found with
  | none =>
    rw [hf] at h
    simp [hf] at h
  | some g =>
    rw [hf] at h
    cases h
    obtain ⟨hextra, heof, hused⟩ := tokenHere_found hf
    refine ⟨rfl, hextra, heof, Nat.le_add_right _ _, fun hne => ?_⟩
    exact Nat.lt_add_of_pos_right (hused fun hs => hne (heof.2 hs))

theorem token_lexical (cap : Nat) {state : State} (hc : state.comment = none) (s : List Char) :
    (token cap .lexical false state s).value.found.isSome := by
  have h := tokenHere_lexical cap state (s.drop (blanks s))
  rw [token_eq cap .lexical hc, behindBlanks]
  cases hf : (tokenHere cap .lexical false state (s.drop (blanks s))).value.found with
  | none =>
    rw [hf] at h
    cases h
  | some g => rfl

theorem token_sound {cap : Nat} {state : State} (h : state.Sound cap) (valid : TokenSet)
    (s : List Char) : (token cap valid false state s).value.state.Sound cap := by
  have hs := tokenHere_state h valid (s.drop (blanks s))
  rw [token_eq cap valid h.comment, behindBlanks]
  split <;> exact hs

/-- Where no token is found nothing is used up and the state stays. -/
theorem token_none {cap : Nat} {valid : TokenSet} {state : State} (h : state.Sound cap)
    {s : List Char} (hf : (token cap valid false state s).value.found = none) :
    (token cap valid false state s).value.state = state
      ∧ (token cap valid false state s).used = 0 := by
  rw [token_eq cap valid h.comment, behindBlanks] at hf ⊢
  cases hg : (tokenHere cap valid false state (s.drop (blanks s))).value.found with
  | none => exact ⟨tokenHere_none h hg, rfl⟩
  | some g =>
    rw [hg] at hf
    cases hf

theorem token_seen (cap : Nat) (valid : TokenSet) {state : State} (hc : state.comment = none)
    (s : List Char) : 0 < (token cap valid false state s).seen := by
  rw [token_eq cap valid hc, behindBlanks_seen]
  exact Nat.add_pos_right _ (tokenHere_seen cap valid state _)

end Lexer

end AvroTree
