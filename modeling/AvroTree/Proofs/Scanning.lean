import AvroTree.Lexer.Scan
import AvroTree.Proofs.JsonLocality

/-!
# Finding a token is local

What `Lexer.token` finds in a text that no window cuts off depends only on the characters it has
seen (`token_local`): comments, blanks and the choice between the lexers by the first character
included.
-/

namespace AvroTree

namespace Reading

open Lexer (State)

variable {α : Type} (r : Reading α) (state : State) (kind : Token.Kind)

end Reading

namespace Lexer

open Text (Agree)

/-! ## Comments -/

theorem commentBody_seen (s : List Char) : 0 < (commentBody s).seen := by
  fun_induction commentBody s with
  | case4 c cs _ _ ih =>
    rw [Reading.after_seen]
    omega
  | _ => exact Nat.succ_pos _

theorem commentBody_local : Local commentBody where
  same s := by
    fun_induction commentBody s with
    | case1 =>
      intro t h
      rw [h.eq_nil, commentBody]
    | case2 =>
      intro t h
      obtain ⟨t, rfl, ht⟩ := h.eq_cons
      rw [ht.eq_nil, commentBody]
    | case3 cs =>
      intro t h
      obtain ⟨t, rfl, ht⟩ := h.eq_cons
      obtain ⟨t, rfl, -⟩ := ht.eq_cons
      rw [commentBody]
    | case4 c cs hstar hclose ih =>
      intro t h
      rw [Reading.after_seen, Nat.add_comm] at h
      obtain ⟨t, rfl, ht⟩ := h.eq_cons
      have hpos := commentBody_seen cs
      rw [commentBody, ih t ht]
      · rintro hc rfl
        exact hstar hc (ht.symm.mono hpos : Agree (0 + 1) [] cs).eq_nil
      · rintro ds hc rfl
        obtain ⟨cs, rfl⟩ := ht.symm.head hpos
        exact hclose cs hc rfl
  used_le s := by
    fun_induction commentBody s with
    | case1 => exact Nat.zero_le _
    | case2 => exact Nat.le_succ 1
    | case3 => exact le_rfl
    | case4 c cs _ _ ih => exact Nat.add_le_add_left ih 1

/-- What comes of a comment that the text itself ends or leaves open. -/
def closeComment (valid : TokenSet) (state : State) (kind : CommentKind) (r : Reading BodyEnd) :
    Reading Outcome :=
  if r.value = .closed then r.accept { state with comment := none } kind.token
  else if valid.contains (.error .unterminatedComment) then
    r.accept { state with comment := none } (.error .unterminatedComment)
  else r.reject { state with comment := none }

theorem finishComment_eq (valid : TokenSet) (state : State) (kind : CommentKind) (n : Nat)
    (s : List Char) : finishComment valid false state kind n s
      = closeComment valid state kind ((commentBody (s.drop n)).after n) := by
  unfold finishComment closeComment
  generalize (commentBody (s.drop n)).after n = r
  obtain ⟨v, u, k⟩ := r
  cases v <;> rfl

theorem closeComment_seen (valid : TokenSet) (state : State) (kind : CommentKind)
    (r : Reading BodyEnd) : (closeComment valid state kind r).seen = r.seen := by
  rw [closeComment]
  split_ifs <;> rfl

theorem finishComment_local (valid : TokenSet) (state : State) (kind : CommentKind) (n : Nat) :
    Local (finishComment valid false state kind n) := by
  have heq := funext (finishComment_eq valid state kind n)
  rw [heq]
  refine (commentBody_local.after n).post (fun r => (closeComment_seen valid state kind r).symm.le)
    fun r hr => ?_
  rw [closeComment]
  split_ifs
  · exact hr
  · exact hr
  · exact Nat.zero_le _

/-- The characters that tell what a comment is: its opening mark, and outside JSON the stars
behind it. -/
def openingSeen (state : State) (s : List Char) : Nat :=
  if state.mode = .json then 2 else if s[2]? = some '*' then 4 else 3

/-- A block comment with a second star, but not the empty one. -/
def isDoc (state : State) (s : List Char) : Prop :=
  (state.mode ≠ .json ∧ s[2]? = some '*') ∧ s[3]? ≠ some '/'

instance (state : State) (s : List Char) : Decidable (isDoc state s) :=
  inferInstanceAs (Decidable (_ ∧ _))

def commentKind (valid : TokenSet) (state : State) (s : List Char) : CommentKind :=
  if isDoc state s ∧ valid.contains .docComment then .doc else .block

theorem comment_line (valid : TokenSet) (state : State) {s : List Char} (h : s[1]? = some '/') :
    comment valid false state s =
      if valid.contains .comment then
        ((skipWhile (fun c => !Text.endsLine c) (s.drop 2)).after 2).accept state .comment
      else ⟨⟨none, state⟩, 0, 2⟩ := by
  rw [comment, if_pos h]
  cases valid.contains .comment <;> simp

theorem comment_unless_line (valid : TokenSet) (bounded : Bool) (state : State) {s : List Char}
    (h : s[1]? ≠ some '/') : comment valid bounded state s =
      if (bounded && (⟨(), 0, openingSeen state s⟩ : Reading Unit).overran s)
          || !valid.contains (commentKind valid state s).token then
        ⟨⟨none, state⟩, 0, openingSeen state s⟩
      else (finishComment valid bounded state (commentKind valid state s) 2 s).seeing
        (openingSeen state s) := by
  have hseen : (if state.mode = .json then 2
      else if state.mode ≠ .json ∧ s[2]? = some '*' then 4 else 3) = openingSeen state s := by
    by_cases hj : state.mode = .json <;> simp [openingSeen, hj]
  have hkind : (if ((state.mode ≠ .json ∧ s[2]? = some '*') ∧ s[3]? ≠ some '/')
      ∧ valid.contains .docComment then CommentKind.doc else .block)
      = commentKind valid state s := rfl
  rw [comment, if_neg h]
  simp only [hseen, hkind]
  rfl

theorem comment_block (valid : TokenSet) (state : State) {s : List Char} (h : s[1]? ≠ some '/') :
    comment valid false state s =
      if valid.contains (commentKind valid state s).token then
        (finishComment valid false state (commentKind valid state s) 2 s).seeing
          (openingSeen state s)
      else ⟨⟨none, state⟩, 0, openingSeen state s⟩ := by
  rw [comment_unless_line valid false state h, Bool.false_and, Bool.false_or]
  cases valid.contains (commentKind valid state s).token <;> rfl

theorem openingSeen_congr (state : State) {s t : List Char}
    (h : Agree (openingSeen state s) s t) :
    openingSeen state t = openingSeen state s ∧ (isDoc state t ↔ isDoc state s) := by
  by_cases hj : state.mode = .json
  · simp [openingSeen, isDoc, hj]
  · have h3 : 3 ≤ openingSeen state s := by
      rw [openingSeen, if_neg hj]
      split <;> omega
    have h2 := h.getElem? (i := 2) h3
    rw [openingSeen, openingSeen, isDoc, isDoc, if_neg hj, if_neg hj, h2]
    refine ⟨rfl, ?_⟩
    by_cases hs : s[2]? = some '*'
    · have h4 : openingSeen state s = 4 := by rw [openingSeen, if_neg hj, if_pos hs]
      rw [h.getElem? (i := 3) (by omega)]
    · simp [hs]

theorem comment_seen (valid : TokenSet) (state : State) (s : List Char) :
    2 ≤ (comment valid false state s).seen := by
  by_cases hl : s[1]? = some '/'
  · rw [comment_line valid state hl]
    split
    · exact Nat.le_add_right _ _
    · exact le_rfl
  · have h2 : 2 ≤ openingSeen state s := by
      rw [openingSeen]
      split_ifs <;> omega
    rw [comment_block valid state hl]
    split
    · exact h2.trans (le_max_left _ _)
    · exact h2

theorem comment_local (valid : TokenSet) (state : State) : Local (comment valid false state) where
  same s t h := by
    have h1 : t[1]? = s[1]? := h.getElem? (comment_seen valid state s)
    by_cases hl : s[1]? = some '/'
    · rw [comment_line valid state hl] at h ⊢
      rw [comment_line valid state (h1.trans hl)]
      split at h
      · rename_i hv
        rw [if_pos hv, if_pos hv, (skipWhile_local _).same _ _ (h : Agree (2 + _) s t).drop]
      · rename_i hv
        rw [if_neg hv, if_neg hv]
    · rw [comment_block valid state hl] at h ⊢
      have hopen : Agree (openingSeen state s) s t := by
        split at h
        · exact h.mono (le_max_left _ _)
        · exact h
      obtain ⟨hseen, hdoc⟩ := openingSeen_congr state hopen
      have hkind : commentKind valid state t = commentKind valid state s := by
        simp only [commentKind, hdoc]
      rw [comment_block valid state (h1.trans_ne hl), hkind, hseen]
      split at h
      · rename_i hv
        rw [if_pos hv, if_pos hv,
          (finishComment_local valid state _ 2).same _ _ (h.mono (le_max_right _ _))]
      · rename_i hv
        rw [if_neg hv, if_neg hv]
  used_le s := by
    by_cases hl : s[1]? = some '/'
    · rw [comment_line valid state hl]
      split
      · exact Nat.add_le_add_left ((skipWhile_local _).used_le _) 2
      · exact Nat.zero_le _
    · rw [comment_block valid state hl]
      split
      · exact ((finishComment_local valid state _ 2).used_le s).trans (le_max_right _ _)
      · exact Nat.zero_le _

/-! ## Other tokens -/

theorem isNameStart_of_sign {c : Char} (h : isSign c || c == '.') : Text.isNameStart c = false := by
  simp only [isSign, Bool.or_eq_true, beq_iff_eq] at h
  rcases h with (rfl | rfl) | rfl <;> decide

theorem startsNumber_used (s : List Char) : (startsNumber s).used = 0 := by
  fun_cases startsNumber s <;> rfl

/-- A sign or a dot starts a number or is out of place. -/
def signed : Attempt Token.Kind := fun s =>
  if (startsNumber s).value then (number s).seeing (startsNumber s).seen
  else ⟨.error .unexpectedCharacter, 1, max 1 (startsNumber s).seen⟩

/-- The lexers that `plain` chooses from, each with what it knows of the first character. -/
theorem plain_forms {P : Attempt Token.Kind → Prop} (V : TokenSet) (mode : Mode) (c : Char)
    (punct : ∀ p, Punct.ofChar? c = some p → P fun _ => ⟨.ok (.punct p), 1, 1⟩)
    (string : c = '"' ∨ c = '\'' ∧ mode ≠ .json → P (string c))
    (quotedName : c = '\x60' → P quotedName) (atName : c = '@' → P atName)
    (number : c.isDigit → P number) (signed : isSign c || c == '.' → P signed)
    (word : Text.isNameStart c → P fun s => (word V s).map .ok)
    (stray : P fun _ => ⟨.error .unexpectedCharacter, 1, 1⟩) : P (plain V mode c) := by
  have choose {d : Prop} [Decidable d] {p q : Attempt Token.Kind} (hp : d → P p) (hq : ¬d → P q) :
      P fun s => if d then p s else q s := by
    by_cases hd : d
    · simpa only [if_pos hd] using hp hd
    · simpa only [if_neg hd] using hq hd
  unfold plain
  cases hp : Punct.ofChar? c with
  | some p => exact punct p hp
  | none =>
    refine choose (fun h => string (.inl h)) fun _ => choose (fun h => string (.inr h)) fun _ =>
      choose quotedName fun _ => choose atName fun _ => choose number fun _ => ?_
    by_cases hs : isSign c || c == '.'
    · simp only [if_pos hs, isNameStart_of_sign hs, Bool.false_eq_true, ↓reduceIte]
      exact signed hs
    · simp only [if_neg hs, Bool.false_eq_true, ↓reduceIte]
      exact choose word fun _ => stray

theorem signed_local : Local (α := Except LexError Token.Kind) signed := by
  have h := startsNumber_local.andThen (f := fun b => if b then number
    else fun _ => (⟨.error .unexpectedCharacter, 1, 1⟩ : Reading (Except LexError Token.Kind)))
    fun b => .ite number_local (.const _ le_rfl)
  refine cast (congrArg Local (funext fun s => ?_)) h
  rw [bind, startsNumber_used, signed]
  cases (startsNumber s).value
  · simp [Reading.after, Reading.seeing, Nat.max_comm]
  · simp [Reading.after, Reading.seeing]

theorem plain_local (valid : TokenSet) (mode : Mode) (c : Char) :
    Local (α := Except LexError Token.Kind) (plain valid mode c) :=
  plain_forms (P := Local (α := Except LexError Token.Kind)) valid mode c
    (fun _ _ => .const _ le_rfl) (fun _ => string_local c) (fun _ => quotedName_local)
    (fun _ => atName_local) (fun _ => number_local) (fun _ => signed_local)
    (fun _ => (word_local valid).map _) (.const _ le_rfl)

/-- What comes of a JSON value that was looked for first. -/
def valueOr (plain : Reading (Except LexError Token.Kind))
    (r : Reading (Option (Except LexError Token.Kind))) : Reading (Except LexError Token.Kind) :=
  match r.value with
  | some result => r.map fun _ => result
  | none => plain.seeing r.seen

theorem lexeme_local (cap : Nat) (valid : TokenSet) (state : State) (c : Char) :
    Local (α := Except LexError Token.Kind) (lexeme cap valid state c) := by
  have hv : Local (α := Except LexError Token.Kind) fun s =>
      valueOr (plain valid state.mode c s) (jsonValue (cap - state.depth) s) := by
    refine ⟨fun s t h => ?_, fun s => ?_⟩
    · have hr : (jsonValue (cap - state.depth) s).seen
          ≤ (valueOr (plain valid state.mode c s) (jsonValue (cap - state.depth) s)).seen := by
        rw [valueOr]
        split
        · exact le_rfl
        · exact le_max_left _ _
      rw [(jsonValue_local _).same _ _ (h.mono hr)]
      rw [valueOr] at h ⊢
      rw [valueOr]
      split at h
      · rfl
      · rw [(plain_local valid state.mode c).same _ _ (h.mono (le_max_right _ _))]
    · rw [valueOr]
      split
      · exact (jsonValue_local _).used_le s
      · exact ((plain_local valid state.mode c).used_le s).trans (le_max_right _ _)
  exact .cond hv (plain_local valid state.mode c)

/-- What comes of the text that starts with the character `c` when its token has been read. -/
def judge (cap : Nat) (valid : TokenSet) (state : State) (c : Char)
    (r : Reading (Except LexError Token.Kind)) : Reading Outcome :=
  let kind := kindOf r.value
  if !valid.contains kind || !valid.contains (track cap state kind).1 then r.reject state
  else r.accept { (track cap state kind).2 with mode := impliedMode state kind c }
    (track cap state kind).1

/-- Whether a text starts with the opening mark of a comment. -/
def startsComment (s : List Char) : Bool :=
  s.head? == some '/' && (s[1]? == some '/' || s[1]? == some '*')

theorem startsComment_cons (c : Char) (cs : List Char) : startsComment (c :: cs)
    = (c == '/' && (decide (cs.head? = some '/') || decide (cs.head? = some '*'))) := by
  rw [Bool.eq_iff_iff]
  simp [startsComment, List.head?_eq_getElem?]

theorem tokenHere_comment (cap : Nat) (valid : TokenSet) (state : State) {s : List Char}
    (h : startsComment s) : tokenHere cap valid false state s = comment valid false state s := by
  cases s with
  | nil => simp [startsComment] at h
  | cons c cs =>
    rw [startsComment_cons] at h
    rw [tokenHere, if_pos h]

theorem tokenHere_cons (cap : Nat) (valid : TokenSet) (state : State) {c : Char} {cs : List Char}
    (h : startsComment (c :: cs) = false) : tokenHere cap valid false state (c :: cs) =
      judge cap valid state c
        ((lexeme cap valid state c (c :: cs)).seeing (if c == '/' then 2 else 1)) := by
  rw [startsComment_cons] at h
  rw [tokenHere, if_neg (by rw [h]; exact Bool.false_ne_true)]
  rfl

theorem judge_seen (cap : Nat) (valid : TokenSet) (state : State) (c : Char)
    (r : Reading (Except LexError Token.Kind)) : (judge cap valid state c r).seen = r.seen := by
  rw [judge]
  split <;> rfl

theorem tokenHere_seen (cap : Nat) (valid : TokenSet) (state : State) (s : List Char) :
    0 < (tokenHere cap valid false state s).seen := by
  cases s with
  | nil =>
    rw [tokenHere]
    split <;> exact Nat.one_pos
  | cons c cs =>
    cases h : startsComment (c :: cs) with
    | true =>
      rw [tokenHere_comment cap valid state h]
      exact Nat.lt_of_lt_of_le Nat.two_pos (comment_seen valid state _)
    | false =>
      rw [tokenHere_cons cap valid state h, judge_seen, Reading.seeing_seen]
      split <;> omega

theorem judge_lexeme_local (cap : Nat) (valid : TokenSet) (state : State) (c : Char) (n : Nat) :
    Local fun s => judge cap valid state c ((lexeme cap valid state c s).seeing n) := by
  refine ((lexeme_local cap valid state c).seeing n).post (fun r => ?_) fun r hr => ?_
  · rw [judge_seen]
  · rw [judge]
    split
    · exact Nat.zero_le _
    · exact hr

theorem tokenHere_local (cap : Nat) (valid : TokenSet) (state : State) :
    Local (tokenHere cap valid false state) where
  same
    | [], t, h => by
      have hpos := tokenHere_seen cap valid state []
      rw [(h.mono hpos : Agree (0 + 1) [] t).eq_nil]
    | c :: s, t, h => by
      obtain ⟨t, rfl⟩ := h.head (tokenHere_seen cap valid state _)
      cases hc : startsComment (c :: s) with
      | true =>
        rw [tokenHere_comment cap valid state hc] at h ⊢
        have ht : startsComment (c :: t) := by
          rw [← hc, startsComment, startsComment, h.getElem? (comment_seen valid state _)]
          rfl
        rw [tokenHere_comment cap valid state ht, (comment_local valid state).same _ _ h]
      | false =>
        rw [tokenHere_cons cap valid state hc] at h ⊢
        have ht : startsComment (c :: t) = false := by
          by_cases hs : c == '/'
          · rw [judge_seen, Reading.seeing_seen, if_pos hs] at h
            have h1 := (h.mono (le_max_left _ _)).getElem? (i := 1) Nat.one_lt_two
            rw [← hc, startsComment, startsComment, h1]
            rfl
          · rw [startsComment_cons, Bool.eq_false_iff.2 hs, Bool.false_and]
        rw [tokenHere_cons cap valid state ht,
          (judge_lexeme_local cap valid state c _).same _ _ h]
  used_le
    | [] => by
      rw [tokenHere]
      split <;> exact Nat.zero_le _
    | c :: s => by
      cases hc : startsComment (c :: s) with
      | true =>
        rw [tokenHere_comment cap valid state hc]
        exact (comment_local valid state).used_le _
      | false =>
        rw [tokenHere_cons cap valid state hc]
        exact (judge_lexeme_local cap valid state c _).used_le _

/-- How many blanks a text starts with. -/
def blanks (s : List Char) : Nat :=
  (s.takeWhile Text.isSpace).length

/-- A token behind `n` blanks. -/
def behindBlanks (n : Nat) (r : Reading Outcome) : Reading Outcome :=
  match r.value.found with
  | none => (r.after n).back
  | some t => (r.after n).map fun out => { out with found := some ⟨n, t.kind⟩ }

theorem token_eq (cap : Nat) (valid : TokenSet) {state : State} (h : state.comment = none)
    (s : List Char) : token cap valid false state s
      = behindBlanks (blanks s) (tokenHere cap valid false state (s.drop (blanks s))) := by
  rw [token, h]
  simp only [skipWhile_eq]
  rfl

theorem behindBlanks_seen (n : Nat) (r : Reading Outcome) :
    (behindBlanks n r).seen = n + r.seen := by
  rw [behindBlanks]
  split <;> rfl

theorem token_local (cap : Nat) (valid : TokenSet) (state : State) :
    Local (token cap valid false state) := by
  cases hc : state.comment with
  | some kind =>
    rw [show token cap valid false state = fun s => if valid.contains kind.token then
        finishComment valid false state kind 0 s else ⟨⟨none, state⟩, 0, 0⟩ by
      funext s
      rw [token, hc]]
    exact .cond (finishComment_local valid state kind 0) (.const _ le_rfl)
  | none =>
    rw [funext (token_eq cap valid hc)]
    refine ⟨fun s t h => ?_, fun s => ?_⟩
    · have hpos := tokenHere_seen cap valid state (s.drop (blanks s))
      rw [behindBlanks_seen] at h
      have hb : blanks t = blanks s := by
        have h1 : Agree (blanks s + 1) s t := h.mono (by omega)
        exact congrArg List.length h1.takeWhile_eq
      rw [hb, (tokenHere_local cap valid state).same _ _ h.drop]
    · have hle := (tokenHere_local cap valid state).used_le (s.drop (blanks s))
      rw [behindBlanks]
      split
      · exact Nat.zero_le _
      · exact Nat.add_le_add_left hle _

end Lexer

end AvroTree
