import AvroTree.Proofs.Running

/-!
# What nesting takes of a text

Every open bracket has used up a character that opens one, and every type inside an array, a map or
a union has used up the word in front of it. So the brackets a lexer has open and those that the
text in front of it can still open never grow in number together (`Stand.next_room`); it finds
itself too deep only when they are more than it may keep open (`Stand.room_of_tooDeep`).
-/

namespace AvroTree

open Token (Kind)

namespace Text

/-- The characters that open a bracket. -/
def openingMarks : List Char :=
  ['\x7b', '[', '(', '<']

/-- How many brackets a text can open. -/
def opens (cs : List Char) : Nat :=
  cs.countP openingMarks.contains

/-- The words behind which a type holds other types. -/
def nestingWords : List Keyword :=
  [.array, .map, .union]

/-- Whether a text starts with a word, no letter of a longer one behind it. -/
def startsWord (w : List Char) (cs : List Char) : Bool :=
  w.isPrefixOf cs && !(cs.drop w.length).head?.any isNamePart

/-- How often the words for types that hold others stand in a text. A word counts whatever stands in
front of it, letters too, since a token may end inside a run of name characters: `1map` is a number
and a word, and a JSON string that breaks off behind a bad escape, as `"\qarray` does in an
annotation, leaves a word to be read. -/
def nestings : List Char → Nat
  | [] => 0
  | c :: cs =>
    (if nestingWords.any fun w => startsWord w.spelling.toList (c :: cs) then 1 else 0)
      + nestings cs

theorem opens_cons_of_mem {c : Char} (h : c ∈ openingMarks) (cs : List Char) :
    opens (c :: cs) = opens cs + 1 := by
  rw [opens, List.countP_cons_of_pos (List.contains_iff_mem.2 h), opens]

theorem opens_suffix {a b : List Char} (h : a <:+ b) : opens a ≤ opens b :=
  h.sublist.countP_le

theorem nestings_suffix : ∀ {a b : List Char}, a <:+ b → nestings a ≤ nestings b
  | a, [], h => by rw [List.suffix_nil.1 h]
  | a, c :: b, h => by
    rcases List.suffix_cons_iff.1 h with rfl | h
    · exact le_refl _
    · exact (nestings_suffix h).trans (Nat.le_add_left _ _)

end Text

namespace Bracket

theorem opens_of_openedBy? {p : Punct} {c : Char} (hc : Punct.ofChar? c = some p)
    (h : openedBy? p ≠ none) : c ∈ Text.openingMarks := by
  have hp : p.char = c := by
    have := List.find?_some hc
    simpa using this
  subst hp
  revert h
  cases p <;> decide

end Bracket

namespace Lexer

open Text (opens nestings opens_cons_of_mem)

/-! ## Inside a JSON value -/

theorem jsonStringRest_shallow (s : List Char) :
    (jsonStringRest s).value ≠ .error .depthExceeded := by
  fun_induction jsonStringRest s with
  | case6 | case9 | case11 =>
    rename_i ih
    exact ih
  | _ => simp

theorem jsonNumber_shallow : Shallow jsonNumber :=
  numeral_shallow (jsonNumber_numeral (.given (.lift _)))

/-- What a piece of a JSON value leaves: the brackets that are open behind it and those that the
rest of the text can open are no more than before. A bracket is refused only for want of room. -/
def Piece.Fits (room : Nat) (stack : List Bracket) (s : List Char) (r : Reading Piece) : Prop :=
  match r.value with
  | .more _ stack' | .complete stack' =>
    stack'.length + opens (s.drop r.used) ≤ stack.length + opens s
  | .misplaced e => e = .depthExceeded → room < stack.length + opens s
  | .faulty e => e ≠ .depthExceeded
  | .bareWord => True

section Pieces

variable {room : Nat} {stack : List Bracket} {s : List Char}

theorem opens_drop_le (n : Nat) (s : List Char) : opens (s.drop n) ≤ opens s :=
  Text.opens_suffix (List.drop_suffix n s)

theorem attempt_fits {p : Attempt Unit} {good : Piece} (hp : Shallow p)
    (hgood : ∀ n, Piece.Fits room stack s ⟨good, n, 0⟩) :
    Piece.Fits room stack s ((p s).map (.ofAttempt good)) := by
  have hs := hp s
  rcases hv : (p s).value with e | u
  · rw [hv] at hs
    simp only [Piece.Fits, Reading.map_value, hv, Piece.ofAttempt]
    rintro rfl
    exact hs rfl
  · have := hgood (p s).used
    simp only [Piece.Fits, Reading.map_value, hv, Piece.ofAttempt] at this ⊢
    exact this

theorem jsonString_shallow : Shallow jsonString :=
  fun s => jsonStringRest_shallow (s.drop 1)

theorem valuePiece_fits (s : List Char) : Piece.Fits room stack s (valuePiece room stack s) := by
  have hkept (n : Nat) (s : List Char) : Piece.Fits room stack s ⟨.complete stack, n, 0⟩ :=
    Nat.add_le_add_left (opens_drop_le n s) _
  cases s with
  | nil => simp [valuePiece, Piece.Fits]
  | cons c cs =>
    rw [valuePiece]
    split_ifs with hopen hroom hbrace hquote hnumber hletter
    · intro _
      have hmem : c ∈ Text.openingMarks := by rcases hopen with rfl | rfl <;> decide
      rw [opens_cons_of_mem hmem]
      omega
    · have hmem : c ∈ Text.openingMarks := by rcases hopen with rfl | rfl <;> decide
      simp only [Piece.Fits, opens_cons_of_mem hmem, List.length_cons, List.drop_succ_cons,
        List.drop_zero]
      omega
    · have hmem : c ∈ Text.openingMarks := by rcases hopen with rfl | rfl <;> decide
      simp only [Piece.Fits, opens_cons_of_mem hmem, List.length_cons, List.drop_succ_cons,
        List.drop_zero]
      omega
    · exact attempt_fits jsonString_shallow (hkept · _)
    · exact attempt_fits jsonNumber_shallow (hkept · _)
    · dsimp only
      split_ifs
      · exact hkept _ _
      · trivial
    · simp [Piece.Fits]

theorem piece_fits (room : Nat) (expect : Expect) (stack : List Bracket) (s : List Char) :
    Piece.Fits room stack s (piece room expect stack s) := by
  have hkept (e : Expect) (n : Nat) (s : List Char) :
      Piece.Fits room stack s ⟨.more e stack, n, 0⟩ :=
    Nat.add_le_add_left (opens_drop_le n s) _
  have hclosed (n : Nat) (s : List Char) :
      Piece.Fits room stack s ⟨.complete stack.tail, n, 1⟩ := by
    have hlen : stack.tail.length ≤ stack.length := by simp
    exact Nat.add_le_add hlen (opens_drop_le n s)
  cases s with
  | nil => simp [piece, Piece.Fits]
  | cons c cs =>
    cases expect with
    | value => exact valuePiece_fits _
    | valueOrClose =>
      rw [piece]
      split_ifs
      · exact hclosed 1 _
      · exact valuePiece_fits _
    | keyOrClose =>
      rw [piece]
      split_ifs
      · exact attempt_fits jsonString_shallow (hkept .colon · _)
      · exact hclosed 1 _
      · simp [Piece.Fits]
    | colon =>
      rw [piece]
      split_ifs
      · exact hkept .value 1 _
      · simp [Piece.Fits]
    | commaOrClose =>
      rw [piece]
      split_ifs
      · exact hkept .keyOrClose 1 _
      · exact hkept .valueOrClose 1 _
      · exact hclosed 1 _
      · simp [Piece.Fits]

theorem pieces_tooDeep : ∀ {steps : List Char} {expect : Expect} {stack : List Bracket}
    {s : List Char}, (pieces room steps expect stack s).value = .error .depthExceeded →
      room < stack.length + opens s
  | [], _, _, _, h => by simp [pieces] at h
  | _ :: steps, expect, stack, s, h => by
    have hskip : (skipWhile Text.isJsonSpace s).used ≤ s.length := by
      rw [skipWhile_eq]
      exact (List.takeWhile_prefix _).length_le
    generalize hn : (skipWhile Text.isJsonSpace s).used = n at hskip
    have hfits := piece_fits room expect stack (s.drop n)
    have hdrop := opens_drop_le n s
    unfold pieces at h
    simp only [bind, hn, Reading.seeing_value, Reading.after_value, Reading.seeing_used,
      Reading.after_used] at h
    generalize piece room expect stack (s.drop n) = r at h hfits
    rw [Piece.Fits] at hfits
    split at h
    · rename_i e st hv
      simp only [hv, List.drop_drop] at hfits
      have := pieces_tooDeep h
      omega
    · simp at h
    · rename_i st _ hv
      simp only [hv, List.drop_drop] at hfits
      have := pieces_tooDeep h
      omega
    · rename_i e hv
      simp only [hv] at hfits
      simp only [Reading.map_value, Except.error.injEq] at h
      have := hfits h
      omega
    · rename_i e hv
      simp only [hv] at hfits
      simp only [Reading.map_value, Except.error.injEq] at h
      exact absurd h hfits
    · simp at h

/-- A JSON value is too deep only when the text can open more brackets than there is room for. -/
theorem jsonValue_tooDeep (h : (jsonValue room s).value = some (.error .depthExceeded)) :
    room < opens s := by
  have hfits := piece_fits room .value [] s
  unfold jsonValue at h
  simp only [] at h
  generalize piece room .value [] s = r at h hfits
  rw [Piece.Fits] at hfits
  have hgo {expect : Expect} {stack : List Bracket}
      (hle : stack.length + opens (s.drop r.used) ≤ opens s)
      (hv : (pieces room (' ' :: s) expect stack (s.drop r.used)).value.map
        (fun _ => Kind.jsonSpan) = .error .depthExceeded) : room < opens s := by
    rcases hp : (pieces room (' ' :: s) expect stack (s.drop r.used)).value with e | u
    · rw [hp] at hv
      cases hv
      exact (pieces_tooDeep hp).trans_le hle
    · rw [hp] at hv
      cases hv
  split at h
  · rename_i e st hv
    simp only [hv, List.length_nil, Nat.zero_add] at hfits
    simp only [Reading.map_value, Reading.seeing_value, Reading.after_value, Option.some.injEq] at h
    exact hgo hfits h
  · simp at h
  · rename_i st _ hv
    simp only [hv, List.length_nil, Nat.zero_add] at hfits
    simp only [Reading.map_value, Reading.seeing_value, Reading.after_value, Option.some.injEq] at h
    exact hgo hfits h
  · rename_i e hv
    simp only [hv, List.length_nil, Nat.zero_add] at hfits
    simp only [Option.some.injEq, Except.error.injEq] at h
    exact hfits h
  · rename_i e hv
    simp only [hv] at hfits
    simp only [Reading.map_value, Option.some.injEq, Except.error.injEq] at h
    exact absurd h hfits
  · simp at h

end Pieces

/-! ## Between two tokens -/

section Tokens

variable {cap : Nat} {V : TokenSet} {state : State} {c : Char} {cs : List Char}

theorem closeComment_kind {kind : CommentKind} {r : Reading BodyEnd} {f : Found}
    (h : (closeComment V state kind r).value.found = some f) : f.kind ≠ .error .depthExceeded := by
  unfold closeComment at h
  split_ifs at h
  · cases h
    cases kind <;> simp [CommentKind.token]
  · cases h
    simp
  · cases h

theorem comment_shallow {s : List Char} {f : Found}
    (h : (comment V false state s).value.found = some f) : f.kind ≠ .error .depthExceeded := by
  by_cases hline : s[1]? = some '/'
  · rw [comment_line V state hline] at h
    split_ifs at h
    · cases h
      simp
  · rw [comment_block V state hline] at h
    split_ifs at h
    · rw [finishComment_eq] at h
      exact closeComment_kind h

/-- A token that is neither comment nor end is what the lexer of its first character has read. -/
theorem Stand.next_cases {p : Stand} {t : Scanned} (hp : p.Sound cap)
    (h : p.token? cap V = some t) :
    (p.next cap V).state = p.state ∧ t.token.kind ≠ .error .depthExceeded
      ∨ ∃ c cs, ahead p.rest = c :: cs
        ∧ t.token.kind = (track cap p.state (kindOf (lexeme cap V p.state c (c :: cs)).value)).1
        ∧ (p.next cap V).state.stack
          = (track cap p.state (kindOf (lexeme cap V p.state c (c :: cs)).value)).2.stack
        ∧ (p.next cap V).rest = (c :: cs).drop (lexeme cap V p.state c (c :: cs)).used := by
  obtain ⟨f, hf, rfl⟩ := exists_found h
  have hread : p.reading cap V
      = behindBlanks (blanks p.rest) (tokenHere cap V false p.state (ahead p.rest)) :=
    token_eq cap V hp.comment p.rest
  change _ ∧ f.kind ≠ _ ∨ ∃ c cs, _ ∧ f.kind = _ ∧ _
  rw [hread, behindBlanks] at hf
  cases hahead : ahead p.rest with
  | nil =>
    left
    rw [hahead] at hf hread
    rw [next, hread, behindBlanks]
    rw [tokenHere] at hf ⊢
    split_ifs at hf ⊢
    · cases hf
      exact ⟨rfl, by simp⟩
    · cases hf
  | cons c cs =>
    rw [hahead] at hf hread
    cases hs : startsComment (c :: cs) with
    | true =>
      left
      rw [tokenHere_comment cap V p.state hs] at hf hread
      cases hfound : (comment V false p.state (c :: cs)).value.found with
      | none => simp [hfound] at hf
      | some g =>
        simp only [hfound, Reading.map_value, Option.some.injEq] at hf
        subst hf
        have hkind : g.kind ≠ .error .depthExceeded := comment_shallow hfound
        refine ⟨?_, hkind⟩
        rw [next, hread, behindBlanks, hfound]
        exact comment_state hp V (c :: cs)
    | false =>
      right
      refine ⟨c, cs, rfl, ?_⟩
      rw [tokenHere_cons cap V p.state hs] at hf hread
      rcases judge_cases cap V p.state c
        ((lexeme cap V p.state c (c :: cs)).seeing (if c == '/' then 2 else 1)) with hj | hj
      · rw [hj] at hf
        cases hf
      · rw [hj] at hf hread
        cases hf
        refine ⟨rfl, by rw [next, hread]; rfl, ?_⟩
        rw [next, hread, ← hahead, ahead, List.drop_drop]
        rfl

theorem lexeme_opening {p : Punct}
    (h : (lexeme cap V state c (c :: cs)).value = .ok (.punct p)) : Punct.ofChar? c = some p := by
  rw [lexeme] at h
  split_ifs at h
  · dsimp only at h
    split at h
    · rename_i result hv
      simp only [Reading.map_value] at h
      subst h
      exact absurd (jsonValue_gives hv) (by simp)
    · exact ofChar?_of_plain h
  · exact ofChar?_of_plain h

theorem lexeme_tooDeep (hroom : state.depth ≤ cap)
    (h : kindOf (lexeme cap V state c (c :: cs)).value = .error .depthExceeded) :
    cap < state.depth + opens (c :: cs) := by
  have hplain := plain_shallow V state.mode c (c :: cs)
  rw [lexeme] at h
  split_ifs at h
  · dsimp only at h
    split at h
    · rename_i result hv
      simp only [Reading.map_value] at h
      cases result with
      | ok k =>
        rw [jsonValue_gives hv] at h
        cases h
      | error e =>
        cases h
        have := jsonValue_tooDeep hv
        omega
    · exact absurd h hplain
  · exact absurd h hplain

theorem opens_drop_lt (h : c ∈ Text.openingMarks) {n : Nat} (hn : 0 < n) :
    opens ((c :: cs).drop n) < opens (c :: cs) := by
  obtain ⟨m, rfl⟩ := Nat.exists_eq_succ_of_ne_zero hn.ne'
  have := opens_drop_le m cs
  rw [List.drop_succ_cons, opens_cons_of_mem h]
  omega

/-- What one token does to the brackets that are open. -/
theorem track_room (V : TokenSet) (c : Char) (cs : List Char) (hroom : state.depth ≤ cap) :
    (track cap state (kindOf (lexeme cap V state c (c :: cs)).value)).2.depth
        + opens ((c :: cs).drop (lexeme cap V state c (c :: cs)).used)
      ≤ state.depth + opens (c :: cs)
    ∧ ((track cap state (kindOf (lexeme cap V state c (c :: cs)).value)).1 = .error .depthExceeded →
      cap < state.depth + opens (c :: cs)) := by
  have hused := lexeme_used cap V state c cs
  have hle := opens_drop_le (lexeme cap V state c (c :: cs)).used (c :: cs)
  have hdeep : kindOf (lexeme cap V state c (c :: cs)).value = .error .depthExceeded →
      cap < state.depth + opens (c :: cs) := lexeme_tooDeep hroom
  cases hk : kindOf (lexeme cap V state c (c :: cs)).value with
  | punct p =>
    have hv : (lexeme cap V state c (c :: cs)).value = .ok (.punct p) := by
      cases hr : (lexeme cap V state c (c :: cs)).value with
      | ok k => rw [hr] at hk; rw [← hk]; rfl
      | error e => rw [hr] at hk; cases hk
    have hc := lexeme_opening hv
    rw [track]
    split
    · rename_i b hb
      have hlt : opens ((c :: cs).drop (lexeme cap V state c (c :: cs)).used) < opens (c :: cs) :=
        opens_drop_lt (Bracket.opens_of_openedBy? hc (by simp [hb])) hused
      split_ifs with hcap
      · exact ⟨by simp only; omega, fun _ => by omega⟩
      · refine ⟨?_, by simp⟩
        simp only [State.depth, List.length_cons] at hroom ⊢
        omega
    · rename_i b _ _
      have := state.close_depth b
      exact ⟨by simp only; omega, by simp⟩
    · exact ⟨by simp only; omega, by simp⟩
  | error e =>
    rw [track.eq_2 _ _ _ (by simp)]
    refine ⟨by simp only; omega, fun he => hdeep ?_⟩
    rw [hk]
    exact he
  | _ => exact ⟨by simp only [track]; omega, by simp [track]⟩

theorem nameRest_ends (s : List Char) (h : (nameRest s).value = false) :
    (s.drop (nameRest s).used).head?.any Text.isNamePart = false := by
  fun_induction nameRest s with
  | case1 => rfl
  | case2 c cs hc ih =>
    rw [Reading.after_used, Nat.add_comm, List.drop_succ_cons]
    exact ih h
  | case3 hc => simpa using hc
  | case4 => simp at h
  | case5 d ds hd hc => simpa using hc
  | case6 c cs hc => simpa using hc

theorem word_keyword {w : Keyword} {s : List Char} (h : (word V s).value = .keyword w) :
    Text.startsWord w.spelling.toList s := by
  rw [word, Reading.map_value] at h
  cases hdot : (nameRest s).value with
  | true => simp [hdot] at h
  | false =>
    simp only [hdot, Bool.false_eq_true, if_false] at h
    rw [wordKind] at h
    split at h
    · rename_i k hk
      split_ifs at h
      · cases h
        have hspell : w.spelling = String.ofList (s.take (nameRest s).used) := by
          simpa using List.find?_some hk
        have hlist : w.spelling.toList = s.take (nameRest s).used := by
          rw [hspell, String.toList_ofList]
        have hdrop : s.drop (s.take (nameRest s).used).length = s.drop (nameRest s).used := by
          rcases Nat.le_total (nameRest s).used s.length with hle | hle
          · rw [List.length_take_of_le hle]
          · rw [List.take_of_length_le hle, List.drop_length, List.drop_eq_nil_of_le hle]
        rw [Text.startsWord, hlist, hdrop, nameRest_ends s hdot]
        simp [List.take_prefix]
    · cases h

theorem plain_keyword {mode : Mode} {w : Keyword} {s : List Char}
    (h : (plain V mode c s).value = .ok (.keyword w)) : Text.startsWord w.spelling.toList s := by
  revert h
  refine plain_choice
    (P := fun r => r.value = .ok (.keyword w) → Text.startsWord w.spelling.toList s)
    V mode c s nofun (fun _ hv => (string_gives c).other hv nofun)
    (fun _ hv => quotedName_gives.other hv nofun)
    (fun _ hv => atName_gives.other hv nofun)
    (fun _ _ hv => number_gives.other hv nofun) (fun _ hv => ?_) nofun
  · simp only [Reading.map_value, Except.ok.injEq] at hv
    exact word_keyword hv

theorem lexeme_keyword {w : Keyword} {s : List Char}
    (h : (lexeme cap V state c s).value = .ok (.keyword w)) :
    Text.startsWord w.spelling.toList s := by
  rw [lexeme] at h
  split_ifs at h
  · dsimp only at h
    split at h
    · rename_i result hv
      simp only [Reading.map_value] at h
      subst h
      exact absurd (jsonValue_gives hv) (by simp)
    · exact plain_keyword h
  · exact plain_keyword h

namespace Stand

variable {p : Stand} {t : Scanned}

theorem next_suffix (cap : Nat) (V : TokenSet) (p : Stand) : (p.next cap V).rest <:+ p.rest :=
  List.drop_suffix _ _

theorem past_rest (p : Stand) (k : Kind) (c : Char) (n : Nat) :
    (p.past cap k c n).rest = (ahead p.rest).drop n := by
  rw [past, ahead, List.drop_drop]

theorem ahead_suffix (s : List Char) : ahead s <:+ s :=
  List.drop_suffix _ _

/-- The brackets that are open and those that can still be opened do not become more. -/
theorem next_room (hp : p.Sound cap) (h : p.token? cap V = some t) :
    (p.next cap V).state.depth + opens (p.next cap V).rest ≤ p.state.depth + opens p.rest := by
  have hsuffix := Text.opens_suffix (next_suffix cap V p)
  rcases next_cases hp h with ⟨hstate, -⟩ | ⟨c, cs, hahead, -, hstack, hrest⟩
  · rw [hstate]
    omega
  · have hroom := (track_room V c cs hp.depth).1
    have hle := Text.opens_suffix (hahead ▸ ahead_suffix p.rest)
    rw [State.depth, hstack, hrest]
    exact hroom.trans (Nat.add_le_add_left hle _)

theorem room_of_tooDeep (hp : p.Sound cap) (h : p.token? cap V = some t)
    (hk : t.token.kind = .error .depthExceeded) : cap < p.state.depth + opens p.rest := by
  rcases next_cases hp h with ⟨-, hne⟩ | ⟨c, cs, hahead, hkind, -, -⟩
  · exact absurd hk hne
  · have hroom := (track_room V c cs hp.depth).2 (hkind ▸ hk)
    have hle := Text.opens_suffix (hahead ▸ ahead_suffix p.rest)
    omega

/-- An opening bracket is gone from the text behind it. -/
theorem next_opens (hp : p.Sound cap) (h : p.token? cap V = some t) {q : Punct}
    (hk : t.token.kind = .punct q) (hq : Bracket.openedBy? q ≠ none) :
    opens (p.next cap V).rest < opens p.rest := by
  obtain ⟨c, cs, hahead, hread, -, hnext, -⟩ :=
    past_of_token? hp h (by rw [hk]; rfl) (by rw [hk]; rfl)
  rw [hk] at hread
  have hmem := Bracket.opens_of_openedBy? (lexeme_opening hread) hq
  have hlt : opens ((c :: cs).drop (lexeme cap V p.state c (c :: cs)).used) < opens (c :: cs) :=
    opens_drop_lt hmem (lexeme_used cap V p.state c cs)
  have hle := Text.opens_suffix (hahead ▸ ahead_suffix p.rest)
  rw [hnext, past_rest, hahead]
  omega

/-- So is a word for a type that holds others. -/
theorem next_nestings (hp : p.Sound cap) (h : p.token? cap V = some t) {w : Keyword}
    (hk : t.token.kind = .keyword w) (hw : w ∈ Text.nestingWords) :
    nestings (p.next cap V).rest < nestings p.rest := by
  obtain ⟨c, cs, hahead, hread, -, hnext, -⟩ :=
    past_of_token? hp h (by rw [hk]; rfl) (by rw [hk]; rfl)
  rw [hk] at hread
  have hstarts : Text.nestingWords.any fun w => Text.startsWord w.spelling.toList (c :: cs) :=
    List.any_eq_true.2 ⟨w, hw, lexeme_keyword hread⟩
  have hcons : nestings (c :: cs) = 1 + nestings cs := by
    rw [nestings, if_pos hstarts]
  obtain ⟨n, hn⟩ := Nat.exists_eq_succ_of_ne_zero (lexeme_used cap V p.state c cs).ne'
  have hle := Text.nestings_suffix (hahead ▸ ahead_suffix p.rest)
  have hdrop := Text.nestings_suffix (List.drop_suffix n cs)
  rw [hnext, past_rest, hahead, hn, List.drop_succ_cons]
  omega

end Stand

end Tokens

end Lexer

end AvroTree
