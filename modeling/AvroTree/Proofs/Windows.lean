import AvroTree.Proofs.Relexing

/-!
# Reading through windows

A window shows the lexer only the beginning of what is left. Either the lexer wants to see more
than the window has, or it finds the token of the whole text, or it finds a fragment of a comment
that the window cuts off (`Through`). A fragment joined to what a lexer reads behind it is the whole
comment again, so the joined fragments of a text are its stream, whatever the windows were.
-/

namespace AvroTree

open Location (behind)
open Text (size)

namespace Text

theorem takeBytes_prefix : ∀ (cs : List Char) (n : Nat),
    ∃ out, cs = takeBytes cs n ++ out ∧ size (takeBytes cs n) ≤ n
  | [], _ => ⟨[], rfl, Nat.zero_le _⟩
  | c :: cs, n => by
    rw [takeBytes]
    split
    · obtain ⟨out, hout, hle⟩ := takeBytes_prefix cs (n - c.utf8Size)
      exact ⟨out, by rw [List.cons_append, ← hout], by rw [size_cons]; omega⟩
    · exact ⟨c :: cs, rfl, Nat.zero_le _⟩

theorem Agree.append_right {n : Nat} {a : List Char} (h : n ≤ a.length) (b : List Char) :
    Agree n a (a ++ b) := by
  rw [Agree, List.take_append_of_le_length h]

end Text

namespace Lexer

variable {cap : Nat} {state : State} {w out : List Char}

/-! ## Comments in a window -/

theorem commentBody_cons {c : Char} {cs : List Char}
    (h : c = '*' → ∃ d ds, cs = d :: ds ∧ d ≠ '/') :
    commentBody (c :: cs) = (commentBody cs).after 1 := by
  rw [commentBody]
  · rintro rfl rfl
    simpa using h rfl
  · rintro ds rfl rfl
    simpa using h rfl

theorem commentBody_used {s : List Char} (h : s ≠ []) : 0 < (commentBody s).used := by
  fun_cases commentBody s <;> simp at h ⊢

/-- How much of the body of an open comment surely belongs to it: a last star may be half of the
closing mark. -/
def bodyKept (s : List Char) : Nat :=
  if (commentBody s).value = .cutAtStar then s.length - 1 else s.length

/-- An open body uses up the text, and it wanted to see more. -/
theorem commentBody_open {s : List Char} (h : (commentBody s).value ≠ .closed) :
    (commentBody s).used = s.length ∧ (commentBody s).seen = s.length + 1 := by
  fun_induction commentBody s with
  | case3 => exact absurd rfl h
  | case4 c cs _ _ ih =>
    obtain ⟨hu, hs⟩ := ih h
    simp [hu, hs]
    omega
  | _ => simp

theorem commentBody_star {s : List Char} (h : (commentBody s).value = .cutAtStar) :
    ∃ front, s = front ++ ['*'] := by
  fun_induction commentBody s with
  | case2 => exact ⟨[], rfl⟩
  | case4 c cs _ _ ih =>
    obtain ⟨front, rfl⟩ := ih h
    exact ⟨c :: front, rfl⟩
  | _ => simp at h

theorem commentBody_closed {s : List Char} (h : (commentBody s).value = .closed) :
    (commentBody s).seen = (commentBody s).used ∧ (commentBody s).used ≤ s.length := by
  fun_induction commentBody s with
  | case4 c cs _ _ ih =>
    obtain ⟨hs, hu⟩ := ih h
    simp only [Reading.after_seen, Reading.after_used, List.length_cons]
    omega
  | _ => simp at h ⊢

/-- Behind the part of an open body that is kept the body goes on as if it began there. -/
theorem commentBody_append (h : (commentBody w).value ≠ .closed) (out : List Char) :
    commentBody (w ++ out)
      = (commentBody ((w ++ out).drop (bodyKept w))).after (bodyKept w) := by
  have after_zero (r : Reading BodyEnd) : r.after 0 = r := by
    simp [Reading.after]
  fun_induction commentBody w with
  | case1 => simp [bodyKept, commentBody, after_zero]
  | case2 => simp [bodyKept, commentBody, after_zero]
  | case3 => simp at h
  | case4 c cs hstar hclose ih =>
    have hcons : c = '*' → ∃ d ds, cs = d :: ds ∧ d ≠ '/' := by
      intro hc
      cases cs with
      | nil => exact (hstar hc rfl).elim
      | cons d ds => exact ⟨d, ds, rfl, fun hd => hclose ds hc (by rw [hd])⟩
    have hmore : c = '*' → ∃ d ds, cs ++ out = d :: ds ∧ d ≠ '/' := by
      intro hc
      obtain ⟨d, ds, rfl, hd⟩ := hcons hc
      exact ⟨d, ds ++ out, rfl, hd⟩
    have hkept : bodyKept (c :: cs) = bodyKept cs + 1 := by
      unfold bodyKept
      rw [commentBody_cons hcons, Reading.after_value]
      split
      · rename_i hs
        obtain ⟨front, rfl⟩ := commentBody_star hs
        simp
      · rfl
    rw [hkept, List.cons_append, List.drop_succ_cons, commentBody_cons hmore, ih h]
    simp only [Reading.after, Reading.mk.injEq, true_and]
    omega

/-- What comes of a block comment behind `b` blanks by the end of its body. -/
def ended (state : State) (k : CommentKind) (b : Nat) (e : BodyEnd) : Outcome where
  found := some ⟨b, if e = .closed then k.token else .error .unterminatedComment⟩
  state := { state with comment := none }

theorem contains_comment (k : CommentKind) : TokenSet.lexical.contains k.token := by
  rw [TokenSet.contains_lexical]
  cases k <;> rfl

theorem finishComment_whole (state : State) (k : CommentKind) (n : Nat) (s : List Char) :
    finishComment .lexical false state k n s
      = ((commentBody (s.drop n)).after n).map (ended state k 0) := by
  have herr : TokenSet.lexical.contains (.error .unterminatedComment) := by
    rw [TokenSet.contains_lexical]
    rfl
  rw [finishComment_eq, closeComment, if_pos herr, Reading.after_value]
  split <;> simp [Reading.accept, Reading.map, ended, *]

/-- What comes of a comment that the window cuts off when `n` characters of it are kept. -/
def cutComment (state : State) (k : CommentKind) (n seen : Nat) : Reading Outcome :=
  if n = 0 then ⟨⟨none, state⟩, 0, seen⟩
  else ⟨⟨some ⟨0, k.token⟩, { state with comment := some k }⟩, n, seen⟩

theorem finishComment_window {valid : TokenSet} (state : State) (k : CommentKind) {n : Nat}
    (hn : n ≤ w.length) : finishComment valid true state k n w =
      if (commentBody (w.drop n)).value = .closed then
        ((commentBody (w.drop n)).after n).map (ended state k 0)
      else cutComment state k (n + bodyKept (w.drop n)) (w.length + 1) := by
  have hopen := fun h => commentBody_open (s := w.drop n) h
  have hstar := fun h => commentBody_star (s := w.drop n) h
  unfold finishComment bodyKept
  generalize commentBody (w.drop n) = r at hopen hstar ⊢
  obtain ⟨v, u, m⟩ := r
  cases v with
  | closed => simp [Reading.accept, Reading.map, ended]
  | cut =>
    obtain ⟨hu, hm⟩ := hopen (by simp)
    simp only [List.length_drop] at hu hm ⊢
    subst hu hm
    simp only [Reading.after, reduceCtorEq, ↓reduceIte, cutComment]
    split <;> simp [Reading.reject, Reading.accept, Reading.map, Reading.back] <;> omega
  | cutAtStar =>
    obtain ⟨hu, hm⟩ := hopen (by simp)
    obtain ⟨front, hfront⟩ := hstar rfl
    have hlen := congrArg List.length hfront
    simp only [List.length_drop, List.length_append, List.length_singleton] at hu hm hlen ⊢
    subst hu hm
    simp only [Reading.after, reduceCtorEq, ↓reduceIte, cutComment]
    rw [show n + (w.length - n) - 1 = n + (w.length - n - 1) by omega]
    split <;> simp [Reading.reject, Reading.accept, Reading.map, Reading.back] <;> omega

/-- What a lexer reads through the window `w`, in front of the text `out`: it wants to see more, or
it finds the token of the whole text, or a fragment of a comment whose body goes on behind it. -/
inductive Through (state : State) (w out : List Char) (r whole : Reading Outcome) : Prop
  | narrow (value : r.value = ⟨none, state⟩) (used : r.used = 0) (seen : w.length < r.seen)
  | complete (seen : r.seen ≤ w.length) (same : whole = r) (closed : r.value.state.comment = none)
  | fragment (k : CommentKind) (b : Nat)
      (value : r.value = ⟨some ⟨b, k.token⟩, { state with comment := some k }⟩)
      (pos : 0 < r.used) (le : r.used ≤ w.length) (seen : r.seen = w.length + 1)
      (goes : whole = ((commentBody ((w ++ out).drop r.used)).after r.used).map (ended state k b))
      (further : w.length < whole.seen)

theorem commentBody_further (h : (commentBody w).value ≠ .closed) (hout : out ≠ []) :
    w.length < bodyKept w + (commentBody ((w ++ out).drop (bodyKept w))).seen := by
  obtain ⟨d, ds, rfl⟩ := List.exists_cons_of_ne_nil hout
  unfold bodyKept
  split
  · rename_i hs
    obtain ⟨front, rfl⟩ := commentBody_star hs
    have hseen : 2 ≤ (commentBody ('*' :: d :: ds)).seen := by
      by_cases hd : d = '/'
      · simp [hd, commentBody]
      · have := commentBody_seen (d :: ds)
        rw [commentBody_cons fun _ => ⟨d, ds, rfl, hd⟩, Reading.after_seen]
        omega
    simp only [List.length_append, List.length_singleton, Nat.add_sub_cancel, List.append_assoc,
      List.drop_left, List.cons_append, List.nil_append]
    omega
  · have := commentBody_seen (d :: ds)
    rw [List.drop_left]
    omega

theorem finishComment_through (state : State) (k : CommentKind) {n : Nat} (hn : n ≤ w.length)
    (hout : out ≠ []) :
    Through state w out (finishComment .lexical true state k n w)
      (finishComment .lexical false state k n (w ++ out)) := by
  rw [finishComment_whole, List.drop_append_of_le_length hn]
  by_cases hclosed : (commentBody (w.drop n)).value = .closed
  · obtain ⟨hseen, hused⟩ := commentBody_closed hclosed
    rw [finishComment_window state k hn, if_pos hclosed]
    rw [List.length_drop] at hused
    refine .complete ?_ ?_ rfl
    · simp only [Reading.map_seen, Reading.after_seen]
      omega
    · rw [commentBody_local.same _ _ (Text.Agree.append_right (by simp; omega) out)]
  · have hkept : bodyKept (w.drop n) ≤ w.length - n := by
      unfold bodyKept
      rw [List.length_drop]
      split <;> omega
    rw [finishComment_window state k hn, if_neg hclosed, commentBody_append hclosed, cutComment]
    split
    · exact .narrow rfl rfl (Nat.lt_succ_self _)
    · refine .fragment k 0 rfl (by simp; omega) (by simp; omega) rfl ?_ ?_
      · rw [← List.drop_append_of_le_length hn, List.drop_drop]
        simp only [Reading.after, Reading.map, Reading.mk.injEq, true_and]
        omega
      · have := commentBody_further hclosed hout
        simp only [List.length_drop, Reading.map_seen, Reading.after_seen] at this ⊢
        omega

namespace Through

variable {r whole : Reading Outcome}

theorem seeing (h : Through state w out r whole) {n : Nat} (hn : n ≤ w.length) :
    Through state w out (r.seeing n) (whole.seeing n) := by
  rcases h with ⟨hv, hu, hs⟩ | ⟨hs, rfl, hc⟩ | ⟨k, b, hv, hpos, hle, hs, hgoes, hfar⟩
  · exact .narrow hv hu (hs.trans_le (le_max_right _ _))
  · exact .complete (by simp [hn, hs]) rfl hc
  · have hwhole : whole.seeing n = whole := by
      simp only [Reading.seeing, max_eq_right (by omega : n ≤ whole.seen)]
    rw [hwhole]
    exact .fragment k b hv hpos hle (by simp [hs]; omega) hgoes hfar

/-- A lexer that has seen nothing but the window answers for the whole text. -/
theorem of_local {p : Lexer Outcome} (hp : Local p) (hseen : (p w).seen ≤ w.length)
    (hc : (p w).value.state.comment = none) : Through state w out (p w) (p (w ++ out)) :=
  .complete hseen (hp.same _ _ (.append_right hseen out)) hc

end Through

theorem Through.seen_pos {r whole : Reading Outcome} (h : Through state w out r whole)
    (hwhole : 0 < whole.seen) : 0 < r.seen := by
  rcases h with ⟨-, -, hs⟩ | ⟨-, rfl, -⟩ | ⟨-, -, -, -, -, hs⟩ <;> omega

theorem comment_line_window (hl : w[1]? = some '/') :
    comment .lexical true state w =
      if w.length < (comment .lexical false state w).seen then
        (comment .lexical false state w).reject state
      else comment .lexical false state w := by
  have hv : TokenSet.lexical.contains .comment := contains_comment .block
  rw [comment_line .lexical state hl, if_pos hv, comment, if_pos hl]
  simp only [hv, Bool.not_true, Bool.false_eq_true, ↓reduceIte, Bool.true_and, Reading.overran,
    decide_eq_true_eq]
  rfl

theorem comment_block_window (hl : w[1]? ≠ some '/') :
    comment .lexical true state w =
      if w.length < openingSeen state w then ⟨⟨none, state⟩, 0, openingSeen state w⟩
      else (finishComment .lexical true state (commentKind .lexical state w) 2 w).seeing
        (openingSeen state w) := by
  rw [comment_unless_line .lexical true state hl]
  simp only [Reading.overran, contains_comment, Bool.true_and, Bool.not_true, Bool.or_false,
    decide_eq_true_eq]

theorem comment_through (hstate : state.comment = none) (hw : 2 ≤ w.length) (hout : out ≠ []) :
    Through state w out (comment .lexical true state w)
      (comment .lexical false state (w ++ out)) := by
  have h1 : (w ++ out)[1]? = w[1]? := List.getElem?_append_left hw
  by_cases hl : w[1]? = some '/'
  · rw [comment_line_window hl]
    split
    · exact .narrow rfl rfl ‹_›
    · refine .of_local (comment_local .lexical state) (Nat.le_of_not_lt ‹_›) ?_
      have hsound : state.Sound state.depth := ⟨hstate, le_rfl⟩
      rw [comment_state hsound, hstate]
  · rw [comment_block_window hl]
    split
    · exact .narrow rfl rfl ‹_›
    · rename_i hlen
      have hagree := Text.Agree.append_right (Nat.le_of_not_lt hlen) out
      obtain ⟨hseen, hdoc⟩ := openingSeen_congr state hagree
      have hkind : commentKind .lexical state (w ++ out) = commentKind .lexical state w := by
        simp only [commentKind, hdoc]
      rw [comment_block .lexical state (h1.trans_ne hl), hkind, hseen, if_pos (contains_comment _)]
      exact (finishComment_through state _ hw hout).seeing (Nat.le_of_not_lt hlen)

/-! ## Tokens in a window -/

theorem tokenHere_window {c : Char} {cs : List Char} (h : startsComment (c :: cs) = false) :
    tokenHere cap .lexical true state (c :: cs) =
      if (c :: cs).length < (tokenHere cap .lexical false state (c :: cs)).seen then
        (tokenHere cap .lexical false state (c :: cs)).reject state
      else tokenHere cap .lexical false state (c :: cs) := by
  rw [tokenHere_cons cap .lexical state h, judge_seen]
  rw [startsComment_cons] at h
  rw [tokenHere, if_neg (by rw [h]; exact Bool.false_ne_true)]
  simp only [Bool.true_and, Reading.overran]
  generalize (lexeme cap .lexical state c (c :: cs)).seeing (if c == '/' then 2 else 1) = r
  by_cases hlen : (c :: cs).length < r.seen
  · simp only [hlen, decide_true, Bool.true_or, ↓reduceIte]
    rcases judge_cases cap .lexical state c r with hj | hj <;> rw [hj] <;> rfl
  · simp only [hlen, decide_false, Bool.false_or, ↓reduceIte]
    rfl

theorem tokenHere_through (hs : state.Sound cap) (hout : out ≠ []) :
    Through state w out (tokenHere cap .lexical true state w)
      (tokenHere cap .lexical false state (w ++ out)) := by
  cases w with
  | nil => exact .narrow rfl rfl Nat.one_pos
  | cons c cs =>
    cases hc : startsComment (c :: cs) with
    | true =>
      have hw : 2 ≤ (c :: cs).length := by
        cases cs with
        | nil => simp [startsComment] at hc
        | cons d ds => simp
      have hc' : startsComment (c :: cs ++ out) := by
        rw [← hc, startsComment, startsComment, List.getElem?_append_left hw]
        rfl
      rw [tokenHere_comment cap .lexical state hc']
      rw [startsComment_cons] at hc
      rw [tokenHere, if_pos hc]
      exact comment_through hs.comment hw hout
    | false =>
      rw [tokenHere_window hc]
      split
      · exact .narrow rfl rfl ‹_›
      · exact .of_local (tokenHere_local cap .lexical state) (Nat.le_of_not_lt ‹_›)
          (tokenHere_state hs .lexical _).comment

/-- What a lexer reads through a window when it comes to the blanks first. -/
theorem token_through (hs : state.Sound cap) (hout : out ≠ []) :
    Through state w out (token cap .lexical true state w)
      (token cap .lexical false state (w ++ out)) := by
  have heq : token cap .lexical true state w
      = behindBlanks (blanks w) (tokenHere cap .lexical true state (w.drop (blanks w))) := by
    rw [token, hs.comment]
    simp only [skipWhile_eq]
    rfl
  have hle : blanks w ≤ w.length := (List.takeWhile_prefix _).length_le
  have hsame (h : blanks w < w.length) : token cap .lexical false state (w ++ out)
      = behindBlanks (blanks w)
        (tokenHere cap .lexical false state (w.drop (blanks w) ++ out)) := by
    have hb : blanks (w ++ out) = blanks w :=
      congrArg List.length (Text.Agree.append_right h out).takeWhile_eq
    rw [token_eq cap .lexical hs.comment, hb, List.drop_append_of_le_length hle]
  rw [heq]
  have hthrough := tokenHere_through (w := w.drop (blanks w)) hs hout
  generalize tokenHere cap .lexical true state (w.drop (blanks w)) = r at hthrough ⊢
  rcases hthrough with
    ⟨hv, hu, hseen⟩ | ⟨hseen, hwhole, hc⟩ | ⟨k, b, hv, hpos, hlen, hseen, hgoes, hfar⟩
  · rw [List.length_drop] at hseen
    refine .narrow ?_ ?_ (by rw [behindBlanks_seen]; omega) <;> simp [behindBlanks, hv]
  · have hpos := tokenHere_seen cap .lexical state (w.drop (blanks w) ++ out)
    rw [hwhole] at hpos
    rw [List.length_drop] at hseen
    rw [hsame (by omega), hwhole]
    refine .complete (by rw [behindBlanks_seen]; omega) rfl ?_
    rw [← hc, behindBlanks]
    split <;> rfl
  · rw [List.length_drop] at hlen hseen hfar
    rw [hsame (by omega), hgoes]
    rw [hgoes] at hfar
    refine .fragment k (blanks w) (by simp [behindBlanks, hv]) (by simp [behindBlanks, hv, hpos])
      (by simp [behindBlanks, hv]; omega) (by rw [behindBlanks_seen]; omega) ?_ ?_
    · have hused : (behindBlanks (blanks w) r).used = blanks w + r.used := by
        simp [behindBlanks, hv]
      rw [hused, ← List.drop_append_of_le_length hle, List.drop_drop]
      simp only [behindBlanks, ended, Reading.map, Reading.after, Nat.add_assoc]
      rfl
    · rw [behindBlanks_seen]
      simp only [Reading.map_seen, Reading.after_seen] at hfar ⊢
      omega

theorem token_pending {k : CommentKind} (hk : state.comment = some k) (bounded : Bool)
    (s : List Char) :
    token cap .lexical bounded state s = finishComment .lexical bounded state k 0 s := by
  rw [token, hk]
  exact if_pos (contains_comment k)

end Lexer

/-! ## Steps of a cursor -/

namespace Cursor

/-- Where a cursor stands, whatever its window shows and whatever it has examined. -/
structure At (pre rest : List Char) (c : Cursor) : Prop where
  place : c.place = .behind pre
  rest_eq : c.rest = rest
  size_eq : c.size = Text.size (pre ++ rest)

/-- A cursor whose window shows `w` and ends in front of `out`. -/
structure Shows (pre w out : List Char) (c : Cursor) : Prop where
  stands : c.At pre (w ++ out)
  window : c.window = w
  bounded : c.isBounded = !out.isEmpty

variable {pre rest w out : List Char} {c : Cursor}

theorem At.byte_eq (h : c.At pre rest) : c.place.byte = Text.size pre := by
  rw [h.place, Location.behind_byte]

theorem At.start (text : String) : (start text).At [] text.toList := by
  rw [start_eq]
  exact ⟨rfl, rfl, rfl⟩

/-- Wherever the window is set to end it shows a beginning of what is left, and all of it if it is
large enough. -/
theorem At.exists_shows (h : c.At pre rest) (n : Nat) :
    ∃ w out, rest = w ++ out ∧ (c.setLimit (c.place.byte + n)).Shows pre w out
      ∧ (Text.size rest ≤ n → out = []) := by
  have hsize := h.size_eq
  rw [Text.size_append] at hsize
  by_cases hn : Text.size rest ≤ n
  · have hlimit : c.setLimit (c.place.byte + n) = { c with limit := c.size } := by
      rw [setLimit, if_pos (by rw [hsize, h.byte_eq]; omega)]
    refine ⟨rest, [], by simp, ?_, fun _ => rfl⟩
    rw [hlimit]
    refine ⟨⟨h.place, by simp [h.rest_eq], by simp [h.size_eq]⟩, ?_, ?_⟩ <;>
      simp [window, isBounded, h.rest_eq]
  · obtain ⟨out, hout, hle⟩ := Text.takeBytes_prefix rest n
    have hlimit : c.setLimit (c.place.byte + n)
        = { c with limit := c.place.byte + Text.size (Text.takeBytes rest n) } := by
      rw [setLimit, if_neg (by rw [hsize, h.byte_eq]; omega), h.rest_eq, Nat.add_sub_cancel_left]
    rw [hlimit]
    generalize Text.takeBytes rest n = w at hout hle
    subst hout
    have hne : out ≠ [] := by
      rintro rfl
      rw [List.append_nil] at hn
      exact hn hle
    have hlt : c.place.byte + Text.size w < c.size := by
      have := mt Text.size_eq_zero.1 hne
      rw [hsize, h.byte_eq, Text.size_append]
      omega
    refine ⟨w, out, rfl, ⟨⟨h.place, h.rest_eq, h.size_eq⟩, ?_, ?_⟩, fun h => absurd h hn⟩
    · simp only [window, isBounded, hlt, decide_true, ↓reduceIte, h.rest_eq,
        Nat.add_sub_cancel_left, Text.takeBytes_append]
    · simpa [isBounded, hlt] using hne

/-- Who has examined more than `a` has examined something behind it. -/
theorem reach_past {a : List Char} {n : Nat} (h : a.length < n) (b : List Char) :
    reach a (a.length + 1) ≤ reach (a ++ b) n := by
  obtain ⟨k, rfl⟩ := Nat.exists_eq_add_of_lt h
  have hpos : 0 < reach b (k + 1) := reach_pos b (Nat.succ_pos k)
  have hone : reach [] 1 = 1 := rfl
  rw [Nat.add_assoc, reach_add _ le_rfl, reach_add _ (by simp), List.take_length, List.drop_length,
    List.take_left, List.drop_left, hone]
  omega

end Cursor

namespace Lexer

namespace Stand

variable (p : Stand) (r : Reading Outcome)

/-- The stand behind what has been read. -/
def behind : Stand where
  state := r.value.state
  pre := p.pre ++ p.rest.take r.used
  rest := p.rest.drop r.used

/-- The token `f` read through the window `w`, with its surroundings. -/
def shown (w : List Char) (f : Found) : Scanned where
  token := ⟨f.kind, .behind (p.pre ++ p.rest.take f.blanks), .behind (p.behind r).pre⟩
  valid := .lexical
  before := p.state.encode
  after := r.value.state.encode
  lookahead := size p.pre + Cursor.reach w r.seen

end Stand

/-- A step through a window gives what the lexer reads in it. -/
theorem step_shows {p : Stand} {c : Cursor} {r : Reading Outcome} (hrest : p.rest = w ++ out)
    (hc : c.Shows p.pre w out)
    (hr : r = token cap .lexical (!out.isEmpty) p.state w) (hpos : 0 < r.seen) :
    ∃ c', step cap .lexical p.state c = (r.value.found.map (p.shown r w), r.value.state, c')
      ∧ c'.At (p.behind r).pre (p.behind r).rest
      ∧ c'.hitLimit = (!out.isEmpty && decide (w.length < r.seen)) := by
  have hwindow : c.beginScan.window = w := hc.window
  have hbounded : c.beginScan.isBounded = !out.isEmpty := hc.bounded
  have hplace : c.beginScan.place = Location.behind p.pre := hc.stands.place
  have hleft : c.beginScan.rest = p.rest := hc.stands.rest_eq.trans hrest.symm
  have hlook : c.beginScan.lookahead = size p.pre := hc.stands.byte_eq
  have hsize : c.beginScan.size = size (p.pre ++ p.rest) := by
    rw [hrest]
    exact hc.stands.size_eq
  refine ⟨(c.beginScan.examine r.seen).skip r.used, ?_, ⟨?_, ?_, ?_⟩, ?_⟩
  · rw [step, Cursor.scan, hc.bounded]
    simp only [Cursor.run, hwindow, ← hr, Option.map_map]
    refine Prod.ext ?_ rfl
    dsimp only
    congr 1
    funext f
    simp only [Stand.shown, Stand.behind, Function.comp_apply, Cursor.skip, Cursor.examine, hplace,
      hleft, hwindow, hlook, hpos.ne', ↓reduceIte, Location.behind_append, Location.behind_byte,
      max_eq_right (Nat.le_add_right _ _)]
  · simp [Cursor.skip, Cursor.examine, hplace, hleft, Stand.behind, Location.behind_append]
  · simp [Cursor.skip, Cursor.examine, hleft, Stand.behind]
  · simp only [Cursor.skip, Cursor.examine, hsize, Stand.behind, List.append_assoc,
      List.take_append_drop]
  · simp only [Cursor.skip, Cursor.examine, hbounded, hwindow]
    rfl

namespace Stand

/-- A stand that a lexer may come to through windows: in a comment there is always more to read. -/
structure Midway (cap : Nat) (p : Stand) : Prop where
  depth : p.state.depth ≤ cap
  pending : p.state.comment = none ∨ p.rest ≠ []

variable {p q : Stand} {t u : Scanned}

theorem through (hp : p.Midway cap) (hrest : p.rest = w ++ out) (hout : out ≠ []) :
    Through p.state w out (token cap .lexical true p.state w) (p.reading cap .lexical) := by
  rw [reading, hrest]
  cases hk : p.state.comment with
  | none => exact token_through ⟨hk, hp.depth⟩ hout
  | some k =>
    rw [token_pending hk, token_pending hk]
    exact finishComment_through p.state k (Nat.zero_le _) hout

theorem reading_pending {k : CommentKind} (hk : p.state.comment = some k) :
    p.reading cap .lexical = (commentBody p.rest).map (ended p.state k 0) := by
  rw [reading, token_pending hk, finishComment_whole]
  simp [Reading.after]

theorem token?_pending {k : CommentKind} (hk : p.state.comment = some k)
    (h : p.token? cap .lexical = some t) : t.token.kind ≠ .eof := by
  obtain ⟨f, hf, rfl⟩ := exists_found h
  rw [reading_pending hk] at hf
  obtain rfl := Option.some.inj hf
  simp only [scanned]
  split
  · cases k <;> simp [CommentKind.token]
  · simp

theorem lexical_seen (p : Stand) : 0 < (p.reading cap .lexical).seen := by
  cases hk : p.state.comment with
  | none => exact token_seen cap .lexical hk p.rest
  | some k =>
    rw [reading_pending hk]
    exact commentBody_seen p.rest

theorem Midway.lexical_isSome (hp : p.Midway cap) : (p.token? cap .lexical).isSome := by
  cases hk : p.state.comment with
  | none => exact Stand.lexical_isSome ⟨hk, hp.depth⟩
  | some k =>
    rw [token?, Option.isSome_map, reading_pending hk]
    rfl

/-- What is read through a window: the next token, or a fragment `t` of a comment that goes on at
`q`. -/
inductive Gives (cap : Nat) (p : Stand) (t : Scanned) (q : Stand) : Prop
  | token (found : p.token? cap .lexical = some t) (next : q = p.next cap .lexical)
  | fragment (pending : q.state.comment.isSome) (midway : q.Midway cap)
      (kind : t.token.kind ≠ .eof) (less : q.rest.length < p.rest.length)
      (next : p.next cap .lexical = q.next cap .lexical)
      (join : ∀ u, q.token? cap .lexical = some u → p.token? cap .lexical = some (t.join u))

/-- A fragment joined to what is read behind it is the whole comment. -/
theorem gives_fragment {r : Reading Outcome} {k : CommentKind} {b : Nat} (hp : p.Midway cap)
    (hrest : p.rest = w ++ out) (hout : out ≠ [])
    (hv : r.value = ⟨some ⟨b, k.token⟩, { p.state with comment := some k }⟩) (hpos : 0 < r.used)
    (hle : r.used ≤ w.length) (hseen : r.seen = w.length + 1)
    (hgoes : p.reading cap .lexical
      = ((commentBody (p.rest.drop r.used)).after r.used).map (ended p.state k b))
    (hfar : w.length < (p.reading cap .lexical).seen) :
    p.Gives cap (p.shown r w ⟨b, k.token⟩) (p.behind r) := by
  have hlen : w.length < p.rest.length := by
    have := List.length_pos_iff.2 hout
    rw [hrest, List.length_append]
    omega
  have hq : (p.behind r).state.comment = some k := by
    simp only [behind, hv]
  obtain ⟨body, hbody⟩ : ∃ body, commentBody (p.rest.drop r.used) = body := ⟨_, rfl⟩
  rw [hbody] at hgoes
  have hq' : (p.behind r).reading cap .lexical = body.map (ended p.state k 0) := by
    rw [reading_pending hq, behind, hv, ← hbody]
    rfl
  have hnext : p.next cap .lexical = (p.behind r).next cap .lexical := by
    rw [next, next, hgoes, hq']
    simp only [behind, Reading.map_used, Reading.after_used, List.append_assoc, List.take_add,
      List.drop_drop]
    rfl
  refine .fragment (by simp [hq]) ⟨?_, .inr ?_⟩ ?_ ?_ hnext fun u hu => ?_
  · rw [State.depth, behind, hv]
    exact hp.depth
  · simp only [behind, ne_eq, List.drop_eq_nil_iff]
    omega
  · cases k <;> simp [shown, CommentKind.token]
  · simp only [behind, List.length_drop]
    omega
  · obtain ⟨f, hf, rfl⟩ := exists_found hu
    rw [hq'] at hf
    obtain rfl := Option.some.inj hf
    have hfar' : Cursor.reach w r.seen ≤ Cursor.reach p.rest (r.used + body.seen) := by
      have hn : w.length < r.used + body.seen := by
        rwa [hgoes] at hfar
      rw [hseen, hrest]
      exact Cursor.reach_past hn out
    have hlook : max (size p.pre + Cursor.reach w r.seen)
        (size (p.behind r).pre + Cursor.reach (p.behind r).rest body.seen)
        = size p.pre + Cursor.reach p.rest (r.used + body.seen) := by
      rw [Cursor.reach_add _ (by omega)] at hfar' ⊢
      simp only [behind, Text.size_append]
      omega
    rw [token?, hgoes]
    simp only [Reading.map_value, Option.map_some, Reading.after_value, ended]
    congr 1
    simp only [scanned, shown, Scanned.join, hnext, hgoes, hq', Reading.map_seen,
      Reading.after_seen, hlook, Scanned.mk.injEq, Token.mk.injEq, and_true]
    have hk : k.token.isError = false := by
      cases k <;> rfl
    have he : (Token.Kind.error .unterminatedComment).isError = true := rfl
    by_cases hc : body.value = .closed <;> simp [hc, hk, he]

/-- A token that needed no more than the window is the token of the whole text. -/
theorem shown_reading {f : Found} (hrest : p.rest = w ++ out)
    (hseen : (p.reading cap .lexical).seen ≤ w.length) :
    p.shown (p.reading cap .lexical) w f = p.scanned cap .lexical f := by
  have hreach : Cursor.reach w (p.reading cap .lexical).seen
      = Cursor.reach p.rest (p.reading cap .lexical).seen := by
    rw [Cursor.reach_eq_size hseen, Cursor.reach_eq_size (by rw [hrest]; simp; omega), hrest,
      List.take_append_of_le_length hseen]
  rw [shown, scanned, hreach]
  rfl

/-- A step through a window wants to see more, or gives the next token or a fragment of it. -/
theorem step_window {c : Cursor} (hp : p.Midway cap) (hc : c.At p.pre p.rest) (n : Nat) :
    (∃ c', step cap .lexical p.state (c.setLimit (c.place.byte + n)) = (none, p.state, c')
        ∧ c'.At p.pre p.rest ∧ c'.hitLimit ∧ n < size p.rest)
      ∨ ∃ t q c', step cap .lexical p.state (c.setLimit (c.place.byte + n)) = (some t, q.state, c')
        ∧ c'.At q.pre q.rest ∧ p.Gives cap t q := by
  obtain ⟨w, out, hrest, hshows, hlarge⟩ := hc.exists_shows n
  rcases eq_or_ne out [] with rfl | hout
  · obtain ⟨t, ht⟩ := Option.isSome_iff_exists.1 hp.lexical_isSome
    rw [List.append_nil] at hrest
    obtain ⟨c', hstep, hat, -⟩ := step_shows (r := p.reading cap .lexical)
      (by rw [hrest, List.append_nil]) hshows (by rw [reading, hrest]; rfl) p.lexical_seen
    refine .inr ⟨t, p.next cap .lexical, c', ?_, hat, .token ht rfl⟩
    rw [hstep, ← hrest]
    exact Prod.ext ht rfl
  have hopen : (!out.isEmpty) = true := by
    simpa using hout
  have hthrough := through hp hrest hout
  have hpos := hthrough.seen_pos p.lexical_seen
  obtain ⟨r, hr⟩ : ∃ r, token cap .lexical true p.state w = r := ⟨_, rfl⟩
  rw [hr] at hthrough hpos
  obtain ⟨c', hstep, hat, hlimit⟩ := step_shows hrest hshows (by rw [hopen, hr]) hpos
  rw [hopen] at hlimit
  rcases hthrough with ⟨hv, hu, hs⟩ | ⟨hs, hwhole, -⟩ | ⟨k, b, hv, hused, hle, hs, hgoes, hfar⟩
  · refine .inl ⟨c', by rw [hstep, hv]; rfl, ?_, by simp [hlimit, hs], ?_⟩
    · simpa [behind, hu] using hat
    · exact Nat.lt_of_not_le fun h => hout (hlarge h)
  · obtain ⟨t, ht⟩ := Option.isSome_iff_exists.1 hp.lexical_isSome
    have hnext : p.next cap .lexical = p.behind r := by
      rw [← hwhole]
      rfl
    refine .inr ⟨t, p.next cap .lexical, c', ?_, hnext ▸ hat, .token ht rfl⟩
    obtain ⟨f, hf, rfl⟩ := exists_found ht
    rw [hstep, ← hwhole, hf, ← shown_reading hrest (by rw [hwhole]; exact hs)]
    rfl
  · have hf : r.value.found = some ⟨b, k.token⟩ := by
      rw [hv]
    refine .inr ⟨_, _, c', by rw [hstep, hf]; rfl, hat,
      gives_fragment hp hrest hout hv hused hle hs (hrest ▸ hgoes) hfar⟩

end Stand

/-! ## The loops of a pass -/

/-- One token through windows that are doubled as long as the end of one is in the way. Nothing
bounds how often. -/
inductive Widened (cap : Nat) :
    State → Cursor → Nat → Option Scanned × State × Cursor → Prop
  | found {state state' : State} {c c' : Cursor} {extent : Nat} {t : Scanned}
      (h : step cap .lexical state (c.setLimit (c.place.byte + extent)) = (some t, state', c')) :
      Widened cap state c extent (some t, state', c')
  | stuck {state state' : State} {c c' : Cursor} {extent : Nat}
      (h : step cap .lexical state (c.setLimit (c.place.byte + extent)) = (none, state', c'))
      (hc : c'.hitLimit = false) : Widened cap state c extent (none, state', c')
  | wider {state state' : State} {c c' : Cursor} {extent : Nat}
    {r : Option Scanned × State × Cursor}
      (h : step cap .lexical state (c.setLimit (c.place.byte + extent)) = (none, state', c'))
      (hc : c'.hitLimit) (rest : Widened cap state' c' (extent * 2) r) :
      Widened cap state c extent r

/-- The fragments of a pass through windows of `chunk` bytes, up to the end of the text. Nothing
bounds their number. -/
inductive Windowed (cap chunk : Nat) : State → Cursor → List (Bool × Scanned) → Prop
  | stuck {state state' : State} {c c' : Cursor}
      (h : Widened cap state c chunk (none, state', c')) : Windowed cap chunk state c []
  | stop {state state' : State} {c c' : Cursor} {t : Scanned}
      (h : Widened cap state c chunk (some t, state', c')) (ht : t.token.kind = .eof) :
      Windowed cap chunk state c [(state.comment.isSome, t)]
  | more {state state' : State} {c c' : Cursor} {t : Scanned} {fs : List (Bool × Scanned)}
      (h : Widened cap state c chunk (some t, state', c')) (ht : t.token.kind ≠ .eof)
      (rest : Windowed cap chunk state' c' fs) :
      Windowed cap chunk state c ((state.comment.isSome, t) :: fs)

variable {p q : Stand} {c : Cursor} {t u v : Scanned}

theorem setLimit_size (hc : c.At p.pre p.rest) {extent : Nat} (h : size p.rest ≤ extent) :
    c.setLimit c.size = c.setLimit (c.place.byte + extent) := by
  have hsize := hc.size_eq
  rw [Text.size_append, ← hc.byte_eq] at hsize
  rw [Cursor.setLimit, if_pos le_rfl, Cursor.setLimit, if_pos (by omega)]

/-- Doubling a window as often as there are bytes left makes it large enough. -/
theorem stepInWindow_gives : ∀ {n extent : Nat} {c : Cursor}, p.Midway cap → c.At p.pre p.rest →
    0 < extent → size p.rest < extent + n →
    ∃ t q c', stepInWindow cap p.state c n extent = (some t, q.state, c')
      ∧ Widened cap p.state c extent (some t, q.state, c') ∧ c'.At q.pre q.rest ∧ p.Gives cap t q
  | 0, extent, c, hp, hc, he, hn => by
    rw [stepInWindow, setLimit_size hc (Nat.le_of_lt hn)]
    rcases Stand.step_window hp hc extent with ⟨-, -, -, -, h⟩ | ⟨t, q, c', h, hat, hg⟩
    · omega
    · exact ⟨t, q, c', h, .found h, hat, hg⟩
  | n + 1, extent, c, hp, hc, he, hn => by
    rw [stepInWindow]
    rcases Stand.step_window hp hc extent with ⟨c₁, h, hat₁, hlim, -⟩ | ⟨t, q, c', h, hat, hg⟩
    · obtain ⟨t, q, c', hstep, hwide, hat, hg⟩ :=
        stepInWindow_gives hp hat₁ (by omega : 0 < extent * 2)
          (by omega : size p.rest < extent * 2 + n)
      refine ⟨t, q, c', ?_, .wider h hlim hwide, hat, hg⟩
      simpa [h, hlim] using hstep
    · exact ⟨t, q, c', by rw [h], .found h, hat, hg⟩

/-! ## Joining -/

theorem join_assoc (t u v : Scanned) : (t.join u).join v = t.join (u.join v) := by
  simp only [Scanned.join, Nat.max_assoc, Scanned.mk.injEq, Token.mk.injEq, and_true]
  split
  · simp [*]
  · split <;> simp_all

/-- Whatever the fragments of the first token are joined to, the others stay. -/
theorem joinFrom_join (u : Scanned) (fs : List (Bool × Scanned)) :
    ∃ v vs, joinFrom u fs = v :: vs ∧ ∀ t : Scanned, joinFrom (t.join u) fs = t.join v :: vs := by
  induction fs generalizing u with
  | nil => exact ⟨u, [], rfl, fun _ => rfl⟩
  | cons f fs ih =>
    obtain ⟨flag, w⟩ := f
    cases flag with
    | false => exact ⟨u, joinFrom w fs, rfl, fun _ => rfl⟩
    | true =>
      obtain ⟨v, vs, hv, hjoin⟩ := ih (u.join w)
      exact ⟨v, vs, hv, fun t => by rw [joinFrom, join_assoc, hjoin]⟩

namespace Stand

theorem Midway.next_sound (hp : p.Midway cap) : (p.next cap .lexical).Sound cap := by
  cases hk : p.state.comment with
  | none => exact Stand.next_sound ⟨hk, hp.depth⟩
  | some k =>
    rw [next, reading_pending hk]
    exact ⟨rfl, hp.depth⟩

theorem Sound.midway (hp : p.Sound cap) : p.Midway cap :=
  ⟨hp.depth, .inl hp.comment⟩

theorem Midway.next_lt (hp : p.Midway cap) (h : p.token? cap .lexical = some t)
    (ht : t.token.kind ≠ .eof) : (p.next cap .lexical).rest.length < p.rest.length := by
  cases hk : p.state.comment with
  | none => exact Stand.next_lt ⟨hk, hp.depth⟩ h ht
  | some k =>
    have hne : p.rest ≠ [] := by
      simpa [hk] using hp.pending
    have hused := commentBody_used hne
    have hlen := List.length_pos_iff.2 hne
    rw [next, reading_pending hk, Reading.map_used, List.length_drop]
    omega

theorem Gives.stream {fs : List (Bool × Scanned)} (hp : p.Midway cap) (hg : p.Gives cap t q)
    (hne : t.token.kind ≠ .eof) (hs : Stream cap q (joinFrom u fs)) :
    Stream cap p (joinFrom t ((q.state.comment.isSome, u) :: fs)) := by
  rcases hg with ⟨ht, rfl⟩ | ⟨hpending, -, hk, -, hnext, hjoin⟩
  · rw [hp.next_sound.comment]
    exact .more ht hne hs
  obtain ⟨k, hq⟩ := Option.isSome_iff_exists.1 hpending
  obtain ⟨v, vs, hv, hjoined⟩ := joinFrom_join u fs
  rw [hpending, joinFrom, hjoined]
  rw [hv] at hs
  cases hs with
  | stop htv hkv => exact absurd hkv (token?_pending hq htv)
  | more htv hkv hrest =>
    refine .more (hjoin v htv) ?_ (hnext ▸ hrest)
    simp only [Scanned.join]
    split <;> assumption

theorem Gives.midway (hp : p.Midway cap) (hg : p.Gives cap t q) : q.Midway cap := by
  rcases hg with ⟨-, rfl⟩ | ⟨-, hq, -⟩
  · exact hp.next_sound.midway
  · exact hq

theorem Gives.lt (hp : p.Midway cap) (hg : p.Gives cap t q) (hne : t.token.kind ≠ .eof) :
    q.rest.length < p.rest.length := by
  rcases hg with ⟨ht, rfl⟩ | ⟨-, -, -, hlt, -⟩
  · exact hp.next_lt ht hne
  · exact hlt

theorem Gives.eof (hg : p.Gives cap t q) (heof : t.token.kind = .eof) :
    p.token? cap .lexical = some t := by
  rcases hg with ⟨ht, -⟩ | ⟨-, -, hk, -⟩
  · exact ht
  · exact absurd heof hk

end Stand

theorem fragments_stream {chunk : Nat} (hchunk : 0 < chunk) :
    ∀ {n : Nat} {p : Stand} {c : Cursor}, p.Midway cap → c.At p.pre p.rest → p.rest.length < n →
    ∃ t fs, fragments cap chunk n p.state c = (p.state.comment.isSome, t) :: fs
      ∧ Windowed cap chunk p.state c ((p.state.comment.isSome, t) :: fs)
      ∧ Stream cap p (joinFrom t fs)
  | n + 1, p, c, hp, hc, hn => by
    have hsize : size p.rest < chunk + (c.size - c.place.byte + 1) := by
      rw [hc.size_eq, hc.byte_eq, Text.size_append]
      omega
    obtain ⟨t, q, c', hstep, hwide, hat, hg⟩ := stepInWindow_gives hp hc hchunk hsize
    rw [fragments, hstep]
    by_cases heof : t.token.kind = .eof
    · exact ⟨t, [], by simp [heof], .stop hwide heof, .stop (hg.eof heof) heof⟩
    have hlt := hg.lt hp heof
    obtain ⟨u, us, hfs, hrun, hstream⟩ :=
      fragments_stream hchunk (n := n) (hg.midway hp) hat (by omega)
    exact ⟨t, _, by simp [heof, hfs], .more hwide heof hrun, hg.stream hp heof hstream⟩

/-- Reading a text through windows comes to an end, and gives the tokens of one plain pass in
everything that is kept about them, whatever the size of the windows. -/
theorem tokenizeChunked_eq_tokenize (config : Config) (chunk : Nat) (text : String) :
    ∃ fs, Windowed config.cap (max chunk 1) {} (.start text) fs
      ∧ tokenizeChunked config chunk text = joinFragments fs
      ∧ tokenizeChunked config chunk text = tokenize config .unknown text := by
  have hp : (Stand.start .unknown text.toList).Midway config.cap :=
    (Stand.start_sound .unknown text.toList).midway
  have hc : (Cursor.start text).At [] text.toList := .start text
  have hn : text.toList.length < tokenBound (Cursor.start text) := by
    rw [Cursor.start_eq]
    exact lt_tokenBound (.fresh [] text.toList)
  obtain ⟨t, fs, hfs, hrun, hstream⟩ :=
    fragments_stream (by omega : 0 < max chunk 1) hp hc hn
  have hchunked : tokenizeChunked config chunk text = joinFragments ((false, t) :: fs) :=
    congrArg joinFragments hfs
  exact ⟨_, hrun, hchunked, hchunked.trans
    (hstream.unique (tokenize_stream config .unknown text))⟩

end Lexer

end AvroTree
