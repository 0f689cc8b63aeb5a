import AvroTree.Proofs.Running
import AvroTree.Proofs.Windows

/-!
# What one attempt comes to

Whatever kinds are wanted, whatever the lexer remembers and however small its window is, an attempt
to find a token ends in one of four ways (`Attempted`). From this follows what a scan promises
(`scan_contract`), what it does to the state when it finds nothing (`scan_none_state`), and what any
number of scans and of states loaded in between cannot do to it (`acts_bounded`).
-/

namespace AvroTree

open Token (Kind)
open Text (size)

namespace Lexer

/-- A state that an attempt may leave behind: no more brackets are open than may be, and a language
that was settled has stayed. -/
structure State.Follows (cap : Nat) (s t : State) : Prop where
  depth : s.depth ≤ cap → t.depth ≤ cap
  mode : s.mode ≠ .unknown → t.mode = s.mode

/-- A comment was to be continued, the text leaves it open, and errors are not wanted. -/
def GivesUp (valid : TokenSet) (bounded : Bool) (state : State) (s : List Char) : Prop :=
  ∃ k, state.comment = some k ∧ valid.contains k.token
    ∧ valid.contains (.error .unterminatedComment) = false
    ∧ bounded = false ∧ (commentBody s).value ≠ .closed

/-- The characters in front of the next token: blanks, but none inside a comment. -/
def lead (state : State) (s : List Char) : Nat :=
  if state.comment = none then blanks s else 0

/-- What may come of the attempt to find a token in front of `s`. -/
inductive Attempted (cap : Nat) (valid : TokenSet) (bounded : Bool) (state : State)
    (s : List Char) : Reading Outcome → Prop
  | nothing (seen : Nat) : Attempted cap valid bounded state s ⟨⟨none, state⟩, 0, seen⟩
  /-- A pending comment is forgotten though nothing was found. -/
  | givenUp (seen : Nat) (h : GivesUp valid bounded state s) :
      Attempted cap valid bounded state s ⟨⟨none, { state with comment := none }⟩, 0, seen⟩
  /-- Nothing but what leads the next token is left of the text. -/
  | last (kind : Kind) (next : State) (seen : Nat) (wanted : valid.contains kind)
      (follows : state.Follows cap next) (whole : bounded = false)
      (empty : lead state s = s.length)
      (kind_eq : kind = .eof
        ∨ kind = .error .unterminatedComment ∧ state.comment ≠ none) :
      Attempted cap valid bounded state s ⟨⟨some ⟨lead state s, kind⟩, next⟩, lead state s, seen⟩
  | found (kind : Kind) (next : State) (used seen : Nat) (wanted : valid.contains kind)
      (follows : state.Follows cap next) (lt_used : lead state s < used)
      (lt_length : lead state s < s.length) (le : used ≤ s.length ∨ bounded = false) :
      Attempted cap valid bounded state s ⟨⟨some ⟨lead state s, kind⟩, next⟩, used, seen⟩

section Attempts

variable {cap : Nat} {valid : TokenSet} {bounded : Bool} {state : State} {s : List Char}

theorem State.follows_comment (cap : Nat) (state : State) (comment : Option CommentKind) :
    state.Follows cap { state with comment } :=
  ⟨fun h => h, fun _ => rfl⟩

theorem lead_of_pending {k : CommentKind} (h : state.comment = some k) (s : List Char) :
    lead state s = 0 :=
  if_neg (Option.ne_none_iff_exists'.2 ⟨k, h⟩)

theorem Attempted.seeing {r : Reading Outcome} (h : Attempted cap valid bounded state s r)
    (n : Nat) : Attempted cap valid bounded state s (r.seeing n) := by
  cases h with
  | nothing => exact .nothing _
  | givenUp _ h => exact .givenUp _ h
  | last kind next _ hw hf hb he hk => exact .last kind next _ hw hf hb he hk
  | found kind next _ _ hw hf hu hl hle => exact .found kind next _ _ hw hf hu hl hle

/-! ## Comments -/

/-- A block comment behind its first `n` characters. Where `n` is zero it was pending. -/
theorem finishComment_attempted {k : CommentKind} {n : Nat} (hk : valid.contains k.token)
    (hlead : lead state s = 0) (hn : n ≤ s.length)
    (hpending : n = 0 → state.comment = some k) (hfresh : 0 < n → state.comment = none) :
    Attempted cap valid bounded state s (finishComment valid bounded state k n s) := by
  have htoken (kind : Kind) (next : State) (used seen : Nat) (hw : valid.contains kind)
      (hf : state.Follows cap next) (hu : 0 < used) (hl : 0 < s.length)
      (hle : used ≤ s.length ∨ bounded = false) :
      Attempted cap valid bounded state s ⟨⟨some ⟨0, kind⟩, next⟩, used, seen⟩ := by
    rw [← hlead] at hu hl ⊢
    exact .found kind next used seen hw hf hu hl hle
  have hdone := State.follows_comment cap state none
  have hlen : (s.drop n).length = s.length - n := List.length_drop
  have hstay (hn : 0 < n) : { state with comment := none } = state := by rw [← hfresh hn]
  by_cases hclosed : (commentBody (s.drop n)).value = .closed
  · -- the closing mark is part of the text
    obtain ⟨-, hle⟩ := commentBody_closed hclosed
    have hpos : 0 < (commentBody (s.drop n)).used := commentBody_used (by
      rintro hnil
      rw [hnil] at hclosed
      cases hclosed)
    have hfound := htoken k.token { state with comment := none }
      (n + (commentBody (s.drop n)).used) (n + (commentBody (s.drop n)).seen) hk hdone (by omega)
      (by omega) (.inl (by omega))
    cases bounded with
    | false =>
      rw [finishComment_eq, closeComment, Reading.after_value, if_pos hclosed]
      exact hfound
    | true =>
      rw [finishComment_window state k hn, if_pos hclosed, Reading.map, ended,
        Reading.after_value, if_pos hclosed]
      exact hfound
  obtain ⟨hused, -⟩ := commentBody_open hclosed
  cases bounded with
  | false =>
    rw [finishComment_eq, closeComment, Reading.after_value, if_neg hclosed]
    split
    · rename_i herr
      rcases Nat.eq_zero_or_pos s.length with hs | hs
      · have hn0 : n = 0 := by omega
        have hu0 : n + (commentBody (s.drop n)).used = lead state s := by omega
        rw [Reading.accept, Reading.map, Reading.after, hu0, ← hlead]
        exact .last _ _ _ herr hdone rfl (by omega)
          (.inr ⟨rfl, Option.ne_none_iff_exists'.2 ⟨k, hpending hn0⟩⟩)
      · exact htoken _ _ _ _ herr hdone (by rw [Reading.after_used]; omega) hs (.inr rfl)
    · rename_i herr
      rcases Nat.eq_zero_or_pos n with rfl | hn0
      · exact .givenUp _ ⟨k, hpending rfl, hk, Bool.not_eq_true _ ▸ herr, rfl, hclosed⟩
      · rw [hstay hn0]
        exact .nothing _
  | true =>
    have hkept : bodyKept (s.drop n) ≤ (s.drop n).length := by
      rw [bodyKept]
      split <;> omega
    rw [finishComment_window state k hn, if_neg hclosed, cutComment]
    split
    · exact .nothing _
    · exact htoken _ _ _ _ hk (State.follows_comment cap state _) (by omega) (by omega)
        (.inl (by omega))

/-- Whether through a window or not, a block comment is what its body makes it once its kind is
known and wanted. -/
theorem comment_block_cases (valid : TokenSet) (bounded : Bool) (state : State) {s : List Char}
    (h : s[1]? ≠ some '/') :
    comment valid bounded state s = ⟨⟨none, state⟩, 0, openingSeen state s⟩
      ∨ valid.contains (commentKind valid state s).token
        ∧ comment valid bounded state s
          = (finishComment valid bounded state (commentKind valid state s) 2 s).seeing
            (openingSeen state s) := by
  rw [comment_unless_line valid bounded state h]
  split
  · exact .inl rfl
  · rename_i hv
    rw [Bool.not_eq_true, Bool.or_eq_false_iff, Bool.not_eq_false'] at hv
    exact .inr ⟨hv.2, rfl⟩

/-- A token that was seen whole is in front of the end of the window. -/
theorem used_le_of_not_overran {α : Type} {r : Reading α} (hle : r.used ≤ r.seen)
    (h : (bounded && r.overran s) = false) : r.used ≤ s.length ∨ bounded = false := by
  cases bounded with
  | false => exact .inr rfl
  | true =>
    have hseen : r.seen ≤ s.length := by simpa [Reading.overran] using h
    exact .inl (hle.trans hseen)

theorem comment_attempted (hc : state.comment = none) (hlead : lead state s = 0)
    (hlen : 2 ≤ s.length) :
    Attempted cap valid bounded state s (comment valid bounded state s) := by
  by_cases hl : s[1]? = some '/'
  · have hlocal : Local fun s =>
        (skipWhile (fun c => !Text.endsLine c) (s.drop 2)).after 2 := (skipWhile_local _).after 2
    rw [comment, if_pos hl]
    simp only []
    split_ifs with hv hover
    · exact .nothing _
    · exact .nothing _
    · rw [Bool.not_eq_true] at hover
      have hfound : Attempted cap valid bounded state s _ := .found .comment state _
        ((skipWhile (fun c => !Text.endsLine c) (s.drop 2)).after 2).seen
        (by simpa using hv) ⟨fun h => h, fun _ => rfl⟩
        (by rw [hlead, Reading.after_used]; omega) (by omega)
        (used_le_of_not_overran (hlocal.used_le s) hover)
      rw [hlead] at hfound
      exact hfound
  · rcases comment_block_cases valid bounded state hl with h | ⟨hk, h⟩
    · rw [h]
      exact .nothing _
    · rw [h]
      exact (finishComment_attempted hk hlead hlen (fun h => absurd h (Nat.succ_ne_zero 1))
        fun _ => hc).seeing _

/-! ## Other tokens -/

theorem track_follows (cap : Nat) {state : State} (hc : state.comment = none) (kind : Kind)
    (c : Char) : state.Follows cap
      { (track cap state kind).2 with mode := impliedMode state kind c } :=
  ⟨fun h => (track_sound ⟨hc, h⟩ kind).depth, fun h => impliedMode_of_ne h⟩

theorem tokenHere_attempted (hc : state.comment = none) (hlead : lead state s = 0) :
    Attempted cap valid bounded state s (tokenHere cap valid bounded state s) := by
  cases s with
  | nil =>
    rw [tokenHere]
    split
    · rename_i hv
      rw [Bool.and_eq_true, Bool.not_eq_true'] at hv
      have hlast : Attempted cap valid bounded state [] _ := .last .eof state 1 hv.2
        ⟨fun h => h, fun _ => rfl⟩ hv.1 hlead (.inl rfl)
      rw [hlead] at hlast
      exact hlast
    · exact .nothing _
  | cons c cs =>
    rw [tokenHere]
    simp only []
    split
    · rename_i hslash
      refine comment_attempted hc hlead ?_
      cases cs with
      | nil => simp at hslash
      | cons d ds => exact Nat.succ_le_succ (Nat.succ_le_succ (Nat.zero_le _))
    · have hlocal := (lexeme_local cap valid state c).seeing (if c == '/' then 2 else 1)
      have hle := hlocal.used_le (c :: cs)
      have hused : 0 < (lexeme cap valid state c (c :: cs)).used := lexeme_used cap valid state c cs
      generalize lexeme cap valid state c (c :: cs) = r at hle hused
      generalize (if (c == '/') = true then 2 else 1) = n at hle
      split
      · exact .nothing _
      · rename_i hno
        rw [Bool.not_eq_true, Bool.or_eq_false_iff, Bool.or_eq_false_iff, Bool.not_eq_false',
          Bool.not_eq_false'] at hno
        have hfound : Attempted cap valid bounded state (c :: cs) _ := .found _
          { (track cap state (kindOf r.value)).2 with mode := impliedMode state (kindOf r.value) c }
          r.used (max n r.seen) hno.2 (track_follows cap hc _ c)
          (by omega) (by rw [hlead]; exact Nat.succ_pos _)
          (used_le_of_not_overran (r := r.seeing n) hle hno.1.1)
        rw [hlead] at hfound
        exact hfound

theorem blanks_le (s : List Char) : blanks s ≤ s.length :=
  (List.takeWhile_prefix _).length_le

/-- An attempt ends in one of the ways that `Attempted` lists. -/
theorem token_attempted (cap : Nat) (valid : TokenSet) (bounded : Bool) (state : State)
    (s : List Char) :
    Attempted cap valid bounded state s (token cap valid bounded state s) := by
  unfold token
  cases hk : state.comment with
  | some k =>
    simp only []
    split
    · rename_i hv
      exact finishComment_attempted hv (lead_of_pending hk s) (Nat.zero_le _) (fun _ => hk)
        fun h => absurd h (Nat.lt_irrefl 0)
    · exact .nothing _
  | none =>
    have hn : (skipWhile Text.isSpace s).value = blanks s := by rw [skipWhile_eq]; rfl
    have hdrop : blanks (s.drop (blanks s)) = 0 := Stand.blanks_ahead s
    have hlead : lead state s = blanks s := if_pos hk
    have hlead' : lead state (s.drop (blanks s)) = 0 := by rw [lead, if_pos hk, hdrop]
    have hlen := blanks_le s
    have hhere : Attempted cap valid bounded state (s.drop (blanks s)) _ :=
      tokenHere_attempted hk hlead'
    simp only [hn]
    generalize tokenHere cap valid bounded state (s.drop (blanks s)) = r at hhere
    cases hhere with
    | nothing => exact .nothing _
    | givenUp _ h =>
      obtain ⟨k, hsome, -⟩ := h
      rw [hk] at hsome
      cases hsome
    | last kind next seen hw hf hb he hkind =>
      rw [hlead', List.length_drop] at he
      simp only [Reading.map, Reading.after, hlead', Nat.add_zero]
      rw [← hlead]
      exact .last kind next _ hw hf hb (by omega) hkind
    | found kind next used seen hw hf hu hl hle =>
      rw [hlead', List.length_drop] at *
      simp only [Reading.map, Reading.after]
      rw [← hlead]
      exact .found kind next _ _ hw hf (by omega) (by omega)
        (hle.imp_left fun h => by omega)

end Attempts

end Lexer

/-! ## A scan -/

namespace Cursor

/-- A cursor between `pre` and the rest of a text, of which its window shows `w` and leaves out
`out`. Nothing is said about its row and column. -/
structure Frames (pre w out : List Char) (c : Cursor) : Prop where
  byte : c.place.byte = Text.size pre
  rest_eq : c.rest = w ++ out
  limit : c.limit = Text.size (pre ++ w)
  size_eq : c.size = Text.size (pre ++ w ++ out)

variable {pre w out : List Char} {c : Cursor}

theorem Frames.start (text : String) : (start text).Frames [] text.toList [] where
  byte := rfl
  rest_eq := (List.append_nil _).symm
  limit := Text.utf8ByteSize_eq text
  size_eq := by
    rw [List.append_nil]
    exact Text.utf8ByteSize_eq text

/-- Wherever a cursor is moved between two characters, and whatever point it is told. -/
theorem Frames.moveTo {mid rest : List Char} (h : c.Frames pre w out) (hw : w ++ out = mid ++ rest)
    (point : Point) : (c.moveTo ⟨Text.size (pre ++ mid), point⟩).Frames (pre ++ mid) rest [] := by
  have hsize : c.size = Text.size (pre ++ mid ++ rest) := by
    rw [h.size_eq, List.append_assoc, hw, List.append_assoc]
  have hmin : min (Text.size (pre ++ mid)) c.size = Text.size (pre ++ mid) := by
    rw [hsize, Text.size_append (pre ++ mid)]
    exact Nat.min_eq_left (Nat.le_add_right _ _)
  have hdrop : Text.size (pre ++ mid) - Text.size pre = Text.size mid := by
    rw [Text.size_append]
    omega
  refine ⟨hmin, ?_, hsize, by rw [List.append_nil]; exact hsize⟩
  simp only [Cursor.moveTo, hmin, h.byte, hdrop, h.rest_eq, hw, Text.dropBytes?_append,
    Option.getD_some, List.append_nil]

/-- Wherever its window is set to end a cursor shows a beginning of what is left. -/
theorem Frames.setLimit (h : c.Frames pre w out) (n : Nat) :
    ∃ w' out', w ++ out = w' ++ out' ∧ (c.setLimit n).Frames pre w' out' := by
  rw [Cursor.setLimit]
  split
  · refine ⟨w ++ out, [], (List.append_nil _).symm, h.byte, ?_, ?_, ?_⟩
    · rw [List.append_nil]
      exact h.rest_eq
    · rw [← List.append_assoc]
      exact h.size_eq
    · rw [List.append_nil, ← List.append_assoc]
      exact h.size_eq
  · obtain ⟨out', hout, -⟩ := Text.takeBytes_prefix c.rest (n - c.place.byte)
    refine ⟨_, out', by rw [← h.rest_eq]; exact hout, h.byte, hout, ?_, ?_⟩
    · rw [Text.size_append, ← h.byte]
    · rw [List.append_assoc, ← hout, h.rest_eq, ← List.append_assoc]
      exact h.size_eq

theorem Frames.isBounded (h : c.Frames pre w out) : c.isBounded = !out.isEmpty := by
  rw [Cursor.isBounded, h.limit, h.size_eq, Text.size_append (pre ++ w)]
  cases out with
  | nil => simp
  | cons d ds =>
    have hpos := d.utf8Size_pos
    refine decide_eq_true ?_
    rw [Text.size_cons]
    omega

theorem Frames.window (h : c.Frames pre w out) : c.window = w := by
  rw [Cursor.window, h.isBounded]
  cases out with
  | nil => rw [List.isEmpty_nil, Bool.not_true, if_neg Bool.false_ne_true, h.rest_eq,
    List.append_nil]
  | cons d ds =>
    rw [List.isEmpty_cons, Bool.not_false, if_pos rfl, h.rest_eq, h.limit, h.byte, Text.size_append,
      Nat.add_sub_cancel_left, Text.takeBytes_append]

theorem Frames.take_rest {n : Nat} (h : c.Frames pre w out) (hn : n ≤ w.length ∨ out = []) :
    c.rest.take n = w.take n ∧ c.rest.drop n = w.drop n ++ out := by
  rw [h.rest_eq]
  rcases hn with hn | rfl
  · exact ⟨List.take_append_of_le_length hn, List.drop_append_of_le_length hn⟩
  · rw [List.append_nil, List.append_nil]
    exact ⟨rfl, rfl⟩

/-- The cursor behind the first characters of the window. -/
theorem Frames.skip {n : Nat} (h : c.Frames pre w out) (hn : n ≤ w.length ∨ out = [])
    (seen : Nat) : ((c.beginScan.examine seen).skip n).Frames (pre ++ w.take n) (w.drop n) out := by
  obtain ⟨htake, hdrop⟩ := h.take_rest hn
  have hw : pre ++ w.take n ++ w.drop n = pre ++ w := by
    rw [List.append_assoc, List.take_append_drop]
  refine ⟨?_, hdrop, by rw [hw]; exact h.limit, by rw [hw]; exact h.size_eq⟩
  show (c.place.advance (c.rest.take n)).byte = _
  rw [htake, Location.advance_eq, Text.size_append, h.byte]

/-- What a scan promises of the token `t` that it finds and of the cursor `c'` it leaves behind. -/
structure Promise (valid : TokenSet) (state : Lexer.State) (pre w out : List Char) (c : Cursor)
    (t : Token) (c' : Cursor) : Prop where
  wanted : valid.contains t.kind
  stop : t.span.stop = c'.place
  /-- In the window come the blanks, the text of the token and what the new cursor shows. -/
  parts : ∃ blanks body rest, w = blanks ++ body ++ rest
    ∧ (∀ x ∈ blanks, Text.isSpace x) ∧ (state.comment.isSome → blanks = [])
    ∧ t.span.start = c.place.advance blanks ∧ t.span.stop = c.place.advance (blanks ++ body)
    ∧ c'.Frames (pre ++ blanks ++ body) rest out
    ∧ (body = [] → t.kind = .eof
        ∨ t.kind = .error .unterminatedComment ∧ state.comment.isSome ∧ w = [] ∧ out = [])

variable {cap : Nat} {valid : TokenSet} {state : Lexer.State} {t : Token} {state' : Lexer.State}
  {c' : Cursor}

/-- A scan reads the window. -/
theorem Frames.scan_eq (h : c.Frames pre w out) (cap : Nat) (valid : TokenSet)
    (state : Lexer.State) {r : Reading Lexer.Outcome}
    (hr : r = Lexer.token cap valid (!out.isEmpty) state w) :
    c.scan cap valid state = (r.value.found.map fun f =>
        ⟨f.kind, c.place.advance (c.rest.take f.blanks), c.place.advance (c.rest.take r.used)⟩,
      r.value.state, (c.beginScan.examine r.seen).skip r.used) := by
  have hwindow : c.beginScan.window = w := h.window
  rw [Cursor.scan, h.isBounded]
  simp only [Cursor.run, hwindow, ← hr]
  rfl

/-- The promise is kept by a token behind the blanks that lead it. -/
theorem Frames.promise (h : c.Frames pre w out) {kind : Token.Kind} {used : Nat} (seen : Nat)
    (hwanted : valid.contains kind) (hle : Lexer.lead state w ≤ used)
    (hused : used ≤ w.length ∨ out = [])
    (hempty : used = Lexer.lead state w ∨ w.length ≤ Lexer.lead state w → kind = .eof
      ∨ kind = .error .unterminatedComment ∧ state.comment.isSome ∧ w = [] ∧ out = []) :
    Promise valid state pre w out c
      ⟨kind, c.place.advance (c.rest.take (Lexer.lead state w)),
        c.place.advance (c.rest.take used)⟩
      ((c.beginScan.examine seen).skip used) := by
  generalize hb : Lexer.lead state w = b at hle hempty
  have hparts : w.take used = w.take b ++ (w.drop b).take (used - b) := by
    rw [← List.take_add, Nat.add_sub_cancel' hle]
  obtain ⟨hstart, -⟩ := h.take_rest (hused.imp_left hle.trans)
  obtain ⟨hstop, -⟩ := h.take_rest hused
  refine ⟨hwanted, rfl, w.take b, (w.drop b).take (used - b), w.drop used, ?_, ?_, ?_,
    congrArg _ hstart, ?_, ?_, ?_⟩
  · rw [← hparts, List.take_append_drop]
  · rintro x hx
    rw [← hb, Lexer.lead] at hx
    split at hx
    · rw [Lexer.blanks, ← List.prefix_iff_eq_take.1 (List.takeWhile_prefix _)] at hx
      exact List.mem_takeWhile_imp hx
    · cases hx
  · rintro hc
    rw [← hb, Lexer.lead, if_neg (Option.isSome_iff_ne_none.1 hc), List.take_zero]
  · exact congrArg _ (hstop.trans hparts)
  · rw [List.append_assoc, ← hparts]
    exact h.skip hused seen
  · rintro hnil
    refine hempty ?_
    rcases List.take_eq_nil_iff.1 hnil with hn | hn
    · exact .inl (by omega)
    · exact .inr (List.drop_eq_nil_iff.1 hn)

end Cursor

namespace Lexer

variable {pre w out : List Char} {c : Cursor}

/-- The contract of a scan, whatever the lexer remembers, whichever kinds are wanted and wherever
the window ends: a token that is found keeps the promise, and if there is none the cursor has not
moved. -/
theorem scan_contract (config : Config) (valid : TokenSet) (state : State)
    (h : c.Frames pre w out) :
    (∀ t, (c.scan config.cap valid state).1 = some t →
        c.Promise valid state pre w out t (c.scan config.cap valid state).2.2)
      ∧ ((c.scan config.cap valid state).1 = none →
        (c.scan config.cap valid state).2.2.place = c.place) := by
  have hscan := h.scan_eq config.cap valid state rfl
  have hattempt := token_attempted config.cap valid (!out.isEmpty) state w
  rw [hscan]
  generalize token config.cap valid (!out.isEmpty) state w = r at hattempt
  have hbounded : (!out.isEmpty) = false → out = [] := by simp
  cases hattempt with
  | nothing => exact ⟨nofun, fun _ => rfl⟩
  | givenUp => exact ⟨nofun, fun _ => rfl⟩
  | last kind next seen hw hf hb he hk =>
    refine ⟨?_, nofun⟩
    rintro _ ⟨⟩
    refine h.promise seen hw le_rfl (.inr (hbounded hb)) fun _ => ?_
    refine hk.imp_right fun ⟨hkind, hc⟩ => ?_
    rw [lead, if_neg hc] at he
    exact ⟨hkind, Option.isSome_iff_ne_none.2 hc, List.length_eq_zero_iff.1 he.symm, hbounded hb⟩
  | found kind next used seen hw hf hu hl hle =>
    refine ⟨?_, nofun⟩
    rintro _ ⟨⟩
    refine h.promise seen hw hu.le (hle.imp_right hbounded) fun hor => ?_
    rcases hor with hor | hor
    · exact absurd hor hu.ne'
    · exact absurd hor (Nat.not_le.2 hl)

theorem scan_contract_windowed :
    let c : Cursor := ⟨⟨1, ⟨4, 2⟩⟩, [' ', ';', ' ', 'b'], 4, 5, 0, false⟩
    c.Frames ['a'] [' ', ';', ' '] ['b']
      ∧ ∃ t, (c.scan ({} : Config).cap .lexical {}).1 = some t
        ∧ c.Promise .lexical {} ['a'] [' ', ';', ' '] ['b'] t
          (c.scan ({} : Config).cap .lexical {}).2.2 := by
  intro c
  have h : c.Frames ['a'] [' ', ';', ' '] ['b'] := ⟨rfl, rfl, rfl, rfl⟩
  have hfound : (c.scan ({} : Config).cap .lexical {}).1
      = some ⟨.punct .semicolon, ⟨2, ⟨4, 3⟩⟩, ⟨3, ⟨4, 4⟩⟩⟩ := by decide
  exact ⟨h, _, hfound, (scan_contract {} .lexical {} h).1 _ hfound⟩

/-- The state behind a scan that finds nothing. It is the state before, but for a comment that was
to be continued, that the text leaves open, and whose lack of an end is no error that is wanted:
such a comment is forgotten. -/
theorem scan_none_state (config : Config) {valid : TokenSet} {state : State} {c : Cursor}
    (h : (c.scan config.cap valid state).1 = none) :
    (GivesUp valid c.isBounded state c.window →
        (c.scan config.cap valid state).2.1 = { state with comment := none })
      ∧ (¬ GivesUp valid c.isBounded state c.window →
        (c.scan config.cap valid state).2.1 = state) := by
  have hattempt := token_attempted config.cap valid c.isBounded state c.window
  have hfound : (token config.cap valid c.isBounded state c.window).value.found = none :=
    Option.map_eq_none_iff.1 h
  have hstate : (c.scan config.cap valid state).2.1
      = (token config.cap valid c.isBounded state c.window).value.state := rfl
  refine ⟨fun hgives => ?_, fun hkeeps => ?_⟩
  · obtain ⟨k, hk, hwanted, herror, hbounded, hopen⟩ := hgives
    rw [hstate, hbounded, token, hk]
    simp only [hwanted, ↓reduceIte]
    rw [finishComment_eq, closeComment, Reading.after_value, List.drop_zero, if_neg hopen, herror,
      if_neg Bool.false_ne_true]
    rfl
  · rw [hstate]
    generalize token config.cap valid c.isBounded state c.window = r at hattempt hfound
    cases hattempt with
    | nothing => rfl
    | givenUp _ hgives => exact absurd hgives hkeeps
    | last => cases hfound
    | found => cases hfound

theorem scan_none_state_pending :
    let s : State := { comment := some .block }
    ((Cursor.start "ab").scan ({} : Config).cap (.single .comment) s).1 = none
      ∧ GivesUp (.single .comment) (Cursor.start "ab").isBounded s (Cursor.start "ab").window
      ∧ ((Cursor.start "ab").scan ({} : Config).cap (.single .comment) s).2.1 = {} := by
  intro s
  have hgives : GivesUp (.single .comment) (Cursor.start "ab").isBounded s
      (Cursor.start "ab").window := ⟨.block, rfl, by decide, by decide, by decide, by decide⟩
  exact ⟨by decide, hgives, (scan_none_state {} (by decide)).1 hgives⟩

/-- A scan that finds nothing does not always leave the lexer as it was: an open block comment is
forgotten by one who looks for comments only, so the next scan takes the text behind its opening
mark for words. -/
theorem scan_forgets_comment :
    ¬ ∀ (config : Config) (valid : TokenSet) (state : State) (c : Cursor),
      (c.scan config.cap valid state).1 = none → (c.scan config.cap valid state).2.1 = state := by
  intro hall
  exact absurd (hall {} (.single .comment) { comment := some .block } (.start "ab") (by decide))
    (by decide)

/-! ## Any number of scans -/

/-- What may be done to a lexer. -/
inductive Act where
  | scan (c : Cursor) (valid : TokenSet)
  | load (bytes : List UInt8)

/-- The state after an act. Bytes that it cannot load leave it as it is. -/
def Act.run (config : Config) (s : State) : Act → State
  | .scan c valid => (c.scan config.cap valid s).2.1
  | .load bytes =>
    match State.load config.cap bytes with
    | .ok t => t
    | .error _ => s

theorem State.load_depth {cap : Nat} {bytes : List UInt8} {s : State}
    (h : State.load cap bytes = .ok s) : s.depth ≤ cap := by
  rw [State.load] at h
  cases hdecode : State.decode bytes with
  | error e =>
    rw [hdecode] at h
    cases h
  | ok t =>
    rw [hdecode] at h
    change (if cap < t.depth then throw _ else pure t) = _ at h
    split at h
    · cases h
    · rename_i hle
      cases h
      exact Nat.not_lt.1 hle

theorem scan_follows (cap : Nat) (valid : TokenSet) (state : State) (c : Cursor) :
    state.Follows cap (c.scan cap valid state).2.1 := by
  have hattempt := token_attempted cap valid c.isBounded state c.window
  change state.Follows cap (token cap valid c.isBounded state c.window).value.state
  generalize token cap valid c.isBounded state c.window = r at hattempt
  cases hattempt with
  | nothing => exact state.follows_comment cap state.comment
  | givenUp => exact state.follows_comment cap none
  | last _ _ _ _ hf => exact hf
  | found _ _ _ _ _ hf => exact hf

theorem Act.run_depth {config : Config} {s : State} (h : s.depth ≤ config.cap) (a : Act) :
    (a.run config s).depth ≤ config.cap := by
  cases a with
  | scan c valid => exact (scan_follows config.cap valid s c).depth h
  | load bytes =>
    rw [Act.run]
    split
    · rename_i t ht
      exact State.load_depth ht
    · exact h

/-- Whatever is done to a lexer, its brackets can be counted in one byte, its state is read back
from its bytes, and a language that is settled stays while it only scans. -/
theorem acts_bounded (config : Config) (mode : Mode) (acts : List Act) :
    let s := acts.foldl (Act.run config) { mode }
    s.depth ≤ config.cap ∧ config.cap ≤ 255 ∧ State.load config.cap s.encode = .ok s
      ∧ ∀ (c : Cursor) (valid : TokenSet), s.mode ≠ .unknown →
        (Act.run config s (.scan c valid)).mode = s.mode := by
  have hcap : config.cap ≤ depthCeiling := Nat.min_le_right _ _
  have hdepth : ∀ (acts : List Act) (s : State), s.depth ≤ config.cap →
      (acts.foldl (Act.run config) s).depth ≤ config.cap := by
    intro acts
    induction acts with
    | nil => exact fun _ h => h
    | cons a acts ih => exact fun s h => ih _ (Act.run_depth h a)
  intro s
  have hs : s.depth ≤ config.cap := hdepth acts _ (Nat.zero_le _)
  exact ⟨hs, hcap, State.load_encode hs hcap, fun c valid =>
    (scan_follows config.cap valid s c).mode⟩

end Lexer

end AvroTree
