import AvroTree.Proofs.Parting

/-!
# Counterparts

Two lexers that stand in different texts read the same tokens as long as they stand in front of the
same text, blanks apart (`Past`), or have the same text in front of them up to a place where one
text goes on with a blank (`Near`).
-/

namespace AvroTree

open Token (Kind)

namespace Lexer

open Text (Ends)

/-- Nothing but blanks. -/
def Blank (g : List Char) : Prop :=
  g.all Text.isSpace

theorem blanks_append {g : List Char} (hg : Blank g) (s : List Char) :
    blanks (g ++ s) = g.length + blanks s := by
  unfold blanks
  rw [List.takeWhile_append_of_pos (List.all_eq_true.1 hg), List.length_append]

theorem ahead_append {g : List Char} (hg : Blank g) (s : List Char) : ahead (g ++ s) = ahead s := by
  rw [ahead, ahead, blanks_append hg, List.drop_length_add_append]

/-- Where something else than blanks is left of a text, what comes behind it does not matter. -/
theorem ahead_of_ne_nil {m : List Char} (h : ahead m ≠ []) (s : List Char) :
    blanks (m ++ s) = blanks m ∧ ahead (m ++ s) = ahead m ++ s := by
  have hlt : blanks m < m.length := by
    by_contra hle
    exact h (List.drop_eq_nil_of_le (Nat.le_of_not_lt hle))
  have hblanks : blanks (m ++ s) = blanks m := by
    unfold blanks at hlt ⊢
    rw [List.takeWhile_append, if_neg (Nat.ne_of_lt hlt)]
  exact ⟨hblanks, by rw [ahead, hblanks, List.drop_append_of_le_length hlt.le, ahead]⟩

theorem blank_of_ahead {m : List Char} (h : ahead m = []) : Blank m := by
  have hle : m.length ≤ blanks m := List.drop_eq_nil_iff.1 h
  have htake : m.takeWhile Text.isSpace = m :=
    (List.takeWhile_prefix _).eq_of_length_le hle
  rw [Blank, List.all_eq_true]
  intro c hc
  rw [← htake] at hc
  exact List.mem_takeWhile_imp hc

namespace Stand

variable {cap : Nat} {V : TokenSet} {p q : Stand} {t : Scanned}

/-- What is read behind the blanks. -/
def here (cap : Nat) (V : TokenSet) (p : Stand) : Reading Outcome :=
  tokenHere cap V false p.state (ahead p.rest)

theorem reading_here (hp : p.Sound cap) (V : TokenSet) :
    p.reading cap V = behindBlanks (blanks p.rest) (p.here cap V) := by
  rw [reading, token_eq cap V hp.comment]
  rfl

theorem token?_none_iff (hp : p.Sound cap) :
    p.token? cap V = none ↔ (p.here cap V).value.found = none := by
  rw [token?, Option.map_eq_none_iff, reading_here hp, behindBlanks]
  cases h : (p.here cap V).value.found <;> simp [h]

/-- A found token is the one that is read behind the blanks. -/
theorem here_found (hp : p.Sound cap) (h : p.token? cap V = some t) :
    ∃ f, (p.here cap V).value.found = some f ∧ f.kind = t.token.kind
      ∧ (p.next cap V).state = (p.here cap V).value.state
      ∧ (p.next cap V).pre
        = p.pre ++ p.rest.take (blanks p.rest) ++ (ahead p.rest).take (p.here cap V).used
      ∧ (p.next cap V).rest = (ahead p.rest).drop (p.here cap V).used := by
  obtain ⟨f, hf, rfl⟩ := exists_found h
  unfold next
  rw [reading_here hp, behindBlanks] at hf ⊢
  cases hh : (p.here cap V).value.found with
  | none => simp [hh] at hf
  | some g =>
    simp only [hh, Reading.map_value, Option.some.injEq] at hf
    subst hf
    refine ⟨g, rfl, rfl, rfl, ?_, ?_⟩
    · rw [List.append_assoc, ahead, ← List.take_add]
      rfl
    · rw [ahead, List.drop_drop]
      rfl

/-- Behind a token that is read the lexer is in the state that reading gives. -/
theorem next_state (hp : p.Sound cap) (h : p.token? cap V = some t) :
    (p.next cap V).state = (p.here cap V).value.state := by
  obtain ⟨f, -, -, hstate, -⟩ := here_found hp h
  exact hstate

end Stand

end Lexer

namespace Parse

open Lexer (Stand)

/-- Where the same is read behind the blanks the same token is given. -/
theorem Lookahead.Reads.likewise {cap : Nat} {p q : Stand} {la lb : Lookahead} (hp : p.Sound cap)
    (hq : q.Sound cap) (hla : la.Reads cap p) (hlb : lb.Reads cap q) (hv : lb.valid = la.valid)
    (h : (q.here cap la.valid).value = (p.here cap la.valid).value)
    (hlexical : p.token? cap la.valid = none →
      (q.here cap .lexical).value = (p.here cap .lexical).value) :
    lb.scanned.valid = la.scanned.valid ∧ lb.scanned.token.kind = la.scanned.token.kind
      ∧ (q.here cap lb.scanned.valid).value = (p.here cap la.scanned.valid).value := by
  have hnone : q.token? cap la.valid = none ↔ p.token? cap la.valid = none := by
    rw [Stand.token?_none_iff hp, Stand.token?_none_iff hq, h]
  have hsame : lb.scanned.valid = la.scanned.valid
      ∧ (q.here cap la.scanned.valid).value = (p.here cap la.scanned.valid).value := by
    rcases hla.choice with hchoice | ⟨hmissed, hchoice⟩
    · have hfound : p.token? cap la.valid ≠ none := by
        rw [← hchoice, hla.token]
        exact Option.some_ne_none _
      rcases hlb.choice with hchoice' | ⟨hmissed, -⟩
      · exact ⟨hchoice'.trans (hv.trans hchoice.symm), hchoice ▸ h⟩
      · exact absurd (hnone.1 (hv ▸ hmissed)) hfound
    · rcases hlb.choice with hchoice' | ⟨-, hchoice'⟩
      · have hfound : q.token? cap la.valid ≠ none := by
          rw [← hv, ← hchoice', hlb.token]
          exact Option.some_ne_none _
        exact absurd (hnone.2 hmissed) hfound
      · rw [hchoice, hchoice']
        exact ⟨rfl, hlexical hmissed⟩
  obtain ⟨hvalid, hvalue⟩ := hsame
  obtain ⟨f, hf, hfkind, -⟩ := Stand.here_found hp hla.token
  obtain ⟨g, hg, hgkind, -⟩ := Stand.here_found hq hlb.token
  rw [hvalid, hvalue, hf, Option.some.injEq] at hg
  refine ⟨hvalid, ?_, hvalid ▸ hvalue⟩
  rw [← hfkind, ← hgkind, hg]

end Parse

namespace Lexer

namespace Stand

variable {cap : Nat} {V W : TokenSet} {p q : Stand} {t u v : Scanned} {P P' X Y Z : List Char}

/-! ## In front of the same text -/

/-- Both lexers are in the same state and have the same text in front of them, blanks apart. The
text between `P` and that of the first is that between `P'` and that of the second. -/
structure Past (P P' : List Char) (p q : Stand) : Prop where
  state : q.state = p.state
  split : ∃ g g' n r, Blank g ∧ Blank g' ∧ p.rest = g ++ r ∧ q.rest = g' ++ r
    ∧ p.pre ++ g = P ++ n ∧ q.pre ++ g' = P' ++ n

namespace Past

theorem ahead_eq (h : Past P P' p q) : ahead q.rest = ahead p.rest := by
  obtain ⟨g, g', n, r, hg, hg', hp, hq, -⟩ := h.split
  rw [hp, hq, ahead_append hg, ahead_append hg']

theorem here_eq (h : Past P P' p q) (V : TokenSet) : q.here cap V = p.here cap V := by
  rw [here, here, h.state, h.ahead_eq]

/-- The places in front of what both read. -/
theorem front (h : Past P P' p q) : ∃ n, p.pre ++ p.rest.take (blanks p.rest) = P ++ n
    ∧ q.pre ++ q.rest.take (blanks q.rest) = P' ++ n := by
  obtain ⟨g, g', n, r, hg, hg', hp, hq, hpre, hpre'⟩ := h.split
  refine ⟨n ++ r.take (blanks r), ?_, ?_⟩
  · rw [hp, blanks_append hg, List.take_length_add_append, ← List.append_assoc, hpre,
      List.append_assoc]
  · rw [hq, blanks_append hg', List.take_length_add_append, ← List.append_assoc, hpre',
      List.append_assoc]

/-- Behind the same token both are in front of the same text again. -/
theorem next (h : Past P P' p q) (hp : p.Sound cap) (hq : q.Sound cap)
    (ht : p.token? cap V = some t) (hu : q.token? cap V = some u) :
    Past P P' (p.next cap V) (q.next cap V) := by
  obtain ⟨n, hfront, hfront'⟩ := h.front
  obtain ⟨-, -, -, hstate, hpre, hrest⟩ := here_found hp ht
  obtain ⟨-, -, -, hstate', hpre', hrest'⟩ := here_found hq hu
  rw [hfront, List.append_assoc] at hpre
  rw [hfront', h.ahead_eq, h.here_eq, List.append_assoc] at hpre'
  refine ⟨by rw [hstate, hstate', h.here_eq], [], [], n ++ (ahead p.rest).take (p.here cap V).used,
    (ahead p.rest).drop (p.here cap V).used, rfl, rfl, hrest, ?_, ?_, ?_⟩
  · rw [hrest', h.ahead_eq, h.here_eq]
    rfl
  · rw [List.append_nil, hpre]
  · rw [List.append_nil, hpre']

end Past

/-! ## In front of the same token -/

/-- Both lexers are in the same state behind the same text. In front of them is what is left of `X`,
and behind that `Y` in one text and `Z` in the other. -/
structure Near (X Y Z : List Char) (p q : Stand) : Prop where
  state : q.state = p.state
  pre : q.pre = p.pre
  split : ∃ m, p.pre ++ m = X ∧ p.rest = m ++ Y ∧ q.rest = m ++ Z

theorem exists_of_cons_cons {a b : Char} {u s r : List Char} (h : u ++ r = a :: b :: s)
    (hlen : r.length ≤ s.length) : ∃ v, u = a :: b :: v ∧ s = v ++ r := by
  rcases u with _ | ⟨c, _ | ⟨d, v⟩⟩
  · simp only [List.nil_append] at h
    subst h
    simp only [List.length_cons] at hlen
    omega
  · simp only [List.cons_append, List.nil_append, List.cons.injEq] at h
    rw [h.2] at hlen
    simp only [List.length_cons] at hlen
    omega
  · simp only [List.cons_append, List.cons.injEq] at h
    exact ⟨v, by rw [h.1, h.2.1], h.2.2.symm⟩

/-- A comment that ends in `u` is whole there. -/
theorem whole_of_comment {state : State} {u r s : List Char} (hpass : Text.pass? (u ++ r) = some s)
    (hleads : leadsComment (u ++ r)) (hlen : r.length ≤ s.length) : Whole cap state u r := by
  rw [leadsComment, Bool.and_eq_true] at hleads
  obtain ⟨hstarts, hbody⟩ := hleads
  obtain ⟨c, d, x, hx⟩ : ∃ c d x, u ++ r = c :: d :: x := by
    rcases hs : u ++ r with _ | ⟨c, _ | ⟨d, x⟩⟩
    · simp [hs, startsComment] at hstarts
    · simp [hs, startsComment] at hstarts
    · exact ⟨c, d, x, rfl⟩
  rw [hx] at hpass hstarts hbody
  obtain ⟨rfl, hd⟩ : c = '/' ∧ (d = '/' ∨ d = '*') := by simpa [startsComment] using hstarts
  rcases hd with rfl | rfl
  · rw [Text.pass?, Option.some.injEq] at hpass
    subst hpass
    have hsplit := congrArg List.length (List.takeWhile_append_dropWhile (p := inLine) (l := x))
    rw [List.length_append] at hsplit
    have hlen : r.length ≤ (x.dropWhile inLine).length := hlen
    obtain ⟨v, rfl, rfl⟩ := exists_of_cons_cons hx (by omega)
    rw [List.length_append] at hsplit
    exact .line (by omega)
  · have hclosed : (commentBody x).value = .closed := by simpa using hbody
    rw [Text.pass?, afterComment?_of_closed hclosed, Option.some.injEq] at hpass
    subst hpass
    rw [List.length_drop] at hlen
    obtain ⟨v, rfl, rfl⟩ := exists_of_cons_cons hx (by omega)
    have := (commentBody_closed hclosed).2
    rw [List.length_append] at hlen this
    exact .block hclosed (by omega)

/-- The token `t` is in order, is found next and ends in front of the end `Y` of the text. Behind a
JSON value nothing comes that a name or a number could go on with. -/
structure Keeps (cap : Nat) (Y : List Char) (p : Stand) (t : Scanned) : Prop where
  sound : p.Sound cap
  token : p.token? cap t.valid = some t
  meant : t.token.kind.isMeant
  short : Y.length ≤ (p.next cap t.valid).rest.length
  follow : t.token.kind = .jsonSpan → ∀ c ∈ (p.next cap t.valid).rest.head?, isMunched c = false

/-- A token that ends in front of the end of the text is whole in what comes before the end. -/
theorem Keeps.whole {m : List Char} (h : p.Keeps cap Y t) (hrest : p.rest = m ++ Y) :
    Whole cap p.state (ahead m) Y := by
  obtain ⟨hp, h, hmeant, hlen, hfollow⟩ := h
  obtain ⟨heof, herror⟩ := Kind.isMeant_iff.1 hmeant
  have hleft : ahead m ≠ [] := by
    intro hblank
    obtain ⟨-, -, -, -, -, hnext⟩ := here_found hp h
    have hlt := blanks_lt_used hp h heof
    have hnext : (p.next cap t.valid).rest.length
        = p.rest.length - (p.reading cap t.valid).used :=
      List.length_drop
    rw [hrest, blanks_append (blank_of_ahead hblank)] at hlt
    rw [hrest, List.length_append] at hnext
    have hY : Y ≠ [] := by
      rintro rfl
      exact heof ((eof_iff hp h).2 (by rw [hrest, ahead_append (blank_of_ahead hblank)]; rfl))
    have hpos := List.length_pos_iff.2 hY
    omega
  obtain ⟨-, hahead⟩ := ahead_of_ne_nil hleft Y
  rw [← hrest] at hahead
  cases hextra : t.token.kind.isExtra with
  | true =>
    obtain ⟨hpass, -⟩ := pass?_of_extra hp h hextra
    have hleads : leadsComment (ahead p.rest) := by rw [← isExtra_eq hp h, hextra]
    rw [hahead] at hpass hleads
    exact whole_of_comment hpass hleads hlen
  | false =>
    have hproper : t.token.kind.isProper := by
      rw [Kind.isProper, hextra]
      simpa using heof
    obtain ⟨c, cs, hc, hread, -, hnext, -⟩ := past_of_token? hp h hproper herror
    have hrest : (p.next cap t.valid).rest
        = (c :: cs).drop (lexeme cap t.valid p.state c (c :: cs)).used := by
      rw [hnext, past, ← List.drop_drop, ← hc]
      rfl
    have hinside := lexeme_used_le hread
    rw [hrest] at hlen hfollow
    rw [List.length_drop] at hlen
    obtain ⟨v, hv, rfl⟩ : ∃ v, ahead m = c :: v ∧ cs = v ++ Y := by
      cases hm : ahead m with
      | nil => exact absurd hm hleft
      | cons d v =>
        rw [hm, hc, List.cons_append, List.cons.injEq] at hahead
        exact ⟨v, by rw [hahead.1], hahead.2⟩
    rw [← List.cons_append] at hread hinside hlen hfollow
    have hused : (lexeme cap t.valid p.state c (c :: v ++ Y)).used ≤ (c :: v).length := by
      rw [List.length_append] at hlen hinside
      omega
    rw [hv]
    by_cases hk : t.token.kind = .jsonSpan
    · rw [hk] at hread
      obtain ⟨hvalue, heq⟩ := jsonValue_of_lexeme hread
      exact .json (startsJsonValue_of_lexeme hread).2 hvalue (heq ▸ hused) (heq ▸ hfollow hk)
    · obtain ⟨hvalue, heq⟩ := plain_of_lexeme hk hread
      exact .plain hvalue (heq ▸ hused)

namespace Near

/-- How the texts in front of both lexers are made up when a token in order comes next. -/
theorem parts (h : Near X Y Z p q) (ht : p.Keeps cap Y t) : ∃ g u, Whole cap p.state u Y
    ∧ p.pre ++ g ++ u = X ∧ blanks p.rest = g.length ∧ blanks q.rest = g.length
    ∧ p.rest = g ++ (u ++ Y) ∧ q.rest = g ++ (u ++ Z)
    ∧ ahead p.rest = u ++ Y ∧ ahead q.rest = u ++ Z := by
  obtain ⟨m, hm, hp, hq⟩ := h.split
  have hwhole := ht.whole hp
  obtain ⟨hblanks, hahead⟩ := ahead_of_ne_nil hwhole.ne_nil Y
  obtain ⟨hblanks', hahead'⟩ := ahead_of_ne_nil hwhole.ne_nil Z
  have hlen : (m.take (blanks m)).length = blanks m :=
    List.length_take_of_le (List.takeWhile_prefix _).length_le
  have hsplit : m.take (blanks m) ++ ahead m = m := List.take_append_drop _ _
  refine ⟨m.take (blanks m), ahead m, hwhole, ?_, ?_, ?_, ?_, ?_, ?_, ?_⟩
  · rw [List.append_assoc, hsplit, hm]
  · rw [hp, hblanks, hlen]
  · rw [hq, hblanks', hlen]
  · rw [← List.append_assoc, hsplit, hp]
  · rw [← List.append_assoc, hsplit, hq]
  · rw [hp, hahead]
  · rw [hq, hahead']

end Near

/-- Kinds that may be looked for where `t` comes next: no JSON value, or what `t` was found with if
it is one or a comment in front of one. -/
def Fair (t : Scanned) (V : TokenSet) : Prop :=
  V.contains .jsonSpan = false ∨ V = t.valid ∧ (t.token.kind = .jsonSpan ∨ t.token.kind.isExtra)

/-- Among such kinds the same is read in both texts. -/
theorem Near.told (h : Near X Y Z p q) (hz : Text.Ends Z) (ht : p.Keeps cap Y t) (hV : Welcomes V)
    (hfair : Fair t V) : ∃ u, ahead p.rest = u ++ Y ∧ (q.here cap V).value = (p.here cap V).value
      ∧ (p.here cap V).used ≤ u.length
      ∧ (Seals u Z → (q.here cap V).used = (p.here cap V).used) := by
  obtain ⟨g, u, hwhole, -, -, -, -, -, hp, hq⟩ := h.parts ht
  have hsound := ht.sound.comment
  refine ⟨u, hp, ?_⟩
  have htold := hwhole.told (z := Z) hsound hz hV
  unfold here
  rw [h.state, hp, hq]
  refine htold (hfair.imp_right ?_)
  rintro ⟨rfl, hkind⟩
  obtain ⟨f, hf, hfkind, -, -, hrest⟩ := here_found ht.sound ht.token
  unfold here at hf hrest
  rw [hp] at hf hrest
  exact ⟨f, hf, hfkind ▸ hkind, hrest ▸ ht.short⟩

/-- What is left when a token that ends in `u` has been taken in front of `r`. -/
theorem next_of_here {g u r : List Char} (hp : p.Sound cap) (h : p.token? cap V = some t)
    (hrest : p.rest = g ++ (u ++ r)) (hblanks : blanks p.rest = g.length)
    (hahead : ahead p.rest = u ++ r) (hused : (p.here cap V).used ≤ u.length) :
    (p.next cap V).pre = p.pre ++ g ++ u.take (p.here cap V).used
      ∧ (p.next cap V).rest = u.drop (p.here cap V).used ++ r := by
  obtain ⟨-, -, -, -, hpre, hnext⟩ := here_found hp h
  have htake : p.rest.take (blanks p.rest) = g := by
    rw [hblanks, hrest, List.take_left]
  rw [htake, hahead, List.take_append_of_le_length hused] at hpre
  rw [hahead, List.drop_append_of_le_length hused] at hnext
  exact ⟨hpre, hnext⟩

namespace Near

/-- A token that is no line comment up to the end of `X` is followed by the same again. -/
theorem next_of_used (h : Near X Y Z p q) (ht : p.Keeps cap Y t) (hq : q.Sound cap)
    (hp' : p.token? cap V = some u) (hq' : q.token? cap V = some v)
    (hvalue : (q.here cap V).value = (p.here cap V).value)
    (hused : (q.here cap V).used = (p.here cap V).used)
    (hle : ∀ u, ahead p.rest = u ++ Y → (p.here cap V).used ≤ u.length) :
    Near X Y Z (p.next cap V) (q.next cap V) := by
  obtain ⟨g, u, -, hX, hblanks, hblanks', hrest, hrest', hahead, hahead'⟩ := h.parts ht
  have hle := hle u hahead
  obtain ⟨hpre, hnext⟩ := next_of_here ht.sound hp' hrest hblanks hahead hle
  obtain ⟨hpre', hnext'⟩ := next_of_here hq hq' hrest' hblanks' hahead' (hused ▸ hle)
  rw [hused] at hpre' hnext'
  refine ⟨?_, ?_, u.drop (p.here cap V).used, ?_, hnext, hnext'⟩
  · rw [next_state hq hq', next_state ht.sound hp', hvalue]
  · rw [hpre', hpre, h.pre]
  · rw [hpre, List.append_assoc, List.take_append_drop, hX]

end Near

/-- How a line comment is read. -/
theorem here_line {cs : List Char} (h : ahead p.rest = '/' :: '/' :: cs)
    (hV : V.contains .comment) :
    (p.here cap V).value = ⟨some ⟨0, .comment⟩, p.state⟩
      ∧ (p.here cap V).used = 2 + (cs.takeWhile inLine).length := by
  rw [here, h, tokenHere_comment cap V p.state (by simp [startsComment])]
  exact Prod.mk.inj (comment_line_told hV)

theorem takeWhile_filled {α : Type} {f : α → Bool} {a b : List α} (ha : a.all f)
    (h : ((a ++ b).takeWhile f).length ≤ a.length) : b.takeWhile f = [] := by
  rw [List.takeWhile_append_of_pos (List.all_eq_true.1 ha), List.length_append] at h
  exact List.eq_nil_of_length_eq_zero (by omega)

/-- A line comment up to the end of `X` goes on with blanks that are put in behind it, up to the end
of its line. Behind it both lexers are in front of the same text. -/
theorem Near.next_of_line {w : List Char} (h : Near X Y (w ++ Y) p q) (ht : p.Keeps cap Y t)
    (hq : q.Sound cap) (hblank : Blank w) (hV : V.contains .comment)
    (hp' : p.token? cap V = some u) (hq' : q.token? cap V = some v) {cs : List Char}
    (hcs : ahead p.rest = '/' :: '/' :: cs ++ Y) (hall : cs.all inLine) :
    Past X (X ++ w) (p.next cap V) (q.next cap V) := by
  obtain ⟨g, x, hwhole, hX, hblanks, hblanks', hrest, hrest', hahead, hahead'⟩ := h.parts ht
  obtain rfl : x = '/' :: '/' :: cs := List.append_cancel_right (hahead.symm.trans hcs)
  have hlen : ((cs ++ Y).takeWhile inLine).length ≤ cs.length := by
    rcases hwhole.comment_cases with ⟨y, hy, hlen⟩ | ⟨y, hy, -⟩
    · rw [List.cons.injEq] at hy
      exact hy.2 ▸ hlen
    · simp at hy
  have hY := takeWhile_filled hall hlen
  have hfull (r : List Char) : (cs ++ r).takeWhile inLine = cs ++ r.takeWhile inLine :=
    List.takeWhile_append_of_pos (List.all_eq_true.1 hall)
  have hgoes : (w ++ Y).takeWhile inLine = w.takeWhile inLine := by
    rw [List.takeWhile_append]
    split_ifs with hlen
    · rw [hY, List.append_nil, (List.takeWhile_prefix _).eq_of_length hlen]
    · rfl
  have hw : w.takeWhile inLine ++ w.dropWhile inLine = w := List.takeWhile_append_dropWhile
  have hsplit : '/' :: '/' :: cs ++ (w ++ Y)
      = '/' :: '/' :: cs ++ w.takeWhile inLine ++ (w.dropWhile inLine ++ Y) := by
    rw [List.append_assoc, ← List.append_assoc (w.takeWhile inLine), hw]
  -- One comment ends where `X` does, the other behind the first blanks of `w`.
  have hline : (p.here cap V).value = ⟨some ⟨0, .comment⟩, p.state⟩
      ∧ (p.here cap V).used = 2 + ((cs ++ Y).takeWhile inLine).length := here_line hahead hV
  have hline' : (q.here cap V).value = ⟨some ⟨0, .comment⟩, q.state⟩
      ∧ (q.here cap V).used = 2 + ((cs ++ (w ++ Y)).takeWhile inLine).length :=
    here_line hahead' hV
  obtain ⟨hvalue, hused⟩ := hline
  obtain ⟨hvalue', hused'⟩ := hline'
  have hused : (p.here cap V).used = ('/' :: '/' :: cs).length := by
    rw [hused, hfull, hY, List.append_nil, Nat.add_comm]
    rfl
  have hused' : (q.here cap V).used = ('/' :: '/' :: cs ++ w.takeWhile inLine).length := by
    rw [hused', hfull, hgoes, Nat.add_comm]
    rfl
  rw [hsplit] at hrest' hahead'
  obtain ⟨hpre, hnext⟩ := next_of_here ht.sound hp' hrest hblanks hahead hused.le
  obtain ⟨hpre', hnext'⟩ := next_of_here hq hq' hrest' hblanks' hahead' hused'.le
  rw [hused, List.take_length, hX] at hpre
  rw [hused, List.drop_length] at hnext
  rw [hused', List.take_length, h.pre, ← List.append_assoc, hX] at hpre'
  rw [hused', List.drop_length] at hnext'
  refine ⟨?_, [], w.dropWhile inLine, [], Y, rfl, ?_, hnext, hnext', ?_, ?_⟩
  · rw [next_state hq hq', next_state ht.sound hp', hvalue, hvalue', h.state]
  · exact List.all_eq_true.2 fun b hb =>
      List.all_eq_true.1 hblank b ((List.dropWhile_suffix _).subset hb)
  · rw [hpre]
  · rw [hpre', List.append_assoc, hw, List.append_nil]

namespace Near

variable {g w : List Char}

/-- Where nothing but blanks is left of `X` both are in front of the same text. -/
theorem past (h : Near X Y (w ++ Y) p q) (hw : Blank w) (hg : Blank g) (hX : p.pre ++ g = X) :
    Past X (X ++ w) p q := by
  obtain ⟨m, hm, hp, hq⟩ := h.split
  obtain rfl : m = g := List.append_cancel_left (hm.trans hX.symm)
  have hblank : Blank (m ++ w) := by
    rw [Blank, List.all_append, Bool.and_eq_true]
    exact ⟨hg, hw⟩
  refine ⟨h.state, m, m ++ w, [], Y, hg, hblank, hp, ?_, ?_, ?_⟩
  · rw [hq, List.append_assoc]
  · rw [hX, List.append_nil]
  · rw [h.pre, ← List.append_assoc, hX, List.append_nil]

/-- A token that is no comment ends at the same place in both texts. -/
theorem used_eq (h : Near X Y Z p q) (hz : Text.Ends Z) (ht : p.Keeps cap Y t) (hV : Welcomes V)
    (hfair : Fair t V) (hu : p.token? cap V = some u) (hextra : u.token.kind.isExtra = false) :
    (q.here cap V).used = (p.here cap V).used := by
  obtain ⟨x, hx, -, -, hseals⟩ := h.told hz ht hV hfair
  refine hseals fun cs hcs _ => ?_
  subst hcs
  obtain ⟨f, hf, hkind, -⟩ := here_found ht.sound hu
  have hline : (p.here cap V).value = ⟨some ⟨0, .comment⟩, p.state⟩
      ∧ (p.here cap V).used = 2 + ((cs ++ Y).takeWhile inLine).length := here_line hx hV.1
  have hvalue := hline.1
  rw [hvalue, Option.some.injEq] at hf
  rw [← hkind, ← hf] at hextra
  cases hextra

end Near

end Stand

end Lexer

namespace Parse

open Lexer (Stand Welcomes)

variable {cap : Nat} {V W : TokenSet} {p q : Stand} {t u v : Scanned}
  {text text' P P' X Y Z : List Char}

/-- The text of a token is what was used up for it behind the blanks. -/
theorem spelled_here (hp : p.Sound cap) (htext : p.pre ++ p.rest = text)
    (h : p.token? cap V = some u) :
    spelled text u.token = (Lexer.ahead p.rest).take (p.here cap V).used := by
  obtain ⟨f, hf, -⟩ := Stand.here_found hp h
  rw [spelled_eq hp htext h, Stand.reading_here hp, Lexer.behindBlanks, hf]
  simp

theorem spelled_of_used (hp : p.Sound cap) (htext : p.pre ++ p.rest = text)
    (h : p.token? cap V = some u) (hq : q.Sound cap) (htext' : q.pre ++ q.rest = text')
    (h' : q.token? cap V = some v) {x : List Char} (hx : Lexer.ahead p.rest = x ++ Y)
    (hx' : Lexer.ahead q.rest = x ++ Z) (hle : (p.here cap V).used ≤ x.length)
    (hused : (q.here cap V).used = (p.here cap V).used) :
    spelled text' v.token = spelled text u.token := by
  rw [spelled_here hp htext h, spelled_here hq htext' h', hx, hx', hused,
    List.take_append_of_le_length hle, List.take_append_of_le_length hle]

end Parse

end AvroTree
