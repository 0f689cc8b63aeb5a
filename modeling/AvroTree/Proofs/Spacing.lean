import AvroTree.Proofs.Counterparts
import AvroTree.Proofs.Following
import AvroTree.Proofs.Nesting

/-!
# Side by side to the end of a text

What a lexer reads without faults up to the end of its text (`Stand.Clean`) it also reads when
blanks are put in between two tokens. The two lexers are then in front of the same text, blanks
apart, or in front of the same token (`Stand.Abreast`), and whatever they look for they find tokens
that are twins (`Abreast.meets`).
-/

namespace AvroTree

open Token (Kind)

namespace Lexer

open Text (size)

theorem isMunched_of_mark {c : Char} {m : Punct} (h : Punct.ofChar? c = some m) :
    isMunched c = false := by
  have hc : m.char = c := by simpa using List.find?_some h
  subst hc
  cases m <;> decide

theorem isMunched_of_isSpace {c : Char} (h : Text.isSpace c) : isMunched c = false := by
  simp [isMunched, isNamePart_of_isSpace c h, Text.isDigit_of_isSpace h,
    beq_of_isSpace (c := '.') rfl c h, isSign_of_isSpace c h]

theorem ends_of_blank {w : List Char} (hw : Blank w) (hne : w ≠ []) (s : List Char) :
    Text.Ends (w ++ s) := by
  obtain ⟨b, w, rfl⟩ := List.exists_cons_of_ne_nil hne
  intro c hc
  obtain rfl : b = c := Option.some.inj hc
  exact List.all_eq_true.1 hw b List.mem_cons_self

/-- A comment is found where one comes first and is wanted. -/
theorem comment_of_welcomes {V : TokenSet} (hV : Welcomes V) (state : State) {s : List Char}
    (h : leadsComment s) : (comment V false state s).value.found ≠ none := by
  rw [leadsComment, Bool.and_eq_true, Bool.or_eq_true] at h
  obtain ⟨-, hend⟩ := h
  by_cases hl : s[1]? = some '/'
  · rw [comment_line V state hl, if_pos hV.1]
    exact Option.some_ne_none _
  · have hclosed : (commentBody (s.drop 2)).value = .closed := by simpa [hl] using hend
    have hwanted : V.contains (commentKind V state s).token := by
      cases commentKind V state s
      · exact hV.1
      · exact hV.2
    rw [comment_block V state hl, if_pos hwanted, Reading.seeing_value, finishComment_eq,
      closeComment, Reading.after_value, if_pos hclosed]
    exact Option.some_ne_none _

namespace Stand

variable {cap : Nat} {V : TokenSet} {p q : Stand} {t u : Scanned} {log more : List Scanned}
  {X Y Z w : List Char}

/-- From `p` on the tokens of `log` are read, and behind them only blanks are left. The tokens are
in order, and behind JSON values there are marks. -/
structure Clean (cap : Nat) (p : Stand) (log : List Scanned) : Prop where
  sound : p.Sound cap
  trail : ∃ q, Trail cap p log q ∧ ahead q.rest = []
  meant : ∀ t ∈ log, t.token.kind.isMeant
  marked : ∀ ks k ls, (Scanned.proper log).map (·.kind) = ks ++ .jsonSpan :: k :: ls →
    ∃ m, k = .punct m

namespace Clean

theorem token (h : Clean cap p (t :: more)) : p.token? cap t.valid = some t := by
  obtain ⟨q, htrail, -⟩ := h.trail
  cases htrail with
  | cons ht => exact ht

theorem tail (h : Clean cap p (t :: more)) : Clean cap (p.next cap t.valid) more where
  sound := next_sound h.sound
  trail := by
    obtain ⟨q, htrail, hq⟩ := h.trail
    cases htrail with
    | cons _ hmore => exact ⟨q, hmore, hq⟩
  meant u hu := h.meant u (List.mem_cons_of_mem t hu)
  marked ks k ls hks := by
    cases hextra : t.token.kind.isExtra with
    | true => exact h.marked ks k ls (by simpa [Scanned.proper, hextra] using hks)
    | false =>
      refine h.marked (t.token.kind :: ks) k ls ?_
      simpa [Scanned.proper, hextra] using hks

theorem ahead_eq_nil (h : Clean cap p []) : ahead p.rest = [] := by
  obtain ⟨q, htrail, hq⟩ := h.trail
  rwa [htrail.eq_of_nil] at hq

/-- Where a token that is no comment stands first it starts with the first character that is
left. -/
theorem head_mark {c : Char} {cs : List Char} {m : Punct} (h : Clean cap p (t :: more))
    (hk : t.token.kind = .punct m) (hc : ahead p.rest = c :: cs) : Punct.ofChar? c = some m := by
  obtain ⟨d, ds, hd, hread, -⟩ := past_of_token? h.sound h.token (by rw [hk]; rfl) (by rw [hk]; rfl)
  obtain ⟨rfl, rfl⟩ := List.cons.inj (hc.symm.trans hd)
  rw [hk] at hread
  exact lexeme_opening hread

/-- Behind a JSON value nothing comes that a name or a number could go on with. -/
theorem follow (h : Clean cap p (t :: more)) (hk : t.token.kind = .jsonSpan) :
    ∀ c ∈ (p.next cap t.valid).rest.head?, isMunched c = false := by
  intro c hc
  by_contra hmunched
  rw [Bool.not_eq_false] at hmunched
  obtain ⟨cs, hrest⟩ := List.head?_eq_some_iff.1 hc
  have hspace : Text.isSpace c = false := by
    rw [Bool.eq_false_iff]
    intro hs
    rw [isMunched_of_isSpace hs] at hmunched
    cases hmunched
  have hahead : ahead (p.next cap t.valid).rest = c :: cs := by
    rw [hrest, ahead_cons, if_neg (by simp [hspace])]
  have hslash : c ≠ '/' := by
    rintro rfl
    revert hmunched
    decide
  cases more with
  | nil =>
    rw [h.tail.ahead_eq_nil] at hahead
    cases hahead
  | cons u more =>
    have hextra : u.token.kind.isExtra = false := by
      rw [isExtra_eq h.tail.sound h.tail.token, hahead, leadsComment, startsComment_of_ne hslash,
        Bool.false_and]
    have hproper : Scanned.proper (t :: u :: more) = t.token :: u.token :: Scanned.proper more := by
      have hplain : t.token.kind.isExtra = false := by rw [hk]; rfl
      simp [Scanned.proper, hplain, hextra]
    obtain ⟨m, hm⟩ := h.marked [] u.token.kind ((Scanned.proper more).map (·.kind)) (by
      rw [hproper, List.map_cons, List.map_cons, hk, List.nil_append])
    rw [isMunched_of_mark (h.tail.head_mark hm hahead)] at hmunched
    cases hmunched

/-- A token that stops in `X` can be told from what is left of it. -/
theorem keeps (h : Clean cap p (t :: more)) (htext : p.pre ++ p.rest = X ++ Y)
    (hstop : t.token.span.stop.byte ≤ size X) : p.Keeps cap Y t where
  sound := h.sound
  token := h.token
  meant := h.meant t List.mem_cons_self
  short := by
    rw [stop_eq h.token, Location.behind_byte] at hstop
    obtain ⟨mid, -, hmid⟩ :=
      Text.prefix_of_size_le ((next_append cap t.valid p).trans htext) hstop
    rw [hmid, List.length_append]
    exact Nat.le_add_left _ _
  follow := h.follow

end Clean

/-- Two lexers are in front of the same text, blanks apart, or have the same text in front of them
up to the place where the blanks `w` are put in. -/
def Abreast (X Y w : List Char) (p q : Stand) : Prop :=
  Past X (X ++ w) p q ∨ Near X Y (w ++ Y) p q

/-- No token reaches over the end of `X`. -/
def Apart (X : List Char) (log : List Scanned) : Prop :=
  ∀ t ∈ log, size X ≤ t.token.span.start.byte ∨ t.token.span.stop.byte ≤ size X

/-- Both lexers are in front of the same text, or the next token stands in front of the place where
the blanks are put in. -/
theorem Abreast.resolve (h : Abreast X Y w p q) (hp : Clean cap p log) (hw : Blank w)
    (hapart : Apart X log) : Past X (X ++ w) p q
      ∨ Near X Y (w ++ Y) p q ∧ ∃ t more, log = t :: more ∧ p.Keeps cap Y t := by
  refine h.elim .inl fun hnear => ?_
  obtain ⟨m, hX, hrest, -⟩ := hnear.split
  by_cases hm : ahead m = []
  · exact .inl (hnear.past hw (blank_of_ahead hm) hX)
  obtain ⟨hblanks, hahead⟩ := ahead_of_ne_nil hm Y
  cases log with
  | nil =>
    rw [← hrest, hp.ahead_eq_nil] at hahead
    exact absurd (List.append_eq_nil_iff.1 hahead.symm).1 hm
  | cons t more =>
    refine .inr ⟨hnear, t, more, rfl, hp.keeps (X := X) ?_ ?_⟩
    · rw [hrest, ← List.append_assoc, hX]
    have hlt : t.token.span.start.byte < size X := by
      have hle : blanks m ≤ m.length := (List.takeWhile_prefix _).length_le
      have hpos := Nat.pos_of_ne_zero (mt Text.size_eq_zero.1 hm)
      have hsplit := congrArg size (List.take_append_drop (blanks m) m)
      rw [Text.size_append] at hsplit
      rw [start_eq hp.sound hp.token, Location.behind_byte, hrest, hblanks,
        List.take_append_of_le_length hle, Text.size_append, ← hX, Text.size_append]
      change 0 < size (m.drop (blanks m)) at hpos
      omega
    exact (hapart t List.mem_cons_self).resolve_left (Nat.not_le.2 hlt)

end Stand

end Lexer

namespace Parse

open Lexer (Stand Blank Welcomes ahead)
open Lexer.Stand (Abreast Apart Clean Keeps Near Fair)

variable {cap : Nat} {V : TokenSet} {p q : Stand} {t u v : Scanned} {la lb : Lookahead}
  {log : List Scanned} {text text' X Y Z w : List Char}

/-- Two tokens of the same kind, spelled alike unless they are comments, in two texts. -/
structure Twins (text text' : List Char) (t t' : Token) : Prop where
  kind : t'.kind = t.kind
  spelled : t.kind.isExtra = false → spelled text' t' = spelled text t
  head : (onward text' t').head? = (onward text t).head?
  comment : t.kind.isExtra → (onward text t).head? = some '/'
  brace : t.kind = .punct .lBrace → (onward text t).head? = some '{'

theorem head_of_extra (hp : p.Sound cap) (htext : p.pre ++ p.rest = text)
    (h : p.token? cap V = some u) (hextra : u.token.kind.isExtra) :
    (onward text u.token).head? = some '/' := by
  rw [onward_eq hp htext h]
  rw [Stand.isExtra_eq hp h, Lexer.leadsComment, Bool.and_eq_true] at hextra
  cases hs : ahead p.rest with
  | nil => simp [hs, Lexer.startsComment] at hextra
  | cons c cs =>
    rw [hs, Lexer.startsComment_cons] at hextra
    simp only [Bool.and_eq_true, beq_iff_eq] at hextra
    rw [hextra.1.1]
    rfl

theorem head_of_brace (hp : p.Sound cap) (htext : p.pre ++ p.rest = text)
    (h : p.token? cap V = some u) (hk : u.token.kind = .punct .lBrace) :
    (onward text u.token).head? = some '{' := by
  rw [onward_eq hp htext h]
  obtain ⟨c, cs, hc, hread, -⟩ := Stand.past_of_token? hp h (by rw [hk]; rfl) (by rw [hk]; rfl)
  rw [hk] at hread
  have hchar := List.find?_some (Lexer.lexeme_opening hread)
  rw [hc, ← beq_iff_eq.1 hchar]
  rfl

/-- Tokens that are read for the same text, or that end at the same place of it, are twins. -/
theorem twins_of_used (hp : p.Sound cap) (htext : p.pre ++ p.rest = text)
    (h : p.token? cap V = some u) (hq : q.Sound cap) (htext' : q.pre ++ q.rest = text')
    (h' : q.token? cap V = some v) (hkind : v.token.kind = u.token.kind)
    (hhead : (ahead q.rest).head? = (ahead p.rest).head?)
    (hspelled : u.token.kind.isExtra = false → spelled text' v.token = spelled text u.token) :
    Twins text text' u.token v.token where
  kind := hkind
  spelled := hspelled
  head := by rw [onward_eq hp htext h, onward_eq hq htext' h', hhead]
  comment := head_of_extra hp htext h
  brace := head_of_brace hp htext h

/-- What both may look for: no JSON value, or what the next token of the first is found with if it
is such a value or a comment. -/
def Modest (log : List Scanned) (la : Lookahead) : Prop :=
  la.valid.contains .jsonSpan = false ∨ log.head? = some la.scanned
    ∧ (la.scanned.token.kind = .jsonSpan ∨ la.scanned.token.kind.isExtra)

theorem fair_lexical (t : Scanned) : Fair t .lexical :=
  .inl (by rw [TokenSet.contains_lexical]; rfl)

theorem welcomes_lexical : Welcomes .lexical :=
  ⟨by rw [TokenSet.contains_lexical]; rfl, by rw [TokenSet.contains_lexical]; rfl⟩

/-- Comments are welcome among the kinds that the next token was found with. -/
theorem welcomes_scanned (hla : la.Reads cap p) (hV : Welcomes la.valid) :
    Welcomes la.scanned.valid := by
  rcases hla.choice with hchoice | ⟨-, hchoice⟩
  · exact hchoice ▸ hV
  · exact hchoice ▸ welcomes_lexical

/-- Such kinds are fair. -/
theorem Modest.fair {more : List Scanned} (h : Modest (t :: more) la) (hp : p.Sound cap)
    (hla : la.Reads cap p) (hV : Welcomes la.valid) :
    Fair t la.valid ∧ Fair t la.scanned.valid := by
  refine h.elim (fun hV => ⟨.inl hV, ?_⟩) ?_
  · rcases hla.choice with hchoice | ⟨-, hchoice⟩
    · exact .inl (hchoice ▸ hV)
    · exact hchoice ▸ fair_lexical t
  rintro ⟨ht, hkind⟩
  obtain rfl := Option.some.inj ht
  have hchoice : la.scanned.valid = la.valid := by
    refine hla.choice.resolve_right ?_
    rintro ⟨hmissed, hlexical⟩
    rcases hkind with hkind | hkind
    · obtain ⟨-, -, -, -, -, -, hwanted⟩ := Stand.lexeme_of_token? hp hla.token
        (by rw [hkind]; rfl) (by rw [hkind]; rfl)
      rw [hlexical, hkind, TokenSet.contains_lexical] at hwanted
      cases hwanted
    · rw [Stand.isExtra_eq hp hla.token] at hkind
      have hstarts : Lexer.startsComment (ahead p.rest) := by
        rw [Lexer.leadsComment, Bool.and_eq_true] at hkind
        exact hkind.1
      rw [Stand.token?_none_iff hp, Stand.here, Lexer.tokenHere_comment cap _ _ hstarts] at hmissed
      exact Lexer.comment_of_welcomes hV _ hkind hmissed
  exact ⟨.inr ⟨hchoice.symm, hkind⟩, .inr ⟨rfl, hkind⟩⟩

section Meeting

variable (hp : Clean cap p log) (hq : q.Sound cap) (htext : p.pre ++ p.rest = text)
  (htext' : q.pre ++ q.rest = text') (hla : la.Reads cap p) (hlb : lb.Reads cap q)
  (hv : lb.valid = la.valid)
include hp hq htext htext' hla hlb hv

/-- In front of the same text both find the same. -/
theorem meets_past {P P' : List Char} (h : Lexer.Stand.Past P P' p q) :
    lb.scanned.valid = la.scanned.valid ∧ Twins text text' la.scanned.token lb.scanned.token
      ∧ Lexer.Stand.Past P P' (p.next cap la.scanned.valid) (q.next cap lb.scanned.valid) := by
  obtain ⟨hvalid, hkind, -⟩ := hla.likewise hp.sound hq hlb hv (by rw [h.here_eq]) fun _ => by
    rw [h.here_eq]
  have htoken := hlb.token
  rw [hvalid] at htoken ⊢
  refine ⟨rfl, ?_, h.next hp.sound hq hla.token htoken⟩
  refine twins_of_used hp.sound htext hla.token hq htext' htoken hkind (by rw [h.ahead_eq])
    fun _ => ?_
  rw [spelled_here hp.sound htext hla.token, spelled_here hq htext' htoken, h.ahead_eq, h.here_eq]

/-- In front of the same token, which is `t` to the first, both find the same. -/
theorem meets_near {more : List Scanned} (h : Near X Y Z p q) (hz : Text.Ends Z)
    (ht : p.Keeps cap Y t) (hlog : log = t :: more) (hV : Welcomes la.valid)
    (hmodest : Modest log la) :
    lb.scanned.valid = la.scanned.valid ∧ Twins text text' la.scanned.token lb.scanned.token
      ∧ ((∀ u, ahead p.rest = u ++ Y → Lexer.Seals u Z) →
        Near X Y Z (p.next cap la.scanned.valid) (q.next cap lb.scanned.valid)) := by
  subst hlog
  obtain ⟨hfair, hfair'⟩ := hmodest.fair hp.sound hla hV
  have hV' := welcomes_scanned hla hV
  obtain ⟨-, -, hvalue, -⟩ := h.told hz ht hV hfair
  obtain ⟨hvalid, hkind, -⟩ := hla.likewise hp.sound hq hlb hv hvalue fun _ => by
    obtain ⟨-, -, hvalue, -⟩ := h.told hz ht welcomes_lexical (fair_lexical t)
    exact hvalue
  obtain ⟨u, hu, hvalue, hle, hused⟩ := h.told hz ht hV' hfair'
  obtain ⟨-, u', hwhole, -, -, -, -, -, hahead, hahead'⟩ := h.parts ht
  obtain rfl : u' = u := List.append_cancel_right (hahead.symm.trans hu)
  have htoken := hlb.token
  rw [hvalid] at htoken ⊢
  refine ⟨rfl, ?_, fun hseals => ?_⟩
  · refine twins_of_used hp.sound htext hla.token hq htext' htoken hkind ?_ fun hextra => ?_
    · rw [hahead, hahead', List.head?_append_of_ne_nil _ hwhole.ne_nil,
        List.head?_append_of_ne_nil _ hwhole.ne_nil]
    · exact spelled_of_used hp.sound htext hla.token hq htext' htoken hahead hahead' hle
        (h.used_eq hz ht hV' hfair' hla.token hextra)
  · refine h.next_of_used ht hq hla.token htoken hvalue (hused (hseals u' hahead)) fun x hx => ?_
    rwa [List.append_cancel_right (hx.symm.trans hahead)]

/-- Wherever two lexers stand abreast they find twins, and behind these they stand abreast again. -/
theorem meets_abreast (h : Abreast X Y w p q) (hw : Blank w) (hne : w ≠ [])
    (hapart : Apart X log) (hV : Welcomes la.valid) (hmodest : Modest log la) :
    lb.scanned.valid = la.scanned.valid ∧ Twins text text' la.scanned.token lb.scanned.token
      ∧ Abreast X Y w (p.next cap la.scanned.valid) (q.next cap lb.scanned.valid) := by
  rcases h.resolve hp hw hapart with hpast | ⟨hnear, t, more, hlog, ht⟩
  · obtain ⟨hvalid, htwins, hnext⟩ := meets_past hp hq htext htext' hla hlb hv hpast
    exact ⟨hvalid, htwins, .inl hnext⟩
  have hz := Lexer.ends_of_blank hw hne Y
  obtain ⟨hvalid, htwins, hnext⟩ :=
    meets_near hp hq htext htext' hla hlb hv hnear hz ht hlog hV hmodest
  refine ⟨hvalid, htwins, ?_⟩
  by_cases hseals : ∀ u, ahead p.rest = u ++ Y → Lexer.Seals u (w ++ Y)
  · exact .inr (hnext hseals)
  -- What is left of the first text is a line comment, which goes on in the second.
  simp only [Lexer.Seals, not_forall] at hseals
  obtain ⟨u, hu, cs, rfl, hall, -⟩ := hseals
  have htoken := hlb.token
  rw [hvalid] at htoken ⊢
  exact .inl (hnear.next_of_line ht hq hw (welcomes_scanned hla hV).1 hla.token htoken hu hall)

end Meeting

end Parse

end AvroTree
