import AvroTree.Proofs.SchemaRunning

/-!
# What is read is a schema

The tokens of a schema stand in the text only where a schema stands there (`tokenLevel_reads`): each
token is spelled as its kind says, and between two tokens there is nothing but blanks and comments.
A bracket that is taken had room to be opened.
-/

namespace AvroTree

open Token (Kind)
open Text (Gap)

namespace Lexer

variable {cap : Nat} {p q : Stand} {ts us : List Token} {t : Token}

namespace Passage

theorem split (ts : List Token) (h : Passage cap p (ts ++ us) q) :
    ∃ m, Passage cap p ts m ∧ Passage cap m us q := by
  obtain ⟨log, hlog, hts⟩ := h
  obtain ⟨ts', us', hmap, rfl, rfl⟩ := List.filter_eq_append_iff.1 hts
  obtain ⟨log₁, log₂, rfl, rfl, rfl⟩ := List.map_eq_append_iff.1 hmap
  obtain ⟨m, h₁, h₂⟩ := hlog.split
  exact ⟨m, ⟨log₁, h₁, rfl⟩, log₂, h₂, rfl⟩

theorem sound (h : Passage cap p ts q) (hp : p.Sound cap) : q.Sound cap := by
  obtain ⟨log, hlog, -⟩ := h
  exact hlog.sound hp

theorem text_eq (h : Passage cap p ts q) : q.pre ++ q.rest = p.pre ++ p.rest := by
  obtain ⟨log, hlog, -⟩ := h
  exact hlog.text_eq

/-- Where no tokens are read there are only blanks and comments. -/
theorem gap (h : Passage cap p [] q) (hp : p.Sound cap) :
    Gap p.rest q.rest ∧ q.state = p.state := by
  obtain ⟨log, hlog, hnil⟩ := h
  induction hlog with
  | nil => exact ⟨.refl _, rfl⟩
  | @cons p q t log ht _ ih =>
    have hextra : t.token.kind.isExtra := by
      by_contra hk
      simp [Scanned.proper, hk] at hnil
    obtain ⟨hgap, hstate⟩ := Stand.gap_of_extra hp ht hextra
    obtain ⟨hgap', hstate'⟩ := ih (Stand.next_sound hp) (by
      simpa [Scanned.proper, hextra] using hnil)
    exact ⟨hgap.trans hgap', hstate'.trans hstate⟩

/-- The first token of some, behind comments. -/
theorem first (h : Passage cap p (t :: ts) q) :
    ∃ m u, Passage cap p [] m ∧ m.token? cap u.valid = some u ∧ u.token = t
      ∧ Passage cap (m.next cap u.valid) ts q := by
  obtain ⟨log, hlog, hts⟩ := h
  induction hlog with
  | nil => cases hts
  | @cons p q u log hu rest ih =>
    cases hk : u.token.kind.isExtra with
    | true =>
      obtain ⟨m, v, hm, hv, hvt, hrest⟩ := ih (by simpa [Scanned.proper, hk] using hts)
      exact ⟨m, v, (Passage.extra hu hk).append hm, hv, hvt, hrest⟩
    | false =>
      obtain ⟨rfl, hlog⟩ : u.token = t ∧ Scanned.proper log = ts := by
        simpa [Scanned.proper, hk] using hts
      exact ⟨p, u, .nil p, hu, rfl, log, rest, hlog⟩

end Passage

end Lexer

namespace Parse

open AvroTree.Parse.Parser

namespace Schema

open Lexer (Passage Stand)
open SchemaText (Quoted Str JsonText JsonBut Row Layer layer)

/-- A stand in a schema, with these brackets open. -/
structure Within (cap : Nat) (text : List Char) (stack : List Bracket) (p : Stand) : Prop where
  sound : p.Sound cap
  append : p.pre ++ p.rest = text
  state : p.state = { mode := .json, stack }

/-- The tokens in `T` stand only where what `L` says stands, and leave these brackets open. -/
def Reads (cap : Nat) (text : List Char) (stack : List Bracket) (T : List Token → Prop)
    (L : List Char → List Char → Prop) (stack' : List Bracket) : Prop :=
  ∀ (p q : Stand) (ts : List Token), Within cap text stack p → T ts → Passage cap p ts q →
    Within cap text stack' q ∧ ∃ s r, Gap p.rest s ∧ L s r ∧ Gap r q.rest

variable {cap : Nat} {text : List Char} {stack stack' : List Bracket} {p q : Stand}
  {t : Token} {ts : List Token}

/-! ## Tokens -/

/-- What stands in the text where a token is read. -/
theorem Within.single (hp : Within cap text stack p) (h : Passage cap p [t] q)
    (hproper : t.kind.isProper) (herror : t.kind.isError = false) :
    ∃ c cs V, Gap p.rest (c :: cs)
      ∧ (Lexer.lexeme cap V { mode := .json, stack } c (c :: cs)).value = .ok t.kind
      ∧ Gap ((c :: cs).drop (Lexer.lexeme cap V { mode := .json, stack } c (c :: cs)).used) q.rest
      ∧ onward text t = c :: cs
      ∧ spelled text t
        = (c :: cs).take (Lexer.lexeme cap V { mode := .json, stack } c (c :: cs)).used
      ∧ (Lexer.track cap { mode := .json, stack } t.kind).1 = t.kind
      ∧ Within cap text (Lexer.track cap { mode := .json, stack } t.kind).2.stack q := by
  obtain ⟨m, u, hpm, hu, rfl, hmq⟩ := h.first
  obtain ⟨hgap, hstate⟩ := hpm.gap hp.sound
  have hm : m.Sound cap := hpm.sound hp.sound
  have htext : m.pre ++ m.rest = text := hpm.text_eq.trans hp.append
  obtain ⟨c, cs, hc, hread, htrack, hnext, hused⟩ :=
    Lexer.Stand.past_of_token? hm hu hproper herror
  have hspelled := spelled_eq hm htext hu
  rw [hused, Nat.add_sub_cancel_left, hc] at hspelled
  have hrest : (m.next cap u.valid).rest
      = (c :: cs).drop (Lexer.lexeme cap u.valid m.state c (c :: cs)).used := by
    rw [hnext, Lexer.Stand.past, ← List.drop_drop, ← hc, Lexer.ahead]
  obtain ⟨hgap', hstate'⟩ := hmq.gap (Stand.next_sound hm)
  have hq : q.Sound cap := hmq.sound (Stand.next_sound hm)
  rw [hstate, hp.state] at hread hspelled hrest htrack
  refine ⟨c, cs, u.valid, hgap.trans (hc ▸ Lexer.gap_ahead _), hread, hrest ▸ hgap',
    (onward_eq hm htext hu).trans hc, hspelled, htrack, hq, ?_, ?_⟩
  · rw [hmq.text_eq, Stand.next_append, htext]
  · have hcomment : q.state.comment = none := hq.comment
    rw [hstate', hnext, Lexer.Stand.past, hstate, hp.state] at hcomment ⊢
    rw [Lexer.impliedMode_of_ne (by simp)]
    exact congrArg₂ (Lexer.State.mk .json) rfl hcomment

section Tokens

variable {k : Punct}

theorem Within.mark (hp : Within cap text stack p) (h : Passage cap p [t] q)
    (ht : t.kind = .punct k) :
    ∃ r, Gap p.rest (k.char :: r) ∧ Gap r q.rest
      ∧ (Lexer.track cap { mode := .json, stack } (.punct k)).1 = .punct k
      ∧ Within cap text (Lexer.track cap { mode := .json, stack } (.punct k)).2.stack q := by
  obtain ⟨c, cs, V, hgap, hread, hrest, -, -, htrack, hq⟩ :=
    hp.single h (by rw [ht]; rfl) (by rw [ht]; rfl)
  rw [ht] at hread htrack hq
  obtain ⟨hplain, hused⟩ := Lexer.plain_of_lexeme (by simp) hread
  have hchar := Lexer.ofChar?_of_plain hplain
  obtain rfl := Lexer.char_of_ofChar? hchar
  rw [hused, show (Lexer.plain V .json k.char (k.char :: cs)).used = 1 by
    simp [Lexer.plain, hchar]] at hrest
  exact ⟨cs, hgap, hrest, htrack, hq⟩

/-- A bracket that is taken was not one too many. -/
theorem Within.opening {b : Bracket} (hp : Within cap text stack p) (h : Passage cap p [t] q)
    (ht : t.kind = .punct k) (hopen : Bracket.openedBy? k = some b) :
    stack.length < cap ∧ Within cap text (b :: stack) q
      ∧ ∃ r, Gap p.rest (k.char :: r) ∧ Gap r q.rest := by
  obtain ⟨r, hgap, hrest, htrack, hq⟩ := hp.mark h ht
  have hdepth : stack.length < cap := by
    by_contra hfull
    rw [Lexer.track] at htrack
    simp only [hopen] at htrack
    split at htrack
    · cases htrack
    · exact absurd (Nat.not_lt.1 hfull) ‹_›
  rw [Lexer.track_opening hopen hdepth] at hq
  exact ⟨hdepth, hq, r, hgap, hrest⟩

theorem Within.closing {b : Bracket} (hp : Within cap text (b :: stack) p) (h : Passage cap p [t] q)
    (ht : t.kind = .punct k) (hopen : Bracket.openedBy? k = none)
    (hclose : Bracket.closedBy? k = some b) :
    Within cap text stack q ∧ ∃ r, Gap p.rest (k.char :: r) ∧ Gap r q.rest := by
  obtain ⟨r, hgap, hrest, -, hq⟩ := hp.mark h ht
  rw [Lexer.track_closing hopen hclose] at hq
  exact ⟨hq, r, hgap, hrest⟩

/-- A string and what stands between its quotes. -/
theorem Within.string (hp : Within cap text stack p) (h : Passage cap p [t] q)
    (ht : t.kind = .string) :
    Within cap text stack q ∧ ∃ raw s r, Gap p.rest s ∧ Quoted raw s r ∧ Gap r q.rest
      ∧ unquoted text t.span = String.ofList raw := by
  obtain ⟨c, cs, V, hgap, hread, hrest, -, hspelled, -, hq⟩ :=
    hp.single h (by rw [ht]; rfl) (by rw [ht]; rfl)
  rw [ht] at hread hq
  obtain ⟨hplain, hused⟩ := Lexer.plain_of_lexeme (k := .string) nofun hread
  obtain rfl : c = '"' := (Lexer.quote_of_plain hplain).resolve_right fun h => h.2 rfl
  have hstring : Lexer.plain V .json '"' ('"' :: cs) = (Lexer.stringRest '"' cs).after 1 := rfl
  rw [show (Lexer.State.mk Mode.json stack none).mode = .json from rfl, hstring] at hplain hused
  obtain ⟨raw, hraw, hcs, hlength⟩ := SchemaText.literal_of_stringRest hplain
  rw [hused, Reading.after_used, Nat.add_comm] at hrest hspelled
  refine ⟨hq, raw, _, _, hgap, ⟨hraw, congrArg _ hcs⟩, hrest, congrArg String.ofList ?_⟩
  have htake : ('"' :: cs).take ((Lexer.stringRest '"' cs).used + 1) = '"' :: (raw ++ ['"']) := by
    rw [hlength, hcs]
    simp [List.take_append]
  show unquote (spelled text t) = raw
  rw [hspelled, htake]
  simp [unquote]

theorem Within.span (hp : Within cap text stack p) (h : Passage cap p [t] q)
    (ht : t.kind = .jsonSpan) :
    Within cap text stack q ∧ ∃ s r, Gap p.rest s ∧ JsonText (cap - stack.length) s r
      ∧ Gap r q.rest ∧ onward text t = s := by
  obtain ⟨c, cs, V, hgap, hread, hrest, honward, -, -, hq⟩ :=
    hp.single h (by rw [ht]; rfl) (by rw [ht]; rfl)
  rw [ht] at hread hq
  obtain ⟨hvalue, hused⟩ := Lexer.jsonValue_of_lexeme hread
  rw [hused] at hrest
  exact ⟨hq, _, _, hgap, ⟨hvalue, rfl⟩, hrest, honward⟩

end Tokens

/-! ## Lists -/

section Lists

variable {T : List Token → Prop} {L : List Char → List Char → Prop}

theorem Row.snoc {Item : List Char → List Char → Prop} {s t u v r : List Char} (h : Row Item s t)
    (hcomma : Gap t (',' :: u)) (hgap : Gap u v) (hlast : Item v r) : Row Item s r := by
  induction h with
  | one h => exact .more h hcomma hgap (.one hlast)
  | more h hcomma' hgap' _ ih => exact .more h hcomma' hgap' (ih hcomma)

theorem comma_reads :
    Reads cap text stack (One (.punct .comma)) (fun s r => s = ',' :: r) stack := by
  rintro p q _ hp ⟨t, rfl, ht⟩ h
  obtain ⟨r, hgap, hrest, -, hq⟩ := hp.mark h ht
  exact ⟨hq, _, r, hgap, rfl, hrest⟩

theorem separated_reads (hT : Reads cap text stack T L stack) :
    Reads cap text stack (Separated T) (Row L) stack := by
  intro p q ts hp hts h
  induction hts generalizing q with
  | one hts =>
    obtain ⟨hq, s, r, hs, hsr, hr⟩ := hT _ _ _ hp hts h
    exact ⟨hq, s, r, hs, .one hsr, hr⟩
  | more _ hcomma hus ih =>
    obtain ⟨m, hpm, hmq⟩ := h.split _
    obtain ⟨n, hpn, hnm⟩ := hpm.split _
    obtain ⟨hn, s, r, hs, hsr, hr⟩ := ih _ hpn
    obtain ⟨hm, _, u, hv, rfl, hu⟩ := comma_reads _ _ _ hn ⟨_, rfl, hcomma⟩ hnm
    obtain ⟨hq, v, w, huv, hvw, hw⟩ := hT _ _ _ hm hus hmq
    exact ⟨hq, s, w, hs, Row.snoc hsr (hr.trans hv) (hu.trans huv) hvw, hw⟩

theorem enclosed_reads {opening closing : Punct} {b : Bracket}
    (hopening : Bracket.openedBy? opening = some b) (hclosed : Bracket.openedBy? closing = none)
    (hclosing : Bracket.closedBy? closing = some b)
    (hT : stack.length < cap → Reads cap text (b :: stack) T L (b :: stack)) :
    Reads cap text stack (Enclosed opening closing T)
      (fun s r => stack.length < cap ∧ SchemaText.Enclosed L opening.char closing.char s r)
      stack := by
  rintro p q _ hp ⟨t, us, rfl, ht, hus⟩ h
  obtain ⟨m, hpm, hmq⟩ := h.split [t]
  obtain ⟨hdepth, hm, r, hr, hrm⟩ := hp.opening hpm ht hopening
  cases hus with
  | empty hclose =>
    obtain ⟨hq, v, hv, hvq⟩ := hm.closing hmq hclose hclosed hclosing
    exact ⟨hq, _, v, hr, ⟨hdepth, r, rfl, .inl (hrm.trans hv)⟩, hvq⟩
  | plain hrow hclose =>
    obtain ⟨n, hmn, hnq⟩ := hmq.split _
    obtain ⟨hn, s, u, hs, hsu, hu⟩ := separated_reads (hT hdepth) _ _ _ hm hrow hmn
    obtain ⟨hq, v, hv, hvq⟩ := hn.closing hnq hclose hclosed hclosing
    exact ⟨hq, _, v, hr, ⟨hdepth, r, rfl, .inr ⟨s, u, hrm.trans hs, hsu, .inl (hu.trans hv)⟩⟩, hvq⟩
  | trailing _ hrow hcomma hclose =>
    obtain ⟨o, hmo, hoq⟩ := hmq.split _
    obtain ⟨n, hmn, hno⟩ := hmo.split _
    obtain ⟨hn, s, u, hs, hsu, hu⟩ := separated_reads (hT hdepth) _ _ _ hm hrow hmn
    obtain ⟨ho, _, w, hw, rfl, hwo⟩ := comma_reads _ _ _ hn ⟨_, rfl, hcomma⟩ hno
    obtain ⟨hq, v, hv, hvq⟩ := ho.closing hoq hclose hclosed hclosing
    exact ⟨hq, _, v, hr, ⟨hdepth, r, rfl,
      .inr ⟨s, u, hrm.trans hs, hsu, .inr ⟨w, hu.trans hw, hwo.trans hv⟩⟩⟩, hvq⟩

end Lists

/-! ## Schemas -/

theorem string_reads : Reads cap text stack (One .string) Str stack := by
  rintro p q _ hp ⟨t, rfl, ht⟩ h
  obtain ⟨hq, raw, s, r, hs, hsr, hr, -⟩ := hp.string h ht
  exact ⟨hq, s, r, hs, ⟨raw, hsr⟩, hr⟩

theorem whole_reads {barred : List Char} :
    Reads cap text stack (Whole text barred) (JsonBut barred (cap - stack.length)) stack := by
  rintro p q _ hp ⟨t, rfl, ht, hbarred⟩ h
  obtain ⟨hq, s, r, hs, hsr, hr, rfl⟩ := hp.span h ht
  exact ⟨hq, _, r, hs, ⟨hsr, hbarred⟩, hr⟩

/-- What a level may hold stands only where there is room for its brackets. -/
structure TokenLevel.Reads (cap : Nat) (text : List Char) (l : TokenLevel) : Prop where
  value : ∀ stack, Schema.Reads cap text stack l.value (layer (cap - stack.length)).value stack
  object : ∀ stack, Schema.Reads cap text stack l.object (layer (cap - stack.length)).object stack

section Members

variable {inner : Option TokenLevel} (hinner : ∀ l, inner = some l → l.Reads cap text)

theorem layer_of_lt {stack : List Bracket} (b : Bracket) (h : stack.length < cap) :
    cap - stack.length = cap - (b :: stack).length + 1 := by
  rw [List.length_cons]
  omega

include hinner

theorem value_reads :
    Reads cap text stack (ValueTokens inner) (layer (cap - stack.length)).value stack := by
  rintro p q ts hp (hts | ⟨l, hl, hts | hts⟩) h
  · obtain ⟨hq, s, r, hs, hsr, hr⟩ := string_reads _ _ _ hp hts h
    refine ⟨hq, s, r, hs, ?_, hr⟩
    cases cap - stack.length with
    | zero => exact hsr
    | succ n => exact .inl hsr
  · obtain ⟨hq, s, r, hs, hsr, hr⟩ := (hinner l hl).object stack _ _ _ hp hts h
    refine ⟨hq, s, r, hs, ?_, hr⟩
    cases hn : cap - stack.length with
    | zero =>
      rw [hn] at hsr
      exact hsr.elim
    | succ n =>
      rw [hn] at hsr
      exact .inr (.inl hsr)
  · obtain ⟨hq, s, r, hs, ⟨hdepth, hsr⟩, hr⟩ := enclosed_reads rfl rfl rfl
      (fun _ => (hinner l hl).value (.bracket :: stack)) _ _ _ hp hts h
    refine ⟨hq, s, r, hs, ?_, hr⟩
    rw [layer_of_lt .bracket hdepth]
    exact .inr (.inr hsr)

omit hinner in
/-- A list, or a value that is none. -/
theorem list_reads {element : TokenLevel → List Token → Prop}
    (list : Layer → List Char → List Char → Prop) (item : Nat → List Char → List Char → Prop)
    (hlist : ∀ n, list (layer (n + 1)) = SchemaText.Enclosed (item n) '[' ']')
    (h : ∀ l, inner = some l → stack.length < cap →
      Reads cap text (.bracket :: stack) (element l) (item (cap - stack.length - 1))
        (.bracket :: stack)) :
    Reads cap text stack (ListTokens text inner element)
      (fun s r => list (layer (cap - stack.length)) s r ∨ JsonBut ['['] (cap - stack.length) s r)
      stack := by
  rintro p q ts hp (⟨l, hl, hts⟩ | hts) hpq
  · obtain ⟨hq, s, r, hs, ⟨hdepth, hsr⟩, hr⟩ := enclosed_reads rfl rfl rfl (h l hl) _ _ _ hp hts hpq
    refine ⟨hq, s, r, hs, .inl ?_, hr⟩
    obtain ⟨n, hn⟩ := Nat.exists_eq_succ_of_ne_zero (Nat.sub_ne_zero_of_lt hdepth)
    rw [hn] at hsr ⊢
    rw [hlist]
    exact hsr
  · obtain ⟨hq, s, r, hs, hsr, hr⟩ := whole_reads _ _ _ hp hts hpq
    exact ⟨hq, s, r, hs, .inr hsr, hr⟩

theorem member_reads (key : String) :
    Reads cap text stack (MemberTokens text inner key)
      (SchemaText.Member (cap - stack.length) (layer (cap - stack.length)) key) stack := by
  have hvalue : Reads cap text stack
      (fun ts => ValueTokens inner ts ∨ Whole text ['\x7b', '[', '"'] ts)
      (fun s r => (layer (cap - stack.length)).value s r
        ∨ JsonBut ['\x7b', '[', '"'] (cap - stack.length) s r) stack := by
    rintro p q ts hp (hts | hts) h
    · obtain ⟨hq, s, r, hs, hsr, hr⟩ := value_reads hinner _ _ _ hp hts h
      exact ⟨hq, s, r, hs, .inl hsr, hr⟩
    · obtain ⟨hq, s, r, hs, hsr, hr⟩ := whole_reads _ _ _ hp hts h
      exact ⟨hq, s, r, hs, .inr hsr, hr⟩
  unfold MemberTokens
  split
  · exact hvalue
  · exact hvalue
  · exact hvalue
  · refine list_reads (·.objects) (fun n => (layer n).object) (fun n => rfl) fun l hl hdepth => ?_
    exact (hinner l hl).object (.bracket :: stack)
  · exact list_reads (·.strings) (fun _ => Str) (fun n => rfl)
      fun l hl hdepth => string_reads
  · refine list_reads (·.values) (fun n => (layer n).value) (fun n => rfl) fun l hl hdepth => ?_
    exact (hinner l hl).value (.bracket :: stack)
  · rintro p q ts hp hts h
    obtain ⟨hq, s, r, hs, hsr, hr⟩ := whole_reads _ _ _ hp hts h
    refine ⟨hq, s, r, hs, ?_, hr⟩
    unfold SchemaText.Member
    split
    all_goals first | contradiction | exact hsr.1

theorem pair_reads (stack : List Bracket) :
    Reads cap text stack (PairTokens text inner)
      (SchemaText.Pair (cap - stack.length) (layer (cap - stack.length))) stack := by
  rintro p q _ hp ⟨key, colon, us, rfl, hkey, hcolon, hus⟩ h
  obtain ⟨m, hpm, hmq⟩ := h.split [key]
  obtain ⟨n, hmn, hnq⟩ := hmq.split [colon]
  obtain ⟨hm, raw, s, r, hs, hsr, hr, hraw⟩ := hp.string hpm hkey
  obtain ⟨u, hu, hun, -, hn⟩ := hm.mark hmn hcolon
  rw [hraw] at hus
  obtain ⟨hq, v, w, hv, hvw, hw⟩ := member_reads hinner _ _ _ _ hn hus hnq
  exact ⟨hq, s, w, hs, ⟨raw, r, u, v, hsr, hr.trans hu, hun.trans hv, hvw⟩, hw⟩

theorem object_reads :
    Reads cap text stack (ObjectTokens text inner) (layer (cap - stack.length)).object stack := by
  intro p q ts hp hts h
  obtain ⟨hq, s, r, hs, ⟨hdepth, hsr⟩, hr⟩ := enclosed_reads rfl rfl rfl
    (fun _ => pair_reads hinner (.brace :: stack)) _ _ _ hp hts h
  refine ⟨hq, s, r, hs, ?_, hr⟩
  rw [layer_of_lt .brace hdepth]
  exact hsr

end Members

theorem tokenLevel_reads : ∀ n, (tokenLevel text n).Reads cap text
  | 0 => ⟨fun _ => value_reads (by simp), fun _ => object_reads (by simp)⟩
  | n + 1 => by
    have hinner : ∀ l, some (tokenLevel text n) = some l → l.Reads cap text := by
      rintro _ ⟨⟩
      exact tokenLevel_reads n
    exact ⟨fun _ => value_reads hinner, fun _ => object_reads hinner⟩

end Schema

end Parse

end AvroTree
