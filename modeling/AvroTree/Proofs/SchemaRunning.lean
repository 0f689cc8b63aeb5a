import AvroTree.Proofs.Running
import AvroTree.Proofs.SchemaText

/-!
# Schemas are read

A text that is a schema is read by the parser without complaints (`file_runs`). The readers of a
level can go as deep as the brackets that may still be opened.
-/

namespace AvroTree

open Token (Kind)
open Text (Gap pass?)

namespace SchemaText

variable {Item : List Char → List Char → Prop}

/-- Whatever is in the relation takes up some of the text. -/
def Shrinks (L : List Char → List Char → Prop) : Prop :=
  ∀ s r, L s r → r.length < s.length

theorem Quoted.lt {raw s r : List Char} (h : Quoted raw s r) : r.length < s.length := by
  rw [h.2]
  simp only [List.length_cons, List.length_append]
  omega

theorem str_shrinks : Shrinks Str :=
  fun _ _ ⟨_, h⟩ => h.lt

theorem Row.lt (hItem : Shrinks Item) {s r : List Char} (h : Row Item s r) :
    r.length < s.length := by
  induction h with
  | one h => exact hItem _ _ h
  | more h hcomma hgap _ ih =>
    have h₁ := hItem _ _ h
    have h₂ := hcomma.suffix.length_le
    have h₃ := hgap.suffix.length_le
    rw [List.length_cons] at h₂
    omega

theorem enclosed_shrinks (hItem : Shrinks Item) (opening closing : Char) :
    Shrinks (Enclosed Item opening closing) := by
  rintro s r ⟨t, rfl, hgap | ⟨u, v, hgap, hrow, hend⟩⟩
  · have h₁ := hgap.suffix.length_le
    rw [List.length_cons] at h₁ ⊢
    omega
  · have h₁ := hgap.suffix.length_le
    have h₂ := hrow.lt hItem
    have h₃ : r.length < v.length := by
      rcases hend with h | ⟨w, h, h'⟩
      · exact h.suffix.length_le
      · have := h.suffix.length_le
        have := h'.suffix.length_le
        simp only [List.length_cons] at *
        omega
    rw [List.length_cons]
    omega

theorem JsonText.le {room : Nat} {s r : List Char} (h : JsonText room s r) :
    r.length ≤ s.length := by
  rw [h.2, List.length_drop]
  omega

structure Layer.Shrinks (l : Layer) : Prop where
  value : SchemaText.Shrinks l.value
  object : SchemaText.Shrinks l.object
  objects : SchemaText.Shrinks l.objects
  strings : SchemaText.Shrinks l.strings
  values : SchemaText.Shrinks l.values

theorem Member.le {room : Nat} {inner : Layer} {key : String} {s r : List Char}
    (hinner : inner.Shrinks) (h : Member room inner key s r) : r.length ≤ s.length := by
  have either {L : List Char → List Char → Prop} {barred : List Char} (hL : SchemaText.Shrinks L)
      (h : L s r ∨ JsonBut barred room s r) : r.length ≤ s.length :=
    h.elim (fun h => (hL s r h).le) fun h => h.1.le
  unfold Member at h
  split at h
  · exact either hinner.value h
  · exact either hinner.value h
  · exact either hinner.value h
  · exact either hinner.objects h
  · exact either hinner.strings h
  · exact either hinner.values h
  · exact h.le

theorem pair_shrinks {room : Nat} {inner : Layer} (hinner : inner.Shrinks) :
    Shrinks (Pair room inner) := by
  rintro s r ⟨raw, t, u, v, hkey, hcolon, hgap, hmember⟩
  have h₁ := hkey.lt
  have h₂ := hcolon.suffix.length_le
  have h₃ := hgap.suffix.length_le
  have h₄ := hmember.le hinner
  rw [List.length_cons] at h₂
  omega

theorem layer_shrinks : ∀ n, (layer n).Shrinks
  | 0 => ⟨str_shrinks, nofun, nofun, nofun, nofun⟩
  | n + 1 => by
    have hinner := layer_shrinks n
    have hpair : Shrinks (Pair n (layer n)) := pair_shrinks hinner
    have hobject := enclosed_shrinks hpair '\x7b' '\x7d'
    have hvalues := enclosed_shrinks hinner.value '[' ']'
    refine ⟨?_, hobject, enclosed_shrinks hinner.object _ _, enclosed_shrinks str_shrinks _ _,
      hvalues⟩
    rintro s r (h | h | h)
    · exact str_shrinks s r h
    · exact hobject s r h
    · exact hvalues s r h

end SchemaText

namespace Text

theorem isSpace_of_isDigit {c : Char} (h : c.isDigit) : isSpace c = false := by
  simp only [Char.isDigit, Bool.and_eq_true, decide_eq_true_eq] at h
  have hlo : 48 ≤ c.toNat := h.1
  have hhi : c.toNat ≤ 57 := h.2
  have hne {d : Char} (hd : 57 < d.toNat) : c ≠ d := by
    rintro rfl
    omega
  have hwhite : isWhite c = false := by
    simp only [isWhite, inRanges, whiteRanges, List.any_cons, List.any_nil]
    simp
    omega
  simp [isSpace, hwhite, hne]

theorem pass?_of_ne {c : Char} {cs : List Char} (hslash : c ≠ '/') (hspace : isSpace c = false) :
    pass? (c :: cs) = none := by
  rw [pass?.eq_def]
  split <;> simp_all

end Text

namespace Lexer

variable {cap : Nat} {stack : List Bracket} {mode : Mode} {p : Punct} {b : Bracket}

theorem track_opening (hp : Bracket.openedBy? p = some b) (hdepth : stack.length < cap) :
    track cap { mode, stack } (.punct p) = (.punct p, { mode, stack := b :: stack }) := by
  rw [track]
  simp only [hp]
  exact if_neg (Nat.not_le.2 hdepth)

theorem track_closing (hp : Bracket.openedBy? p = none) (hp' : Bracket.closedBy? p = some b) :
    track cap { mode, stack := b :: stack } (.punct p) = (.punct p, { mode, stack }) := by
  rw [track]
  simp [hp, hp', State.close]

/-- A string starts with a quote. -/
theorem quote_of_plain {V : TokenSet} {c : Char} {s : List Char}
    (h : (plain V mode c s).value = .ok .string) : c = '"' ∨ c = '\'' ∧ mode ≠ .json := by
  have hword : (word V s).value ≠ .string := by
    rcases word_kind V s with hk | ⟨k, hk⟩ <;> simp [hk]
  revert h
  refine plain_forms (P := fun p => (p s).value = .ok .string → c = '"' ∨ c = '\'' ∧ mode ≠ .json) V
    mode c nofun (fun hc _ => hc) (fun _ h => quotedName_gives.other h nofun)
    (fun _ h => atName_gives.other h nofun) (fun _ h => number_gives.other h nofun)
    (fun _ h => ?_) (fun _ h => absurd (Except.ok.inj h) hword) nofun
  rw [signed] at h
  split at h
  · exact number_gives.other h nofun
  · cases h

theorem startsComment_of_ne {c : Char} {cs : List Char} (hslash : c ≠ '/') :
    startsComment (c :: cs) = false := by
  simp [startsComment_cons, hslash]

theorem lexeme_of_lacks {V : TokenSet} {state : State} {c : Char} {s : List Char}
    (h : V.contains .jsonSpan = false) : lexeme cap V state c s = plain V state.mode c s := by
  rw [lexeme, h, Bool.false_and, if_neg Bool.false_ne_true]

end Lexer

namespace Parse

open AvroTree.Parse.Parser
open Session (At Meets)
open SchemaText (Quoted Str JsonText JsonBut Row Layer layer Literal)

namespace Schema

/-- The place in front of `rest` with these brackets open. -/
def place (stack : List Bracket) (rest : List Char) : Place where
  state := { mode := .json, stack }
  rest
  done _ := True

variable {cap : Nat} {text : List Char} {stack stack' : List Bracket} {s r u : List Char}
  {V sync : TokenSet}

/-! ## Tokens -/

theorem place_nears {t : List Char} (hgap : Gap t u) : (place stack u).Nears t :=
  ⟨hgap, by simp [place]⟩

theorem next_mark {p : Punct} {t : List Char}
    (htrack : Lexer.track cap { mode := .json, stack } (.punct p)
      = (.punct p, { mode := .json, stack := stack' })) (hgap : Gap t u) :
    (place stack (p.char :: t)).Next cap (.punct p) (place stack' u) := by
  have hslash : p.char ≠ '/' := by cases p <;> decide
  have hspace : Text.isSpace p.char = false := by cases p <;> decide
  have hchar : Punct.ofChar? p.char = some p := by cases p <;> rfl
  refine ⟨rfl, id, fun _ _ => trivial, fun _ _ => ⟨Text.pass?_of_ne hslash hspace, nofun, htrack,
    p.char, t, 1, rfl, Lexer.startsComment_of_ne hslash, place_nears hgap, fun V _ hV => ?_⟩⟩
  rw [Lexer.lexeme_of_lacks hV]
  simp [Lexer.plain, hchar]

theorem next_string {raw : List Char} (h : Quoted raw s r) (hgap : Gap r u) :
    (place stack s).Next cap .string (place stack u) := by
  obtain ⟨hraw, rfl⟩ := h
  obtain ⟨hvalue, hused⟩ := SchemaText.stringRest_of_literal hraw r
  refine ⟨rfl, id, fun _ _ => trivial, fun _ _ =>
    ⟨Text.pass?_of_ne (by decide) (by decide), nofun, rfl, '"', raw ++ '"' :: r,
      raw.length + 2, rfl, Lexer.startsComment_of_ne (by decide), ?_, fun V _ hV => ?_⟩⟩
  · simpa using place_nears hgap
  · rw [Lexer.lexeme_of_lacks hV]
    have hplain : Lexer.plain V .json '"' ('"' :: (raw ++ '"' :: r))
        = Lexer.string '"' ('"' :: (raw ++ '"' :: r)) := rfl
    rw [show (place stack ('"' :: (raw ++ '"' :: r))).state.mode = .json from rfl, hplain,
      Lexer.string]
    refine ⟨hvalue, ?_⟩
    rw [Reading.after_used, List.drop_succ_cons, List.drop_zero, hused, Nat.add_comm]

theorem startsJson_plain {c : Char}
    (h : c ∈ ['\x7b', '[', '"', '-', 't', 'f', 'n'] ∨ c.isDigit) :
    c ≠ '/' ∧ Text.isSpace c = false := by
  refine ⟨?_, ?_⟩
  · rintro rfl
    revert h
    decide
  · rcases h with h | h
    · have hspace : ∀ d ∈ ['\x7b', '[', '"', '-', 't', 'f', 'n'], Text.isSpace d = false := by
        intro d hd
        simp only [List.mem_cons, List.not_mem_nil, or_false] at hd
        rcases hd with rfl | rfl | rfl | rfl | rfl | rfl | rfl <;> rfl
      exact hspace c h
    · exact Text.isSpace_of_isDigit h

theorem startsJson_bare {c : Char} {cs : List Char}
    (h : c ∈ ['\x7b', '[', '"', '-', 't', 'f', 'n'] ∨ c.isDigit) :
    pass? (c :: cs) = none ∧ Lexer.startsComment (c :: cs) = false :=
  have ⟨hslash, hspace⟩ := startsJson_plain h
  ⟨Text.pass?_of_ne hslash hspace, Lexer.startsComment_of_ne hslash⟩

theorem next_span (h : JsonText (cap - stack.length) s r) (hgap : Gap r u) :
    (place stack s).Next cap .jsonSpan (place stack u) := by
  obtain ⟨c, cs, rfl, hstarts, -, hc⟩ := h.start
  obtain ⟨hvalue, rfl⟩ := h
  refine ⟨rfl, id, fun _ _ => trivial, fun _ _ =>
    ⟨(startsJson_bare hc).1, nofun, rfl, c, cs, _, rfl, (startsJson_bare hc).2, place_nears hgap,
      fun V hV _ => ?_⟩⟩
  unfold Lexer.lexeme
  rw [hV, hstarts]
  simp [place, Lexer.State.depth, hvalue]

/-! ## Lists -/

/-- An element between two places with the same brackets open. -/
def Between (Item : List Char → List Char → Prop) (stack : List Bracket) (p q : Place) : Prop :=
  ∃ s t u, p = place stack s ∧ Item s t ∧ Gap t u ∧ q = place stack u

section Listing

variable {Item : List Char → List Char → Prop} {form : ListForm} {q : Place}

theorem next_comma {t : List Char} (hgap : Gap t u) :
    (place stack (',' :: t)).Next cap (.punct .comma) (place stack u) :=
  next_mark (p := .comma) rfl hgap

theorem Row.listing {v w : List Char} (h : Row Item s v) (hgap : Gap v w)
    (hrest : Listing cap form (Between Item stack) false true (place stack w) q) {some : Bool} :
    Listing cap form (Between Item stack) true some (place stack s) q := by
  induction h generalizing some with
  | one h => exact .item ⟨_, _, _, rfl, h, hgap, rfl⟩ hrest
  | more h hcomma hgap' _ ih =>
    exact .item ⟨_, _, _, rfl, h, hcomma, rfl⟩ (.comma (next_comma hgap') (ih hgap))

/-- What stands between two brackets is a list up to the second. -/
theorem enclosed_listing (cap : Nat) (stack : List Bracket) (form : ListForm) {opening : Char}
    {b : Bracket} (htrailing : form.trailing) (hopen : Bracket.openedBy? form.close = none)
    (hclose : Bracket.closedBy? form.close = some b)
    (h : SchemaText.Enclosed Item opening form.close.char s r) (hgap : Gap r u) :
    ∃ t v, s = opening :: t ∧ Gap t v
      ∧ Listing cap form (Between Item (b :: stack)) true false (place (b :: stack) v)
        (place stack u) := by
  have hend {wants some : Bool} : Listing cap form (Between Item (b :: stack)) wants some
      (place (b :: stack) (form.close.char :: r)) (place stack u) :=
    .close (fun _ _ => htrailing) (next_mark (Lexer.track_closing hopen hclose) hgap)
  obtain ⟨t, rfl, hempty | ⟨v, w, htv, hrow, hlast⟩⟩ := h
  · exact ⟨t, _, rfl, hempty, hend⟩
  · refine ⟨t, v, rfl, htv, ?_⟩
    rcases hlast with hlast | ⟨x, hcomma, hlast⟩
    · exact Row.listing hrow hlast hend
    · exact Row.listing hrow hcomma (.comma (next_comma hlast) hend)

end Listing

/-! ## Readers -/

/-- The readers of a level go `depth` levels deep. -/
structure Level.Runs (cap : Nat) (text : List Char) (l : Level) (depth : Nat) : Prop where
  value : ∀ {n : Nat} {stack : List Bracket} {s r u : List Char} {sync : TokenSet}, n ≤ depth →
    n + stack.length = cap → (layer n).value s r → Gap r u → sync.contains .jsonSpan = false →
    Parser.Runs (At cap text (place stack s)) (l.value sync) fun _ => At cap text (place stack u)
  object : ∀ (kind : Option NodeKind) {n : Nat} {stack : List Bracket} {s r u : List Char}
    {sync : TokenSet}, n ≤ depth + 1 → n + stack.length = cap → (layer n).object s r → Gap r u →
    sync.contains .jsonSpan = false →
    Starts cap text (.single (.punct .lBrace)) (place stack s) (l.object kind sync) (place stack u)

/-- Where there are levels inside, their readers go as deep as they say. -/
def Inside (cap : Nat) (text : List Char) (inner : Option Level) (depth : Nat) : Prop :=
  ∀ d, depth = d + 1 → ∃ l, inner = some l ∧ l.Runs cap text d

theorem next_opening {p : Punct} {b : Bracket} {t : List Char} (hp : Bracket.openedBy? p = some b)
    (hdepth : stack.length < cap) (hgap : Gap t u) :
    (place stack (p.char :: t)).Next cap (.punct p) (place (b :: stack) u) :=
  next_mark (Lexer.track_opening hp hdepth) hgap

theorem schemaValue_contains {k : Kind} (hk : k ∈ Grammar.schemaKinds) :
    First.schemaValue.contains k := by
  rw [First.schemaValue_eq]
  revert k
  decide

theorem schemaValue_jsonSpan : First.schemaValue.contains .jsonSpan = false := by
  rw [First.schemaValue_eq]
  decide

theorem Enclosed.start {Item : List Char → List Char → Prop} {opening closing : Char}
    (h : SchemaText.Enclosed Item opening closing s r) : ∃ t, s = opening :: t :=
  ⟨h.choose, h.choose_spec.1⟩

/-- A schema starts with a string or an opening bracket. -/
theorem value_next {n : Nat} (hn : n + stack.length = cap) (h : (layer n).value s r) :
    ∃ k q, First.schemaValue.contains k ∧ (place stack s).Next cap k q := by
  have hstring (h : Str s r) : ∃ k q, First.schemaValue.contains k ∧ (place stack s).Next cap k q :=
    ⟨.string, _, schemaValue_contains (by decide), next_string h.choose_spec (.refl r)⟩
  cases n with
  | zero => exact hstring h
  | succ n =>
    rcases h with h | h | h
    · exact hstring h
    · obtain ⟨t, rfl⟩ := Enclosed.start h
      exact ⟨_, _, schemaValue_contains (by decide),
        next_opening (p := .lBrace) rfl (by omega) (.refl t)⟩
    · obtain ⟨t, rfl⟩ := Enclosed.start h
      exact ⟨_, _, schemaValue_contains (by decide),
        next_opening (p := .lBracket) rfl (by omega) (.refl t)⟩

theorem kind_ne_jsonSpan {k : Kind} (h : V.contains k) (hV : V.contains .jsonSpan = false) :
    V.contains .jsonSpan = decide (k = .jsonSpan) := by
  rw [hV, eq_comm, decide_eq_false_iff_not]
  rintro rfl
  rw [hV] at h
  cases h

section Readers

variable {inner : Option Level} {depth n : Nat}

theorem brackets_starts {Item : List Char → List Char → Prop} (kind : NodeKind) {first : TokenSet}
    (element : TokenSet → Parser (List Node)) (hfirst : (⟨.rBracket, first, true⟩ : ListForm).Sound)
    (hItem : SchemaText.Shrinks Item)
    (hitem : ∀ {s t u : List Char} {sync : TokenSet}, Item s t → Gap t u →
      sync.contains .jsonSpan = false → Starts cap text first (place (.bracket :: stack) s)
        (element sync) (place (.bracket :: stack) u))
    (hdepth : stack.length < cap) (h : SchemaText.Enclosed Item '[' ']' s r) (hgap : Gap r u)
    (hsync : sync.contains .jsonSpan = false) :
    Starts cap text (.single (.punct .lBracket)) (place stack s) (brackets kind first element sync)
      (place stack u) := by
  obtain ⟨t, v, rfl, htv, hlisting⟩ :=
    enclosed_listing cap stack ⟨.rBracket, first, true⟩ rfl rfl rfl h hgap
  refine ⟨_, _, by simp, next_opening (p := .lBracket) rfl hdepth htv, ?_⟩
  unfold brackets
  refine bump_runs.bind fun opening => (listing_runs hfirst hsync ?_ hlisting).bind fun items =>
    branch_runs
  rintro _ _ ⟨s, t, u, rfl, hst, htu, rfl⟩
  have h₁ := hItem s t hst
  have h₂ := htu.suffix.length_le
  exact ⟨h₂.trans_lt h₁, fun sync hsync => hitem hst htu hsync⟩

theorem sound_schemaValue : (⟨.rBracket, First.schemaValue, true⟩ : ListForm).Sound := by
  rw [First.schemaValue_eq]
  exact ⟨by decide, by decide, by decide, by decide⟩

theorem Level.Runs.starts {l : Level} (hl : l.Runs cap text depth) (hdepth : n ≤ depth)
    (hn : n + stack.length = cap) (h : (layer n).value s r) (hgap : Gap r u)
    (hsync : sync.contains .jsonSpan = false) :
    Starts cap text First.schemaValue (place stack s) (do return [← l.value sync])
      (place stack u) := by
  obtain ⟨k, q, hk, hnext⟩ := value_next hn h
  exact ⟨k, q, hk, hnext,
    Runs.seen ((hl.value hdepth hn h hgap hsync).bind fun _ => .pure fun _ h => h)⟩

theorem unquotedAhead_keeps {A : Session → Prop} : Parser.Runs A unquotedAhead fun _ => A :=
  fun s hs => ⟨_, s, rfl, hs⟩

theorem value_runs (hinner : Inside cap text inner depth) (hdepth : n ≤ depth)
    (hn : n + stack.length = cap) (h : (layer n).value s r) (hgap : Gap r u)
    (hsync : sync.contains .jsonSpan = false) :
    Parser.Runs (At cap text (place stack s)) (value inner sync) fun _ =>
      At cap text (place stack u) := by
  have hpeek {k : Kind} {q : Place} (hk : k ∈ Grammar.schemaKinds)
      (hnext : (place stack s).Next cap k q) :
      Parser.Runs (At cap text (place stack s)) (peek First.schemaValue) fun t s' =>
        t.kind = k ∧ s'.Meets cap text (place stack s) k q :=
    peek_runs hnext (schemaValue_contains hk)
      (kind_ne_jsonSpan (schemaValue_contains hk) schemaValue_jsonSpan)
  have hstring (h : Str s r) : Parser.Runs (At cap text (place stack s)) (value inner sync) fun _ =>
      At cap text (place stack u) := by
    obtain ⟨raw, h⟩ := h
    refine (hpeek (by decide) (next_string h hgap)).bind fun t => .given fun ht => ?_
    simp only [ht]
    exact unquotedAhead_keeps.bind fun name => leaf_runs
  cases n with
  | zero => exact hstring h
  | succ n =>
    obtain ⟨d, rfl⟩ := Nat.exists_eq_add_of_le' (Nat.one_le_of_lt hdepth)
    obtain ⟨l, rfl, hl⟩ := hinner d rfl
    rcases h with h | h | h
    · exact hstring h
    · obtain ⟨k, q, hk, hnext, hrun⟩ := hl.object none (by omega) hn h hgap hsync
      obtain rfl := TokenSet.eq_of_contains_single rfl hk
      refine (hpeek (by decide) hnext).bind fun t => .given fun ht => ?_
      simp only [ht]
      exact hrun
    · have hitem {s t u : List Char} {sync : TokenSet} (hst : (layer n).value s t) (htu : Gap t u)
          (hsync : sync.contains .jsonSpan = false) :
          Starts cap text First.schemaValue (place (.bracket :: stack) s)
            (do return [← l.value sync]) (place (.bracket :: stack) u) :=
        hl.starts (Nat.le_of_succ_le_succ hdepth) (by rw [List.length_cons]; omega) hst htu hsync
      obtain ⟨k, q, hk, hnext, hrun⟩ := brackets_starts .unionType
        (fun sync => do return [← l.value sync]) sound_schemaValue
        (SchemaText.layer_shrinks n).value hitem (by omega) h hgap hsync
      obtain rfl := TokenSet.eq_of_contains_single rfl hk
      refine (hpeek (by decide) hnext).bind fun t => .given fun ht => ?_
      simp only [ht]
      exact hrun

theorem wholeMember_runs (hn : n + stack.length = cap) (h : JsonText n s r) (hgap : Gap r u)
    (hsync : sync.contains .jsonSpan = false) :
    Parser.Runs (At cap text (place stack s)) (wholeMember sync) fun _ =>
      At cap text (place stack u) := by
  obtain rfl : n = cap - stack.length := by omega
  exact expect_runs (next_span h hgap) hsync

/-- What a value that is kept whole is not taken for. -/
theorem lacks_of_json {K : TokenSet} (hn : n + stack.length = cap) (h : JsonText n s r)
    (hK : ∀ c cs V, s = c :: cs →
      K.contains (Lexer.kindOf (Lexer.plain V .json c (c :: cs)).value) = false) :
    (place stack s).Lacks cap K := by
  obtain ⟨c, cs, rfl, -, hroom, hc⟩ := h.start
  refine fun _ _ => ⟨(startsJson_bare hc).1, ?_⟩
  rintro _ _ ⟨⟩
  refine ⟨(startsJson_bare hc).2, fun V => hK c cs V rfl, fun hopen => ?_⟩
  show stack.length < cap
  have hpos : 0 < n := by
    refine hroom ?_
    cases hp : Punct.ofChar? c with
    | none => simp [hp] at hopen
    | some p =>
      obtain rfl := Lexer.char_of_ofChar? hp
      cases p <;> simp_all [Punct.char, Bracket.openedBy?]
  omega

theorem kindOf_eq_ok {v : Except LexError Kind} {k : Kind} (hk : k.isError = false)
    (h : Lexer.kindOf v = k) : v = .ok k := by
  cases v with
  | ok j => rw [← h, Lexer.kindOf]
  | error e =>
    rw [← h] at hk
    cases hk

theorem schemaMember_runs (hinner : Inside cap text inner depth) (hdepth : n ≤ depth)
    (hn : n + stack.length = cap)
    (h : (layer n).value s r ∨ JsonBut ['\x7b', '[', '"'] n s r) (hgap : Gap r u)
    (hsync : sync.contains .jsonSpan = false) :
    Parser.Runs (At cap text (place stack s)) (schemaMember inner sync) fun _ =>
      At cap text (place stack u) := by
  unfold schemaMember
  rcases h with h | ⟨h, hbarred⟩
  · obtain ⟨k, q, hk, hnext⟩ := value_next hn h
    refine (peek_runs hnext hk (kind_ne_jsonSpan hk schemaValue_jsonSpan)).bind fun t =>
      .given fun ht => ?_
    rw [ht, if_pos hk]
    exact flush_meets.bind fun extras => Runs.seen
      ((value_runs hinner hdepth hn h hgap hsync).bind fun _ => .pure fun _ h => h)
  · have hlacks : (place stack s).Lacks cap First.schemaValue := by
      refine lacks_of_json hn h fun c cs V hs => ?_
      subst hs
      have hc := hbarred c rfl
      by_contra hcontains
      rw [First.schemaValue_eq, Bool.not_eq_false] at hcontains
      have hmem := TokenSet.mem_of_contains (by decide) hcontains
      simp only [Grammar.schemaKinds, List.mem_cons, List.not_mem_nil, or_false] at hmem
      rcases hmem with hk | hk | hk
      · rcases Lexer.quote_of_plain (kindOf_eq_ok rfl hk) with rfl | ⟨-, hmode⟩
        · exact hc (by decide)
        · exact hmode rfl
      · rw [Lexer.char_of_ofChar? (Lexer.ofChar?_of_plain (kindOf_eq_ok rfl hk))] at hc
        exact hc (by decide)
      · rw [Lexer.char_of_ofChar? (Lexer.ofChar?_of_plain (kindOf_eq_ok rfl hk))] at hc
        exact hc (by decide)
    refine (peek_lacks hlacks (by rw [First.schemaValue_eq]; decide) schemaValue_jsonSpan).bind
      fun t => .given fun ht => ?_
    rw [ht, if_neg Bool.false_ne_true]
    exact wholeMember_runs hn h hgap hsync

theorem listMember_runs {kind : NodeKind} {first : TokenSet}
    {element : Level → TokenSet → Parser (List Node)}
    (hfirst : (⟨.rBracket, first, true⟩ : ListForm).Sound) (hn : n + stack.length = cap)
    (h : (∃ Item l, inner = some l ∧ stack.length < cap ∧ SchemaText.Shrinks Item
        ∧ SchemaText.Enclosed Item '[' ']' s r
        ∧ ∀ {s t u : List Char} {sync : TokenSet}, Item s t → Gap t u →
          sync.contains .jsonSpan = false → Starts cap text first (place (.bracket :: stack) s)
            (element l sync) (place (.bracket :: stack) u))
      ∨ JsonBut ['['] n s r) (hgap : Gap r u) (hsync : sync.contains .jsonSpan = false) :
    Parser.Runs (At cap text (place stack s)) (listMember inner kind first element sync) fun _ =>
      At cap text (place stack u) := by
  unfold listMember
  rcases h with ⟨Item, l, rfl, hdepth, hItem, h, hitem⟩ | ⟨h, hbarred⟩
  · obtain ⟨k, q, hk, hnext, hrun⟩ := brackets_starts kind (element l) hfirst hItem hitem hdepth h
      hgap hsync
    obtain rfl := TokenSet.eq_of_contains_single rfl hk
    refine (nextIs_true hnext).bind fun b => .given fun hb => ?_
    rw [hb, if_pos rfl]
    exact flush_meets.bind fun extras => hrun.bind fun items => .pure fun _ h => h
  · have hlacks : (place stack s).Lacks cap (.single (.punct .lBracket)) := by
      refine lacks_of_json hn h fun c cs V hs => ?_
      subst hs
      have hc := hbarred c rfl
      by_contra hcontains
      have hk := TokenSet.eq_of_contains_single rfl (by simpa using hcontains)
      rw [Lexer.char_of_ofChar? (Lexer.ofChar?_of_plain (kindOf_eq_ok rfl hk))] at hc
      exact hc (by decide)
    refine (nextIs_false hlacks rfl nofun).bind fun b => .given fun hb => ?_
    rw [hb, if_neg Bool.false_ne_true]
    exact wholeMember_runs hn h hgap hsync

theorem member_runs {key : String} (hinner : Inside cap text inner depth) (hdepth : n ≤ depth)
    (hn : n + stack.length = cap) (h : SchemaText.Member n (layer n) key s r) (hgap : Gap r u)
    (hsync : sync.contains .jsonSpan = false) :
    Parser.Runs (At cap text (place stack s)) (member inner key sync) fun _ =>
      At cap text (place stack u) := by
  have hinside (m : Nat) (hm : n = m + 1) : ∃ l d, inner = some l ∧ l.Runs cap text d ∧ m ≤ d := by
    obtain ⟨d, rfl⟩ := Nat.exists_eq_add_of_le' (Nat.one_le_of_lt (hm ▸ hdepth))
    obtain ⟨l, hl, hruns⟩ := hinner d rfl
    exact ⟨l, d, hl, hruns, by omega⟩
  unfold member
  split
  · exact schemaMember_runs hinner hdepth hn h hgap hsync
  · exact schemaMember_runs hinner hdepth hn h hgap hsync
  · exact schemaMember_runs hinner hdepth hn h hgap hsync
  · refine listMember_runs ⟨by decide, by decide, by decide, by decide⟩ hn
      (Or.imp_left (fun h => ?_) h) hgap hsync
    cases n with
    | zero => exact h.elim
    | succ m =>
      obtain ⟨l, d, rfl, hl, hd⟩ := hinside m rfl
      refine ⟨_, l, rfl, by omega, (SchemaText.layer_shrinks m).object, h, fun hst htu hsync => ?_⟩
      exact (hl.object _ (by omega) (by rw [List.length_cons]; omega) hst htu hsync).ret _
  · refine listMember_runs ⟨by decide, by decide, by decide, by decide⟩ hn
      (Or.imp_left (fun h => ?_) h) hgap hsync
    cases n with
    | zero => exact h.elim
    | succ m =>
      obtain ⟨l, d, rfl, hl, hd⟩ := hinside m rfl
      refine ⟨_, l, rfl, by omega, SchemaText.str_shrinks, h, fun ⟨_, hst⟩ htu hsync => ?_⟩
      exact ⟨.string, _, by simp, next_string hst htu, bump_runs⟩
  · refine listMember_runs sound_schemaValue hn (Or.imp_left (fun h => ?_) h) hgap hsync
    cases n with
    | zero => exact h.elim
    | succ m =>
      obtain ⟨l, d, rfl, hl, hd⟩ := hinside m rfl
      refine ⟨_, l, rfl, by omega, (SchemaText.layer_shrinks m).value, h, fun hst htu hsync => ?_⟩
      exact hl.starts hd (by rw [List.length_cons]; omega) hst htu hsync
  · unfold SchemaText.Member at h
    split at h
    all_goals first | contradiction | exact wholeMember_runs hn h hgap hsync

/-- The text of a key is what stands between its quotes. -/
theorem unquotedAhead_runs {raw : List Char} {q : Place} (h : Quoted raw s r) :
    Parser.Runs (Meets cap text (place stack s) .string q) unquotedAhead fun name s' =>
      name = String.ofList raw ∧ s'.Meets cap text (place stack s) .string q := by
  intro s' hs
  refine ⟨_, s', rfl, congrArg String.ofList ?_, hs⟩
  obtain ⟨hraw, rfl⟩ := h
  obtain ⟨la, o, hla, ho, hkind, hstate, hahead⟩ :=
    hs.ahead (Text.pass?_of_ne (by decide) (by decide))
  have htoken := (ho.lookahead la hla).token
  obtain ⟨c, cs, hc, hread, -, -, hused⟩ := Lexer.Stand.past_of_token? ho.sound htoken
    (by rw [hkind]; rfl) (by rw [hkind]; rfl)
  rw [hkind] at hread
  obtain ⟨rfl, rfl⟩ := List.cons.inj (hc.symm.trans hahead)
  have hplain := (Lexer.plain_of_lexeme (k := .string) nofun hread).2
  rw [Session.textAhead_eq ho hla, spelled_eq ho.sound ho.append htoken, hahead, hused,
    Nat.add_sub_cancel_left, hplain]
  have hstring : (Lexer.plain la.scanned.valid o.state.mode '"' ('"' :: (raw ++ '"' :: r))).used
      = raw.length + 2 := by
    show (Lexer.string '"' ('"' :: (raw ++ '"' :: r))).used = _
    rw [Lexer.string, Reading.after_used, List.drop_succ_cons, List.drop_zero,
      (SchemaText.stringRest_of_literal hraw r).2, Nat.add_comm]
  rw [hstring]
  have htake : ('"' :: (raw ++ '"' :: r)).take (raw.length + 2) = '"' :: (raw ++ ['"']) := by
    simp [List.take_append]
  show unquote (('"' :: (raw ++ '"' :: r)).take (raw.length + 2)) = raw
  rw [htake]
  simp [unquote]

theorem pair_starts (hinner : Inside cap text inner depth) (hdepth : n ≤ depth)
    (hn : n + stack.length = cap) (h : SchemaText.Pair n (layer n) s r) (hgap : Gap r u)
    (hsync : sync.contains .jsonSpan = false) :
    Starts cap text (.single .string) (place stack s) (pair inner sync) (place stack u) := by
  obtain ⟨raw, t, v, w, hkey, hcolon, hvw, hmember⟩ := h
  refine ⟨.string, _, by simp, next_string hkey hcolon, ?_⟩
  unfold pair
  refine flush_meets.bind fun extras => (unquotedAhead_runs hkey).bind fun name => .given ?_
  rintro rfl
  refine leaf_runs.bind fun key => (expect_runs (next_mark (p := .colon) rfl hvw) hsync).bind
    fun colon => (member_runs hinner hdepth hn hmember hgap hsync).bind fun value =>
      branch_runs.bind fun node => .pure fun _ h => h

theorem object_starts {kind : Option NodeKind} (hinner : Inside cap text inner depth)
    (hdepth : n ≤ depth + 1) (hn : n + stack.length = cap) (h : (layer n).object s r)
    (hgap : Gap r u) (hsync : sync.contains .jsonSpan = false) :
    Starts cap text (.single (.punct .lBrace)) (place stack s) (object inner kind sync)
      (place stack u) := by
  cases n with
  | zero => exact h.elim
  | succ n =>
    obtain ⟨t, v, rfl, htv, hlisting⟩ :=
      enclosed_listing cap stack ⟨.rBrace, .single .string, true⟩ rfl rfl rfl h hgap
    refine ⟨_, _, by simp, next_opening (p := .lBrace) rfl (by omega) htv, ?_⟩
    unfold object
    refine bump_runs.bind fun opening => (listing_runs ⟨by decide, by decide, by decide, by decide⟩
      hsync ?_ hlisting).bind fun members => get_runs.bind fun _ =>
        branch_runs.imp (fun _ h => h.2) fun _ _ h => h
    rintro _ _ ⟨s, t, u, rfl, hst, htu, rfl⟩
    have h₁ := SchemaText.pair_shrinks (SchemaText.layer_shrinks n) s t hst
    have h₂ := htu.suffix.length_le
    refine ⟨h₂.trans_lt h₁, fun sync hsync => Starts.ret _ ?_⟩
    exact pair_starts hinner (by omega) (by rw [List.length_cons]; omega) hst htu hsync

end Readers

theorem level_runs : ∀ depth, (level depth).Runs cap text depth
  | 0 => by
    have hinner : Inside cap text none 0 := nofun
    exact ⟨fun hdepth hn h hgap hsync => value_runs hinner hdepth hn h hgap hsync,
      fun _ _ _ _ _ _ _ hdepth hn h hgap hsync => object_starts hinner hdepth hn h hgap hsync⟩
  | depth + 1 => by
    have hinner : Inside cap text (some (level depth)) (depth + 1) := by
      rintro d ⟨⟩
      exact ⟨_, rfl, level_runs depth⟩
    exact ⟨fun hdepth hn h hgap hsync => value_runs hinner hdepth hn h hgap hsync,
      fun _ _ _ _ _ _ _ hdepth hn h hgap hsync => object_starts hinner hdepth hn h hgap hsync⟩

/-- A text that is a schema is read to its end. -/
theorem file_runs (h : (layer cap).value s r) (hgap : Gap r []) :
    Parser.Runs (At cap text (place [] s)) file fun _ => At cap text (place [] []) := by
  have hsync : (TokenSet.single .eof).contains .jsonSpan = false := by decide
  have hroom : cap + ([] : List Bracket).length = cap := rfl
  obtain ⟨k, q, hk, hnext⟩ := value_next hroom h
  unfold file
  refine (recoverTo_runs hnext hk (kind_ne_jsonSpan hk schemaValue_jsonSpan) hsync).bind
    fun r => .given ?_
  rintro rfl
  have htrailing : Parser.Runs (At cap text (place [] [])) trailing fun _ =>
      At cap text (place [] []) := by
    refine (loop_runs (W := fun _ p => p = place [] []) (fun nodes p hp => ?_) rfl).bind fun _ =>
      .pure fun _ h => h
    subst hp
    refine (peek_atEnd rfl).bind fun t => .given fun ht => ?_
    rw [ht, if_pos rfl]
    exact .pure fun _ h => h
  simp only [↓reduceIte]
  refine flush_meets.bind fun extras => get_runs.bind fun s₀ => ?_
  refine Runs.knowing (fun s hs => ?_) fun hdepth : cap ≤ s₀.maxDepth => ?_
  · rw [hs.1]
    exact hs.2.toAt.cap_le
  · refine Runs.bind (((level_runs s₀.maxDepth).value hdepth hroom h hgap hsync).imp
      (fun _ hs => hs.2.toAt) fun _ _ hs => hs) fun schema => ?_
    simp only [pure_bind]
    exact htrailing.bind fun rest => flush_at.bind fun extras => branch_runs

end Schema

end Parse

end AvroTree
