import AvroTree.Proofs.Spelling

/-!
# Texts made of words

A text in which tokens are written out with single blanks between them (`Word.render`). A session
that reads such a text stands in front of some of its words (`Facing`), and each of them is found
where it is wanted (`peek_word`).
-/

namespace AvroTree

open Token (Kind)

namespace Token.Kind

/-- How many brackets are open behind a token when `depth` are open in front of it. -/
def depthAfter (depth : Nat) : Kind → Nat
  | .punct p =>
    if (Bracket.openedBy? p).isSome then depth + 1
    else if (Bracket.closedBy? p).isSome then depth - 1
    else depth
  | _ => depth

/-- The brackets that are open behind a token. Only the innermost one can be closed. -/
def turn (stack : List Bracket) : Kind → Option (List Bracket)
  | .punct p =>
    match Bracket.openedBy? p, Bracket.closedBy? p with
    | some b, _ => some (b :: stack)
    | none, some b => if stack.head? = some b then some stack.tail else none
    | none, none => some stack
  | _ => some stack

variable {stack stack' : List Bracket} {k : Kind}

theorem depthAfter_turn (h : k.turn stack = some stack') :
    k.depthAfter stack.length = stack'.length := by
  cases k with
  | punct p =>
    rw [turn] at h
    rw [depthAfter]
    split at h
    · rename_i hopen
      cases h
      rw [hopen]
      rfl
    · rename_i b hopen hclose
      split_ifs at h with hb
      cases h
      rw [hopen, hclose]
      exact List.length_tail.symm
    · rename_i hopen hclose
      cases h
      rw [hopen, hclose]
      rfl
  | _ =>
    cases h
    rfl

theorem track_turn {cap : Nat} {mode : Mode} (h : k.turn stack = some stack')
    (hdepth : stack'.length ≤ cap) :
    Lexer.track cap { mode, stack } k = (k, { mode, stack := stack' }) := by
  cases k with
  | punct p =>
    rw [turn] at h
    split at h
    · rename_i hopen
      cases h
      exact Lexer.track_opening hopen hdepth
    · rename_i b hopen hclose
      split_ifs at h with hb
      cases h
      obtain ⟨stack, rfl⟩ : ∃ s, stack = b :: s := ⟨stack.tail, (List.cons_head?_tail hb).symm⟩
      exact Lexer.track_closing hopen hclose
    · rename_i hopen hclose
      cases h
      simp [Lexer.track, hopen, hclose]
  | _ =>
    cases h
    rfl

end Token.Kind

/-- A token as it is written in a text. -/
structure Word where
  kind : Kind
  text : List Char

namespace Word

/-- The words with single blanks between them. -/
def render : List Word → List Char
  | [] => []
  | [w] => w.text
  | w :: v :: ws => w.text ++ ' ' :: render (v :: ws)

/-- What stands behind a word in front of `ws`. -/
def behind : List Word → List Char
  | [] => []
  | v :: ws => ' ' :: render (v :: ws)

theorem render_cons (w : Word) (ws : List Word) : render (w :: ws) = w.text ++ behind ws := by
  cases ws with
  | nil => rw [render, behind, List.append_nil]
  | cons v ws => rfl

/-- Every word may be written for its token, and no more than `max` brackets are open at once,
those of JSON values included. In front of the words `depth` are open. -/
def Fits (max : Nat) : (depth : Nat) → List Word → Prop
  | _, [] => True
  | depth, w :: ws => Spells (max - depth) w.kind w.text ∧ w.kind.depthAfter depth ≤ max
    ∧ Fits max (w.kind.depthAfter depth) ws

variable {max depth : Nat} {w : Word} {ws : List Word}

theorem ends_behind (ws : List Word) : Text.Ends (behind ws) := by
  cases ws with
  | nil => exact fun c h => by cases h
  | cons w ws =>
    rintro _ ⟨⟩
    rfl

theorem Fits.start (h : Fits max depth (w :: ws)) :
    ∃ c cs, w.text = c :: cs ∧ Spells.Bare c := by
  by_cases hk : w.kind = .jsonSpan
  · have hspan := h.1
    rw [hk] at hspan
    obtain ⟨c, cs, hc, hbare, -⟩ := hspan.span (ends_behind ws)
    exact ⟨c, cs, hc, hbare⟩
  · obtain ⟨c, cs, hc, hread⟩ := h.1.plain hk (ends_behind ws)
    exact ⟨c, cs, hc, hread.bare⟩

theorem Fits.pass? (h : Fits max depth ws) : Text.pass? (render ws) = none := by
  cases ws with
  | nil => rfl
  | cons w ws =>
    obtain ⟨c, cs, hc, hbare⟩ := h.start
    rw [render_cons, hc]
    exact Text.pass?_of_ne hbare.slash hbare.space

/-- Behind a word the next one is a blank ahead. -/
theorem Fits.ahead (h : Fits max depth ws) : Lexer.ahead (behind ws) = render ws := by
  cases ws with
  | nil => rfl
  | cons w ws =>
    have hblank : Text.isSpace ' ' := rfl
    rw [behind, Lexer.ahead_cons, if_pos hblank, Lexer.ahead_of_pass?_eq_none h.pass?]

theorem Fits.length_lt (h : Fits max depth (w :: ws)) :
    (render ws).length < (render (w :: ws)).length := by
  obtain ⟨c, cs, hc, -⟩ := h.start
  have hle : (render ws).length ≤ (behind ws).length := by
    cases ws <;> simp [behind, render]
  rw [render_cons, hc, List.length_append, List.length_cons]
  omega

theorem Fits.append_lt {us : List Word} (hus : us ≠ []) (h : Fits max depth (us ++ ws)) :
    (render ws).length < (render (us ++ ws)).length := by
  induction us generalizing depth with
  | nil => exact absurd rfl hus
  | cons u us ih =>
    have hlt := h.length_lt
    by_cases hnil : us = []
    · subst hnil
      exact hlt
    · exact (ih hnil h.2.2).trans hlt

theorem Fits.length_le (h : Fits max depth ws) : ws.length ≤ (render ws).length := by
  induction ws generalizing depth with
  | nil => exact Nat.zero_le _
  | cons w ws ih => exact Nat.succ_le_of_lt ((ih h.2.2).trans_lt h.length_lt)

end Word

namespace Parse

open AvroTree.Parse.Parser
open Session (At)
open Word (render behind Fits)

/-! ## Where a session stands -/

/-- The place in front of some words of a text whose tokens are of the kinds `all`. -/
def wordPlace (all : List Kind) (stack : List Bracket) (ws : List Word) : Place where
  state := { mode := .idl, stack }
  rest := render ws
  done ks := ks ++ ws.map (·.kind) = all
  silent := true

variable {max : Nat} {text : List Char} {all : List Kind} {stack stack' : List Bracket} {w : Word}
  {ws : List Word} {K V : TokenSet}

theorem meant_of_spells {room : Nat} {k : Kind} {s : List Char} (h : Spells room k s) :
    k.isMeant := by
  cases h <;> rfl

theorem lexeme_of_spells {k : Kind} {s r : List Char}
    (h : Spells (max - stack.length) k s) (hr : Text.Ends r) :
    ∃ c cs, s = c :: cs ∧ Spells.Bare c
      ∧ ∀ V : TokenSet, V.contains k → V.contains .jsonSpan = decide (k = .jsonSpan) →
        (Lexer.lexeme max V { mode := .idl, stack } c (s ++ r)).value = .ok k
          ∧ (Lexer.lexeme max V { mode := .idl, stack } c (s ++ r)).used = s.length := by
  by_cases hk : k = .jsonSpan
  · subst hk
    obtain ⟨c, cs, hc, hbare, hstart, hvalue, hused⟩ := h.span hr
    refine ⟨c, cs, hc, hbare, fun V hV _ => ?_⟩
    rw [Lexer.lexeme, hV, hstart]
    simp [Lexer.State.depth, hvalue, hused]
  · obtain ⟨c, cs, hc, hread⟩ := h.plain hk hr
    refine ⟨c, cs, hc, hread.bare, fun V hV hjson => ?_⟩
    rw [decide_eq_false hk] at hjson
    rw [Lexer.lexeme_of_lacks hjson]
    refine ⟨(hread.value V).resolve_right ?_, hread.used V⟩
    rintro ⟨-, hno⟩
    rw [hV] at hno
    cases hno

/-- A word is the next token of the text. -/
theorem wordPlace_next (all : List Kind) (h : Fits max stack.length (w :: ws))
    (ht : w.kind.turn stack = some stack') :
    (wordPlace all stack (w :: ws)).Next max w.kind (wordPlace all stack' ws)
      ∧ Fits max stack'.length ws := by
  obtain ⟨hspells, hdepth, hrest⟩ := h
  rw [Kind.depthAfter_turn ht] at hdepth hrest
  refine ⟨⟨meant_of_spells hspells, id, fun ks hks => ?_, fun ks _ => ?_⟩, hrest⟩
  · have hks : ks ++ w.kind :: ws.map (·.kind) = all := hks
    show ks ++ [w.kind] ++ ws.map (·.kind) = all
    rw [List.append_assoc, List.singleton_append, hks]
  obtain ⟨c, cs, hc, hbare, hread⟩ := lexeme_of_spells hspells (Word.ends_behind ws)
  have htext : render (w :: ws) = c :: (cs ++ behind ws) := by
    rw [Word.render_cons, hc, List.cons_append]
  refine ⟨?_, by simp [wordPlace], Kind.track_turn ht hdepth, c, cs ++ behind ws, w.text.length,
    htext, Lexer.startsComment_of_ne hbare.slash, ⟨?_, fun _ => ?_⟩, ?_⟩
  · show Text.pass? (render (w :: ws)) = none
    rw [htext]
    exact Text.pass?_of_ne hbare.slash hbare.space
  all_goals rw [← List.cons_append, ← hc]
  · rw [List.drop_left]
    show Text.Gap (behind ws) (render ws)
    rw [← hrest.ahead]
    exact Lexer.gap_ahead _
  · rw [List.drop_left]
    exact hrest.ahead
  · exact hread

/-- None of these kinds of token comes first, nor a JSON value. -/
def Clear (K : TokenSet) (ws : List Word) : Prop :=
  ∀ w ∈ ws.head?, K.contains w.kind = false ∧ w.kind ≠ .jsonSpan

theorem wordPlace_lacks (all : List Kind) (h : Fits max stack.length ws) (hK : Clear K ws)
    (hname : K.contains .identifier = false) : (wordPlace all stack ws).Lacks max K := by
  refine fun _ _ => ⟨h.pass?, fun c cs hrest => ?_⟩
  have hrest : render ws = c :: cs := hrest
  cases ws with
  | nil => cases hrest
  | cons w ws =>
    obtain ⟨hk, hjson⟩ := hK w rfl
    obtain ⟨c', cs', hc, hread⟩ := h.1.plain hjson (Word.ends_behind ws)
    rw [Word.render_cons] at hrest
    have hcc : c' = c := by
      rw [hc] at hrest
      exact (List.cons.inj hrest).1
    subst hcc
    refine ⟨Lexer.startsComment_of_ne hread.bare.slash, fun V => ?_, fun hopen => ?_⟩
    · show K.contains (Lexer.kindOf (Lexer.plain V .idl c' (c' :: cs)).value) = false
      rw [← hrest]
      rcases hread.value V with hv | ⟨hv, -⟩ <;> rw [hv] <;> assumption
    · show stack.length < max
      cases hp : Punct.ofChar? c' with
      | none => simp [hp] at hopen
      | some p =>
        have hkind : w.kind = .punct p := by
          have hread := hread.value .empty
          rw [Lexer.plain, hp] at hread
          rcases hread with hv | ⟨hv, -⟩
          · exact (Except.ok.inj hv).symm
          · exact absurd (Except.ok.inj hv) (by simp)
        have hdepth := h.2.1
        rw [hp, Option.bind_some] at hopen
        rw [hkind, Kind.depthAfter, if_pos (Option.isSome_iff_ne_none.2 hopen)] at hdepth
        exact hdepth

/-- The session has still to read these words, `stack` being open in front of them. -/
structure Facing (max : Nat) (text : List Char) (all : List Kind) (stack : List Bracket)
    (ws : List Word) (s : Session) : Prop where
  fits : Fits max stack.length ws
  here : s.At max text (wordPlace all stack ws)

/-- The session has found the first of the words, behind which `stack'` is open. -/
structure Seeing (max : Nat) (text : List Char) (all : List Kind) (stack stack' : List Bracket)
    (w : Word) (ws : List Word) (s : Session) : Prop where
  fits : Fits max stack.length (w :: ws)
  rest : Fits max stack'.length ws
  meets : s.Meets max text (wordPlace all stack (w :: ws)) w.kind (wordPlace all stack' ws)

variable {α β : Type} {k : Kind} {sync first : TokenSet} {B : α → Session → Prop}

theorem Seeing.facing {s : Session} (h : Seeing max text all stack stack' w ws s) :
    Facing max text all stack (w :: ws) s :=
  ⟨h.fits, h.meets.toAt⟩

namespace Parser

/-! ## Moves -/

/-- What can be done in front of a word can be done when it has been seen. -/
theorem Runs.seeing {f : Parser α} (h : Runs (Facing max text all stack (w :: ws)) f B) :
    Runs (Seeing max text all stack stack' w ws) f B :=
  h.imp (fun _ hs => hs.facing) fun _ _ hb => hb

theorem peek_word (hk : V.contains w.kind)
    (hjson : V.contains .jsonSpan = decide (w.kind = .jsonSpan))
    (ht : w.kind.turn stack = some stack') :
    Runs (Facing max text all stack (w :: ws)) (peek V) fun t s =>
      t.kind = w.kind ∧ Seeing max text all stack stack' w ws s := by
  intro s hs
  obtain ⟨hnext, hrest⟩ := wordPlace_next all hs.fits ht
  obtain ⟨t, s', hr, hkind, hmeets⟩ := peek_runs hnext hk hjson s hs.here
  exact ⟨t, s', hr, hkind, hs.fits, hrest, hmeets⟩

theorem peek_last : Runs (Facing max text all stack []) (peek V) fun t s =>
    t.kind = .eof ∧ Facing max text all stack [] s := by
  intro s hs
  obtain ⟨t, s', hr, hkind, hat⟩ :=
    peek_atEnd (V := V) (p := wordPlace all stack []) rfl s hs.here
  exact ⟨t, s', hr, hkind, hs.fits, hat⟩

theorem nextIs_word (hk : w.kind = k) (ht : k.turn stack = some stack') :
    Runs (Facing max text all stack (w :: ws)) (nextIs k) fun b s =>
      b = true ∧ Seeing max text all stack stack' w ws s := by
  subst hk
  exact (peek_word (by simp) (single_jsonSpan w.kind) ht).bind fun _ =>
    .pure fun _ h => ⟨decide_eq_true h.1, h.2⟩

theorem nextIs_clear (hclear : Clear (.single k) ws) (hk : k.isMeant) (hname : k ≠ .identifier)
    (hjson : k ≠ .jsonSpan) :
    Runs (Facing max text all stack ws) (nextIs k) fun b s =>
      b = false ∧ Facing max text all stack ws s := by
  have hother {j : Kind} (hj : j.isError = false) (hne : k ≠ j) :
      (TokenSet.single k).contains j = false := by
    rw [TokenSet.contains_single]
    exact decide_eq_false fun h => hne (TokenSet.index_inj hj h.symm)
  intro s hs
  obtain ⟨b, s', hr, hb, hat⟩ := nextIs_false
    (wordPlace_lacks all hs.fits hclear (hother rfl hname)) hk hjson s hs.here
  exact ⟨b, s', hr, hb, hs.fits, hat⟩

theorem flush_facing : Runs (Facing max text all stack ws) flush fun _ =>
    Facing max text all stack ws :=
  flush_runs fun _ h => ⟨h.fits, h.here.takeExtras⟩

theorem flush_seeing : Runs (Seeing max text all stack stack' w ws) flush fun _ =>
    Seeing max text all stack stack' w ws :=
  flush_runs fun _ h => ⟨h.fits, h.rest, h.meets.takeExtras⟩

theorem leaf_word {kind : NodeKind} : Runs (Seeing max text all stack stack' w ws) (leaf kind)
    fun _ => Facing max text all stack' ws :=
  fun _ hs => ⟨_, _, rfl, hs.rest, hs.meets.bump⟩

theorem bump_word {kind : NodeKind} {field : Option String} :
    Runs (Seeing max text all stack stack' w ws) (bump kind field) fun _ =>
      Facing max text all stack' ws :=
  flush_seeing.bind fun _ => leaf_word.bind fun _ => .pure fun _ h => h

theorem recoverTo_word (hk : first.contains w.kind)
    (hjson : first.contains .jsonSpan = decide (w.kind = .jsonSpan))
    (hsync : sync.contains .jsonSpan = false) (ht : w.kind.turn stack = some stack') :
    Runs (Facing max text all stack (w :: ws)) (recoverTo sync first) fun r s =>
      r = (true, []) ∧ Seeing max text all stack stack' w ws s := by
  intro s hs
  obtain ⟨hnext, hrest⟩ := wordPlace_next all hs.fits ht
  obtain ⟨r, s', hr, hfound, hmeets⟩ := recoverTo_runs hnext hk hjson hsync s hs.here
  exact ⟨r, s', hr, hfound, hs.fits, hrest, hmeets⟩

theorem expectAs?_word {kind : NodeKind} {field : Option String} (hk : w.kind = k)
    (ht : k.turn stack = some stack') (hsync : sync.contains .jsonSpan = false) :
    Runs (Facing max text all stack (w :: ws)) (expectAs? sync k kind field) fun r s =>
      r.1 = true ∧ Facing max text all stack' ws s := by
  subst hk
  intro s hs
  obtain ⟨hnext, hrest⟩ := wordPlace_next all hs.fits ht
  obtain ⟨r, s', hr, hfound, hat⟩ := expectAs?_runs hnext hsync s hs.here
  exact ⟨r, s', hr, hfound, hrest, hat⟩

theorem expect_word {field : Option String} (hk : w.kind = k) (ht : k.turn stack = some stack')
    (hsync : sync.contains .jsonSpan = false) :
    Runs (Facing max text all stack (w :: ws)) (expect sync k field) fun _ =>
      Facing max text all stack' ws :=
  (expectAs?_word hk ht hsync).bind fun _ => .pure fun _ h => h.2

/-! ## Loops -/

/-- A loop succeeds whose steps lead from words to fewer words. -/
theorem iterate_words {step : α → Parser (Bool × α)} {W : α → List Word → Prop}
    (hstep : ∀ a ws, W a ws → Runs (Facing max text all stack ws) (step a) fun r s =>
      if r.1 then ∃ vs, W r.2 vs ∧ Facing max text all stack vs s ∧ vs.length < ws.length
      else B r.2 s) :
    ∀ (n : Nat) {a : α} {ws : List Word}, W a ws → ws.length < n →
      Runs (Facing max text all stack ws) (iterate step n a) B
  | 0, _, _, _, hn => absurd hn (Nat.not_lt_zero _)
  | n + 1, a, ws, h, hn => by
    unfold iterate
    refine (hstep a ws h).bind ?_
    rintro ⟨go, a'⟩
    cases go with
    | true =>
      rintro s ⟨vs, hvs, hfacing, hlt⟩
      exact iterate_words hstep n hvs (by omega) s hfacing
    | false => exact .pure fun _ h => h

theorem loop_words {step : α → Parser (Bool × α)} {W : α → List Word → Prop} {a : α}
    (hstep : ∀ a ws, W a ws → Runs (Facing max text all stack ws) (step a) fun r s =>
      if r.1 then ∃ vs, W r.2 vs ∧ Facing max text all stack vs s ∧ vs.length < ws.length
      else B r.2 s)
    (h : W a ws) : Runs (Facing max text all stack ws) (loop step a) B := by
  intro s hs
  have hlen : ws.length ≤ s.remaining := hs.fits.length_le.trans hs.here.length_le
  exact iterate_words hstep (s.remaining + 1) h (Nat.lt_succ_of_le hlen) s hs

/-- Nodes are gathered by steps that lead from words to fewer words. -/
theorem gather_words {step : Array Node → Parser (Bool × Array Node)} {W : List Word → Prop}
    {A : Session → Prop} {first : List Node}
    (hstep : ∀ nodes ws, W ws → Runs (Facing max text all stack ws) (step nodes) fun r s =>
      if r.1 then ∃ vs, W vs ∧ Facing max text all stack vs s ∧ vs.length < ws.length else A s)
    (h : W ws) : Runs (Facing max text all stack ws) (gather step first) fun _ => A :=
  (loop_words (W := fun _ => W) (B := fun _ => A) hstep h).bind fun _ => .pure fun _ h => h

/-- A construct that is there is not followed by a skip. -/
theorem progress_words {element : Parser α} {stop : TokenSet} {g : α → List Node → Parser β}
    {C : β → Session → Prop} {vs : List Word}
    (h : Runs (Seeing max text all stack stack w (vs ++ ws)) element fun _ =>
      Facing max text all stack ws)
    (hg : ∀ a, Runs (Facing max text all stack ws) (g a []) C) :
    Runs (Seeing max text all stack stack w (vs ++ ws)) (progress stop element g) C := by
  intro s hs
  have hat : ∀ s', s' = s → s'.At max text (wordPlace all stack (w :: (vs ++ ws)))
      ∧ Text.pass? (wordPlace all stack (w :: (vs ++ ws))).rest = none := by
    rintro _ rfl
    exact ⟨hs.meets.toAt, hs.fits.pass?⟩
  refine progress_runs (P := fun q => q = wordPlace all stack ws ∧ Fits max stack.length ws)
    hat ?_ ?_ s rfl
  · rintro _ rfl
    obtain ⟨a, s', hr, hfits, hat⟩ := h _ hs
    have hlt : (render ws).length < (render (w :: (vs ++ ws))).length :=
      Word.Fits.append_lt (List.cons_ne_nil w vs) hs.fits
    exact ⟨a, s', hr, _, hat, hlt, rfl, hfits⟩
  · rintro a _ - ⟨rfl, hfits⟩
    exact (hg a).imp (fun _ hat => ⟨hfits, hat⟩) fun _ _ hc => hc

theorem addItem_words {element : Parser Node} {stop : TokenSet} {nodes : Array Node}
    {vs : List Word}
    (h : Runs (Seeing max text all stack stack w (vs ++ ws)) element fun _ =>
      Facing max text all stack ws) :
    Runs (Seeing max text all stack stack w (vs ++ ws)) (addItem stop element nodes) fun r s =>
      r.1 = true ∧ Facing max text all stack ws s :=
  flush_seeing.bind fun _ => progress_words h fun _ => .pure fun _ hs => ⟨rfl, hs⟩

/-! ## Lists -/

/-- The words of a list from some point on, its closing mark included. An element may come where
one is wanted, and a comma behind an element. -/
inductive ListWords (form : ListForm) (Item : List Word → Prop) :
    (wants some : Bool) → List Word → Prop
  | close {wants some : Bool} {w : Word} (hlast : wants → some → form.trailing)
      (hk : w.kind = .punct form.close) : ListWords form Item wants some [w]
  | item {some : Bool} {us vs : List Word} (h : Item us)
    (rest : ListWords form Item false true vs) :
      ListWords form Item true some (us ++ vs)
  | comma {w : Word} {vs : List Word} (hk : w.kind = .punct .comma)
      (rest : ListWords form Item true true vs) : ListWords form Item false true (w :: vs)

theorem ListWords.start {form : ListForm} {Item : List Word → Prop} {us : List Word}
    (h : ListWords form Item false true us) : ∃ v vs, us = v :: vs
      ∧ (v.kind = .punct .comma ∨ v.kind = .punct form.close) := by
  generalize hw : false = wants at h
  cases h with
  | close _ hk => exact ⟨_, _, rfl, .inr hk⟩
  | item => cases hw
  | comma hk => exact ⟨_, _, rfl, .inl hk⟩

theorem list_words {form : ListForm} {element : TokenSet → Parser (List Node)}
    {Item : List Word → Prop} {b : Bracket} {us : List Word} (hform : form.Sound)
    (hclose : (Kind.punct form.close).turn (b :: stack) = some stack)
    (hsync : sync.contains .jsonSpan = false)
    (hitem : ∀ sync : TokenSet, sync.contains .jsonSpan = false → ∀ us v ws, Item us →
      (v.kind = .punct .comma ∨ v.kind = .punct form.close) →
      ∃ w vs, us = w :: vs ∧ form.first.contains w.kind
        ∧ w.kind.turn (b :: stack) = some (b :: stack)
        ∧ Runs (Seeing max text all (b :: stack) (b :: stack) w (vs ++ v :: ws)) (element sync)
          fun _ => Facing max text all (b :: stack) (v :: ws))
    (h : ListWords form Item true false us) :
    Runs (Facing max text all (b :: stack) (us ++ ws)) (list sync form element) fun _ =>
      Facing max text all stack ws := by
  intro s hs
  let L (wants some : Bool) (p : Place) : Prop := ∃ us, ListWords form Item wants some us
    ∧ p = wordPlace all (b :: stack) (us ++ ws) ∧ Fits max (b :: stack).length (us ++ ws)
  let R (r : Place) : Prop := r = wordPlace all stack ws ∧ Fits max stack.length ws
  have hmove : ∀ sync : TokenSet, sync.contains .jsonSpan = false → ∀ wants some p,
      L wants some p → ListMove max text form (element sync) L R wants some p := by
    rintro sync hsync wants some _ ⟨us, hus, rfl, hfits⟩
    cases hus with
    | @close _ _ w hlast hk =>
      rw [← hk] at hclose
      obtain ⟨hnext, hrest⟩ := wordPlace_next all hfits hclose
      rw [hk] at hnext
      exact .close hlast hnext ⟨rfl, hrest⟩
    | @item _ us vs hit hrest =>
      obtain ⟨v, vs', rfl, hv⟩ := hrest.start
      rw [List.append_assoc, List.cons_append] at hfits ⊢
      obtain ⟨w, vs, rfl, hk, hturn, hrun⟩ := hitem sync hsync us v (vs' ++ ws) hit hv
      obtain ⟨hnext, hbehind⟩ := wordPlace_next all hfits hturn
      refine .item rfl hk hnext fun s hs => ?_
      obtain ⟨ns, s', hr, hfits', hat⟩ := hrun s ⟨hfits, hbehind, hs⟩
      exact ⟨ns, s', hr, _, ⟨v :: vs', hrest, rfl, hfits'⟩, hat,
        Word.Fits.append_lt (List.cons_ne_nil w vs) hfits⟩
    | @comma w vs hk hrest =>
      have hturn : w.kind.turn (b :: stack) = some (b :: stack) := by
        rw [hk]
        rfl
      obtain ⟨hnext, hbehind⟩ := wordPlace_next all hfits hturn
      rw [hk] at hnext
      exact .comma rfl rfl hnext ⟨vs, hrest, rfl, hbehind⟩
  have hrun : Runs (At max text (wordPlace all (b :: stack) (us ++ ws))) (list sync form element)
      fun _ s => ∃ r, R r ∧ s.At max text r :=
    list_runs hform hsync hmove ⟨us, h, rfl, hs.fits⟩
  obtain ⟨ns, s', hr, _, ⟨rfl, hfits⟩, hat⟩ := hrun s hs.here
  exact ⟨ns, s', hr, hfits, hat⟩

end Parser

end Parse

end AvroTree
