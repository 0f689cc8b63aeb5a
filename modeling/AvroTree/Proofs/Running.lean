import AvroTree.Proofs.Gaps
import AvroTree.Proofs.Taking

/-!
# Parsers that succeed

Here a parse is followed forward: where it is known what the text holds, a parser that looks for
just that finds it and does not complain (`Runs`). What is known is a place of the text, and which
token comes next there whatever else is wanted (`Place.Next`).
-/

namespace AvroTree

open Token (Kind)

namespace Lexer

variable {α β : Type} {cap : Nat} {V : TokenSet} {state : State} {c : Char} {s : List Char}

/-- A lexer that finds its token faulty does so for a reason other than its depth. -/
def Shallow (p : Attempt α) : Prop :=
  ∀ s, (p s).value ≠ .error .depthExceeded

namespace Shallow

theorem pure (a : α) : Shallow (pure a : Attempt α) :=
  fun _ h => nomatch h

theorem fail {e : LexError} (h : e ≠ .depthExceeded) : Shallow (throw e : Attempt α) := by
  intro s hs
  cases hs
  exact h rfl

theorem lift (p : Lexer α) : Shallow (liftM p : Attempt α) :=
  fun _ h => nomatch h

theorem bind {p : Attempt β} {f : β → Attempt α} (hp : Shallow p) (hf : ∀ b, Shallow (f b)) :
    Shallow (p >>= f : Attempt α) := by
  intro s hs
  have hv : (ExceptT.bindCont f (p s).value (s.drop (p s).used)).value
      = .error .depthExceeded := hs
  cases hr : (p s).value with
  | ok b =>
    rw [hr] at hv
    exact hf b _ hv
  | error e =>
    rw [hr] at hv
    cases hv
    exact hp s hr

theorem ite {P : Prop} [Decidable P] {p q : Attempt α} (hp : Shallow p) (hq : Shallow q) :
    Shallow (if P then p else q) := by
  split
  · exact hp
  · exact hq

end Shallow

theorem digitsFrom_shallow (n : Nat) (s : List Char) :
    (digitsFrom n s).value ≠ .error .depthExceeded := by
  fun_induction digitsFrom n s with
  | case2 _ _ _ _ ih => exact ih
  | case4 _ _ _ _ _ _ _ ih => exact ih
  | _ => simp

theorem numeral_shallow {p : Attempt α} (h : Numeral (fun _ p => Shallow p) p) : Shallow p := by
  induction h with
  | given h => exact h
  | pure a => exact .pure a
  | invalid => exact .fail (by decide)
  | mark _ => exact .lift _
  | bind _ _ hp hf => exact .bind hp hf

theorem number_shallow : Shallow number :=
  numeral_shallow (number_numeral (.given (digitsFrom_shallow 0)))

theorem stringRest_shallow (quote : Char) (s : List Char) :
    (stringRest quote s).value ≠ .error .depthExceeded := by
  fun_induction stringRest quote s with
  | case5 _ _ _ _ ih => exact ih
  | case7 _ _ _ _ _ ih => exact ih
  | _ => simp

/-- A plain token is never too deep by itself. -/
theorem plain_shallow (V : TokenSet) (mode : Mode) (c : Char) (s : List Char) :
    kindOf (plain V mode c s).value ≠ .error .depthExceeded := by
  have attempt {p : Attempt Kind} {j : Kind} (hp : Gives p (· = j))
      (hs : (p s).value ≠ .error .depthExceeded) (hj : j ≠ .error .depthExceeded) :
      kindOf (p s).value ≠ .error .depthExceeded := by
    cases hv : (p s).value with
    | ok k =>
      obtain rfl := hp s k hv
      exact hj
    | error e =>
      rw [hv] at hs
      rintro ⟨⟩
      exact hs rfl
  refine plain_choice (P := fun r => kindOf r.value ≠ .error .depthExceeded) V mode c s
    (fun _ _ => by simp [kindOf])
    (fun _ => attempt (string_gives c) (stringRest_shallow c _) (by simp))
    (fun _ => attempt quotedName_gives ?_ (by simp)) (fun _ => attempt atName_gives ?_ (by simp))
    (fun _ _ => attempt number_gives (number_shallow s) (by simp)) (fun _ => ?_)
    fun _ => by simp [kindOf]
  · rw [quotedName]
    split <;> simp
  · rw [atName]
    split
    · simp
    · split <;> simp
  · rcases word_kind V s with hk | ⟨k, hk⟩ <;> simp [hk, kindOf]

/-- Only its own character is a mark. -/
theorem ofChar?_of_plain {mode : Mode} {p : Punct} (h : (plain V mode c s).value = .ok (.punct p)) :
    Punct.ofChar? c = some p := by
  revert h
  refine plain_choice (P := fun r => r.value = .ok (.punct p) → Punct.ofChar? c = some p) V mode c s
    (fun q hq h => ?_) (fun _ h => (string_gives c).other h nofun)
    (fun _ h => quotedName_gives.other h nofun)
    (fun _ h => atName_gives.other h nofun)
    (fun _ _ h => number_gives.other h nofun) (fun _ h => ?_) nofun
  · cases h
    exact hq
  · rcases word_kind V s with hk | ⟨k, hk⟩ <;> simp [hk] at h

theorem track_of_shallow (cap : Nat) (state : State) {k : Kind}
    (h : ∀ p, k = .punct p → Bracket.openedBy? p ≠ none → state.depth < cap) :
    (track cap state k).1 = k := by
  cases k with
  | punct p =>
    rw [track]
    split
    · rename_i hb
      rw [if_neg (Nat.not_le.2 (h p rfl (by simp [hb])))]
    · rfl
    · rfl
  | _ => rfl

theorem track_mode (cap : Nat) (state : State) (k : Kind) :
    (track cap state k).2.mode = state.mode := by
  cases k with
  | punct p =>
    rw [track]
    split
    · split <;> rfl
    · rw [State.close]
      split <;> rfl
    · rfl
  | _ => rfl

/-- A language that is settled stays. -/
theorem impliedMode_of_ne {k : Kind} (h : state.mode ≠ .unknown) :
    impliedMode state k c = state.mode :=
  if_neg fun hu => h hu.1

theorem Stand.kind_of_token? {p : Stand} {t : Scanned} {cs : List Char} (hp : p.Sound cap)
    (h : p.token? cap V = some t) (hc : ahead p.rest = c :: cs)
    (hs : startsComment (c :: cs) = false) :
    t.token.kind = (track cap p.state (kindOf (lexeme cap V p.state c (c :: cs)).value)).1 := by
  obtain ⟨f, hf, rfl⟩ := exists_found h
  rw [reading, token_eq cap V hp.comment, show p.rest.drop (blanks p.rest) = c :: cs from hc,
    tokenHere_cons cap V p.state hs, behindBlanks] at hf
  rcases judge_cases cap V p.state c
    ((lexeme cap V p.state c (c :: cs)).seeing (if c == '/' then 2 else 1)) with hj | hj
  · rw [hj] at hf
    cases hf
  · rw [hj] at hf
    cases hf
    rfl

end Lexer

namespace Parse

open Lexer (Stand startsComment)
open Text (Gap pass?)

/-- A place between two tokens of a text. -/
structure Place where
  state : Lexer.State
  /-- The text from the next token on. -/
  rest : List Char
  /-- What the kinds of the tokens in front of it are like. -/
  done : List Kind → Prop
  /-- Whether no comment is in front of it. -/
  silent : Bool := false

namespace Place

/-- Only what may stand in front of the place is between the text from there on and its end
`p.rest`: blanks, and comments unless the place is silent. -/
def Nears (p : Place) (s : List Char) : Prop :=
  Gap s p.rest ∧ (p.silent → Lexer.ahead s = p.rest)

/-- At a place of the text a token of kind `k` comes next, and behind it is the place `q`. It is
found whatever else is wanted, if it is wanted itself. -/
structure Reads (cap : Nat) (p : Place) (k : Kind) (q : Place) : Prop where
  bare : pass? p.rest = none
  mode : p.state.mode ≠ .unknown
  track : Lexer.track cap p.state k = (k, q.state)
  lexeme : ∃ c cs n, p.rest = c :: cs ∧ startsComment (c :: cs) = false
    ∧ q.Nears ((c :: cs).drop n)
    ∧ ∀ V : TokenSet, V.contains k → V.contains .jsonSpan = decide (k = .jsonSpan) →
      (Lexer.lexeme cap V p.state c (c :: cs)).value = .ok k
        ∧ (Lexer.lexeme cap V p.state c (c :: cs)).used = n

/-- A token of kind `k` comes next and leads to the place `q`. -/
structure Next (cap : Nat) (p : Place) (k : Kind) (q : Place) : Prop where
  meant : k.isMeant
  still : q.silent → p.silent
  goes : ∀ ks, p.done ks → q.done (ks ++ [k])
  reads : ∀ ks, p.done ks → p.Reads cap k q

/-- Whatever is wanted, JSON values apart, the next token is found to be of none of these kinds, and
not to be nested too deep. -/
def Lacks (cap : Nat) (p : Place) (K : TokenSet) : Prop :=
  ∀ ks, p.done ks → pass? p.rest = none ∧ ∀ c cs, p.rest = c :: cs →
    startsComment (c :: cs) = false
      ∧ (∀ V, K.contains (Lexer.kindOf (Lexer.plain V p.state.mode c (c :: cs)).value) = false)
      ∧ ((Punct.ofChar? c).bind Bracket.openedBy? ≠ none → p.state.depth < cap)

end Place

namespace Session

/-- The session has come to a place of the text without complaints. -/
structure At (cap : Nat) (text : List Char) (p : Place) (s : Session) : Prop where
  sits : s.Sits cap text
  clean : s.faults = 0
  stand : ∃ o, s.Stands cap text o ∧ o.state = p.state ∧ p.Nears o.rest
  done : p.done (s.taken.map (·.kind))
  silent : p.silent → ∀ t ∈ s.log.toList, t.token.kind.isExtra = false

/-- The session has found that a token of kind `k` comes next, behind which is the place `q`. -/
structure Meets (cap : Nat) (text : List Char) (p : Place) (k : Kind) (q : Place) (s : Session) :
    Prop extends At cap text p s where
  meant : k.isMeant
  still : q.silent → p.silent
  goes : q.done (s.taken.map (·.kind) ++ [k])
  found : ∃ la o, s.lookahead = some la ∧ s.Stands cap text o ∧ la.scanned.token.kind = k
    ∧ (o.next cap la.scanned.valid).state = q.state
    ∧ q.Nears (o.next cap la.scanned.valid).rest

variable {cap : Nat} {text : List Char} {p q : Place} {s : Session} {o : Stand} {k : Kind}

theorem takeComment_faults {valid : TokenSet}
    (hk : (s.scan valid).scanned.token.kind.isExtra) :
    (s.takeComment valid).faults = s.faults := by
  have hne : (s.scan valid).scanned.token.kind.isError = false := by
    cases h : (s.scan valid).scanned.token.kind <;> simp_all [Kind.isExtra, Kind.isError]
  have hfaults := faults_commit s (s.scan valid)
  rw [hne] at hfaults
  exact hfaults

/-- The session faces the next token of a place. -/
structure Looks (cap : Nat) (text : List Char) (p : Place) (V : TokenSet) (t : Token)
    (s : Session) : Prop extends At cap text p s where
  found : ∃ la o, s.lookahead = some la ∧ la.valid = V ∪ .ambient ∧ la.scanned.token = t
    ∧ s.Stands cap text o ∧ o.state = p.state ∧ Lexer.ahead o.rest = p.rest

theorem ahead_eq (hgap : Gap o.rest p.rest) (hbare : pass? p.rest = none)
    (h : Lexer.leadsComment (Lexer.ahead o.rest) = false) : Lexer.ahead o.rest = p.rest := by
  have hend := Lexer.pass?_of_leadsComment (Lexer.ahead_head o.rest) h
  exact ((Lexer.gap_ahead o.rest).meet hgap hbare).eq_of_end hend

theorem fetch_looks (hbare : pass? p.rest = none) (V : TokenSet) :
    ∀ (n : Nat) {s : Session} {o : Stand}, s.Stands cap text o → o.rest.length ≤ n →
      o.state = p.state → p.Nears o.rest → s.faults = 0 → p.done (s.taken.map (·.kind)) →
      (p.silent → ∀ t ∈ s.log.toList, t.token.kind.isExtra = false) →
      (fetch (V ∪ .ambient) n s).2.Looks cap text p V (fetch (V ∪ .ambient) n s).1
  | n, s, o, ho, hn, hstate, hnears, hclean, hdone, hsilent => by
    obtain ⟨hla, hv⟩ := scan_reads ho (V ∪ .ambient)
    have hextra := ho.isExtra_eq hla
    cases hk : (s.scan (V ∪ .ambient)).scanned.token.kind.isExtra with
    | false =>
      have hs : s.Plain := by
        unfold Plain
        rw [← hextra, hk]
      have hahead : Lexer.ahead o.rest = p.rest := by
        refine ahead_eq hnears.1 hbare ?_
        rw [← ho.cursor.rest_eq]
        exact hs
      rw [fetch_of_not hk]
      exact ⟨⟨⟨⟨o, ho.look _⟩, fun _ => hs⟩, hclean, ⟨o, ho.look _, hstate, hnears⟩, hdone,
        hsilent⟩, _, o, rfl, hv, rfl, ho.look _, hstate, hahead⟩
    | true =>
      have hlt := Stand.next_lt ho.sound hla.token (not_eof_of_isExtra hk)
      obtain ⟨hpass, hnext⟩ := Stand.gap_of_extra ho.sound hla.token hk
      have hspeaks : ¬p.silent := by
        intro hp
        have h := (Stand.pass?_of_extra ho.sound hla.token hk).1
        rw [hnears.2 hp, hbare] at h
        cases h
      cases n with
      | zero => omega
      | succ n =>
        rw [fetch_succ hk]
        have ho' : (s.takeComment (V ∪ .ambient)).Stands cap text _ :=
          (ho.commit hla).withExtras _
        refine fetch_looks hbare V n ho' (by omega) (hnext.trans hstate)
          ⟨hpass.meet hnears.1 hbare, fun hp => absurd hp hspeaks⟩
          ((takeComment_faults hk).trans hclean) ?_ fun hp => absurd hp hspeaks
        rw [(takeComment_took ho hk).taken, List.append_nil]
        exact hdone

/-- Looking ahead from a place shows the token that stands there. -/
theorem At.peek (h : s.At cap text p) (hbare : pass? p.rest = none) (V : TokenSet) :
    (s.peek V).2.Looks cap text p V (s.peek V).1 := by
  obtain ⟨o, ho, hstate, hnears⟩ := h.stand
  have hfetch := fetch_looks hbare V s.remaining ho ho.length_le_remaining hstate hnears h.clean
    h.done h.silent
  unfold Session.peek
  simp only []
  split
  · rename_i la hla
    split
    · rename_i hvalid
      have hplain : Lexer.leadsComment (Lexer.ahead o.rest) = false := by
        rw [← ho.cursor.rest_eq]
        exact h.sits.plain (by simp [hla])
      exact ⟨h, la, o, hla, hvalid, rfl, ho, hstate, ahead_eq hnears.1 hbare hplain⟩
    · exact hfetch
  · exact hfetch

variable {V : TokenSet} {t : Token}

/-- A token that is known to come next, and is wanted, is found. -/
theorem Looks.meets (h : s.Looks cap text p V t) (hnext : p.Next cap k q) (hk : V.contains k)
    (hjson : V.contains .jsonSpan = decide (k = .jsonSpan)) :
    t.kind = k ∧ s.Meets cap text p k q := by
  obtain ⟨la, o, hla, hvalid, rfl, ho, hstate, hahead⟩ := h.found
  obtain ⟨-, hmode, htrack, c, cs, n, hc, hs, hnears, hread⟩ := hnext.reads _ h.done
  have hambient : TokenSet.ambient.contains .jsonSpan = false := by decide
  obtain ⟨hvalue, hused⟩ := hread (V ∪ .ambient) (by simp [hk]) (by simp [hjson, hambient])
  rw [← hstate] at hvalue hused htrack hmode
  rw [hc] at hahead
  have hkind : (Lexer.track cap o.state k).1 = k := by rw [htrack]
  obtain ⟨t, ht, htkind, hpast, -⟩ := Stand.token?_of_lexeme ho.sound hahead hs
    (V := V ∪ .ambient) (by simp [hk]) hvalue (by simp [hkind, hk])
  have hreads := ho.lookahead la hla
  have hchoice : la.scanned.valid = V ∪ .ambient ∧ la.scanned = t := by
    rcases hreads.choice with hv | ⟨hnone, -⟩
    · have htoken := hreads.token
      rw [hv, hvalid, ht] at htoken
      exact ⟨hv.trans hvalid, (Option.some.inj htoken).symm⟩
    · rw [hvalid, ht] at hnone
      cases hnone
  have hla' : la.scanned.token.kind = k := by rw [hchoice.2, htkind, hkind]
  refine ⟨hla', h.toAt, hnext.meant, hnext.still, hnext.goes _ h.done, la, o, hla, ho, hla', ?_⟩
  rw [hchoice.1, hpast, hused]
  refine ⟨?_, ?_⟩
  · have hbehind := Lexer.track_mode cap o.state k
    rw [htrack] at hbehind
    simp only [Stand.past, htrack, Lexer.impliedMode_of_ne hmode, ← hbehind]
  · show q.Nears (o.rest.drop (Lexer.blanks o.rest + n))
    rw [← List.drop_drop, show o.rest.drop (Lexer.blanks o.rest) = c :: cs from hahead]
    exact hnears

theorem Looks.atEnd (h : s.Looks cap text p V t) (hend : p.rest = []) : t.kind = .eof := by
  obtain ⟨la, o, hla, -, rfl, ho, -, hahead⟩ := h.found
  exact (Stand.eof_iff ho.sound (ho.lookahead la hla).token).2 (hahead.trans hend)

/-- A token that does not come next is not found. -/
theorem Looks.lacks {K : TokenSet} (h : s.Looks cap text p V t) (hlacks : p.Lacks cap K)
    (hend : K.contains .eof = false) (hjson : V.contains .jsonSpan = false) :
    K.contains t.kind = false ∧ t.kind ≠ .error .depthExceeded := by
  obtain ⟨-, hchar⟩ := hlacks _ h.done
  cases hrest : p.rest with
  | nil =>
    rw [h.atEnd hrest]
    exact ⟨hend, nofun⟩
  | cons c cs =>
    obtain ⟨la, o, hla, hvalid, rfl, ho, hstate, hahead⟩ := h.found
    obtain ⟨hs, hplain, hdepth⟩ := hchar c cs hrest
    have hreads := ho.lookahead la hla
    have hambient : TokenSet.ambient.contains .jsonSpan = false := by decide
    have hW : la.scanned.valid.contains .jsonSpan = false := by
      rcases hreads.choice with hv | ⟨-, hv⟩
      · rw [hv, hvalid]
        simp [hjson, hambient]
      · rw [hv, TokenSet.contains_lexical]
        rfl
    rw [hrest] at hahead
    have hkind := Stand.kind_of_token? ho.sound hreads.token hahead hs
    rw [Lexer.lexeme, hW, Bool.false_and, if_neg Bool.false_ne_true, hstate] at hkind
    have htrack : ∀ b, Lexer.kindOf (Lexer.plain la.scanned.valid p.state.mode c (c :: cs)).value
        = .punct b → Bracket.openedBy? b ≠ none → p.state.depth < cap := by
      intro b hb hopen
      refine hdepth ?_
      cases hv : (Lexer.plain la.scanned.valid p.state.mode c (c :: cs)).value with
      | error e =>
        rw [hv] at hb
        cases hb
      | ok j =>
        rw [hv] at hb
        rw [Lexer.ofChar?_of_plain (hv.trans (congrArg Except.ok hb))]
        exact hopen
    rw [Lexer.track_of_shallow cap p.state htrack] at hkind
    rw [hkind]
    exact ⟨hplain _, Lexer.plain_shallow _ _ _ _⟩

/-- A token that has been found stands at the place. -/
theorem Meets.ahead (h : s.Meets cap text p k q) (hbare : pass? p.rest = none) :
    ∃ la o, s.lookahead = some la ∧ s.Stands cap text o ∧ la.scanned.token.kind = k
      ∧ o.state = p.state ∧ Lexer.ahead o.rest = p.rest := by
  obtain ⟨la, o, hla, ho, hkind, -⟩ := h.found
  obtain ⟨o', ho', hstate, hgap⟩ := h.stand
  have hplain : Lexer.leadsComment (Lexer.ahead o'.rest) = false := by
    rw [← ho'.cursor.rest_eq]
    exact h.sits.plain (by simp [hla])
  exact ⟨la, o', hla, ho', hkind, hstate, ahead_eq hgap.1 hbare hplain⟩

theorem Meets.bump (h : s.Meets cap text p k q) : s.bump.2.At cap text q := by
  obtain ⟨la, o, hla, ho, rfl, hstate, hgap⟩ := h.found
  have hreads := ho.lookahead la hla
  have hextra : la.scanned.token.kind.isExtra = false := by
    rw [ho.isExtra_eq hreads]
    exact h.sits.plain (by simp [hla])
  obtain ⟨-, herror⟩ := Kind.isMeant_iff.1 h.meant
  have hfaults := faults_commit s la
  rw [herror, h.clean] at hfaults
  simp only [Session.bump, hla]
  refine ⟨⟨⟨_, ho.commit hreads⟩, fun h => absurd rfl h⟩, hfaults,
    ⟨_, ho.commit hreads, hstate, hgap⟩, ?_, fun hq t ht => ?_⟩
  · rw [taken_commit hextra, List.map_append]
    exact h.goes
  · rw [commit, Array.toList_push, List.mem_append, List.mem_singleton] at ht
    rcases ht with ht | rfl
    · exact h.silent (h.still hq) t ht
    · exact hextra

theorem Stands.takeExtras (h : s.Stands cap text o) : s.takeExtras.2.Stands cap text o :=
  ⟨h.cap_eq, h.state, h.sound, h.append, h.cursor, h.log, h.lookahead, h.previous⟩

theorem At.takeExtras (h : s.At cap text p) : s.takeExtras.2.At cap text p := by
  obtain ⟨o, ho, hstate, hgap⟩ := h.stand
  exact ⟨⟨⟨o, ho.takeExtras⟩, h.sits.plain⟩, h.clean, ⟨o, ho.takeExtras, hstate, hgap⟩, h.done,
    h.silent⟩

theorem Meets.takeExtras (h : s.Meets cap text p k q) : s.takeExtras.2.Meets cap text p k q := by
  obtain ⟨la, o, hla, ho, hfound⟩ := h.found
  exact ⟨h.toAt.takeExtras, h.meant, h.still, h.goes, la, o, hla, ho.takeExtras, hfound⟩

theorem At.length_le (h : s.At cap text p) : p.rest.length ≤ s.remaining := by
  obtain ⟨o, ho, -, hgap, -⟩ := h.stand
  exact hgap.suffix.length_le.trans ho.length_le_remaining

theorem At.cap_le (h : s.At cap text p) : cap ≤ s.maxDepth := by
  obtain ⟨o, ho, -⟩ := h.stand
  rw [← ho.cap_eq]
  exact (Nat.min_le_left _ _).trans (Nat.min_le_left _ _)

/-- Two places of the text have two bytes. -/
theorem At.byte_ne {s' : Session} (h : s.At cap text p) (h' : s'.At cap text q)
    (hbare : pass? p.rest = none) (hlt : q.rest.length < p.rest.length) :
    s'.cursor.place.byte ≠ s.cursor.place.byte := by
  intro hbyte
  obtain ⟨o, ho, -, hgap, -⟩ := h.stand
  obtain ⟨o', ho', -, hgap', -⟩ := h'.stand
  rw [ho.cursor.byte_eq, ho'.cursor.byte_eq] at hbyte
  obtain ⟨-, hrest⟩ := Text.append_inj_of_size (ho'.append.trans ho.append.symm) hbyte
  rw [hrest] at hgap'
  have hle := (hgap'.meet hgap hbare).suffix.length_le
  omega

end Session

namespace Place

variable {cap : Nat} {p q : Place} {k : Kind} {ks : List Kind}

theorem Next.bare (h : p.Next cap k q) (hks : p.done ks) : pass? p.rest = none :=
  (h.reads ks hks).bare

theorem Next.lt (h : p.Next cap k q) (hks : p.done ks) : q.rest.length < p.rest.length := by
  have hk := h.meant
  obtain ⟨-, -, -, c, cs, n, hc, -, ⟨hgap, -⟩, hread⟩ := h.reads ks hks
  have hpos : 0 < n := by
    obtain ⟨-, rfl⟩ := hread (.single k) (by simp) (by
      rw [TokenSet.contains_single, decide_eq_decide]
      exact ⟨fun h => (TokenSet.index_inj rfl h.symm), fun h => by rw [h]⟩)
    exact Lexer.lexeme_used cap _ _ c cs
  have hle := hgap.suffix.length_le
  rw [hc, List.length_cons]
  rw [List.length_drop, List.length_cons] at hle
  omega

end Place

open Session (At Meets)

namespace Parser

variable {α β : Type} {A A' : Session → Prop} {cap : Nat} {text : List Char} {p q r : Place}
  {k : Kind} {V sync first : TokenSet}

/-- From a session in which `A` holds the parser succeeds, and then `B` holds. -/
def Runs (A : Session → Prop) (p : Parser α) (B : α → Session → Prop) : Prop :=
  ∀ s, A s → ∃ a s', p s = .ok (a, s') ∧ B a s'

namespace Runs

variable {f : Parser α} {g : α → Parser β} {B B' : α → Session → Prop} {C : β → Session → Prop}

theorem imp (h : Runs A f B) (hA : ∀ s, A' s → A s) (hB : ∀ a s, B a s → B' a s) :
    Runs A' f B' := by
  intro s hs
  obtain ⟨a, s', hr, hb⟩ := h s (hA s hs)
  exact ⟨a, s', hr, hB a s' hb⟩

theorem bind (h : Runs A f B) (hg : ∀ a, Runs (B a) (g a) C) : Runs A (f >>= g) C := by
  intro s hs
  obtain ⟨a, s₁, hr, hb⟩ := h s hs
  obtain ⟨b, s₂, hr', hc⟩ := hg a s₁ hb
  refine ⟨b, s₂, ?_, hc⟩
  show (f s).bind _ = _
  rw [hr]
  exact hr'

theorem pure {a : α} (h : ∀ s, A s → B a s) : Runs A (pure a) B :=
  fun s hs => ⟨a, s, rfl, h s hs⟩

theorem given {P : Prop} (h : P → Runs A f B) : Runs (fun s => P ∧ A s) f B :=
  fun s hs => h hs.1 s hs.2

/-- What every session tells in which `A` holds may be used. -/
theorem knowing {P : Prop} (hP : ∀ s, A s → P) (h : P → Runs A f B) : Runs A f B :=
  fun s hs => h (hP s hs) s hs

end Runs

/-! ## Single moves -/

theorem peek_of_kind {s : Session} (h : (s.peek V).1.kind ≠ .error .depthExceeded) :
    peek V s = .ok (s.peek V) := by
  rw [peek_run, if_neg h]
  rfl

theorem peek_runs (hnext : p.Next cap k q) (hk : V.contains k)
    (hjson : V.contains .jsonSpan = decide (k = .jsonSpan)) :
    Runs (At cap text p) (peek V) fun t s => t.kind = k ∧ s.Meets cap text p k q := by
  intro s hs
  obtain ⟨hkind, hmeets⟩ := (hs.peek (hnext.bare hs.done) V).meets hnext hk hjson
  refine ⟨_, _, peek_of_kind ?_, hkind, hmeets⟩
  rw [hkind]
  rintro rfl
  cases hnext.meant

theorem peek_atEnd (hend : p.rest = []) :
    Runs (At cap text p) (peek V) fun t s => t.kind = .eof ∧ s.At cap text p := by
  intro s hs
  have hlooks := hs.peek (by rw [hend]; rfl) V
  have hkind := hlooks.atEnd hend
  exact ⟨_, _, peek_of_kind (by rw [hkind]; exact nofun), hkind, hlooks.toAt⟩

theorem peek_lacks {K : TokenSet} (hlacks : p.Lacks cap K) (hend : K.contains .eof = false)
    (hjson : V.contains .jsonSpan = false) :
    Runs (At cap text p) (peek V) fun t s => K.contains t.kind = false ∧ s.At cap text p := by
  intro s hs
  have hlooks := hs.peek (hlacks _ hs.done).1 V
  obtain ⟨hkind, hdeep⟩ := hlooks.lacks hlacks hend hjson
  exact ⟨_, _, peek_of_kind hdeep, hkind, hlooks.toAt⟩

theorem single_jsonSpan (k : Kind) :
    (TokenSet.single k).contains .jsonSpan = decide (k = .jsonSpan) := by
  rw [TokenSet.contains_single, decide_eq_decide]
  exact ⟨fun h => TokenSet.index_inj rfl h.symm, fun h => by rw [h]⟩

theorem nextIs_true (hnext : p.Next cap k q) :
    Runs (At cap text p) (nextIs k) fun b s => b = true ∧ s.Meets cap text p k q :=
  (peek_runs hnext (by simp) (single_jsonSpan k)).bind fun _ =>
    .pure fun _ h => ⟨decide_eq_true h.1, h.2⟩

theorem nextIs_false (hlacks : p.Lacks cap (.single k)) (hk : k.isMeant) (hjson : k ≠ .jsonSpan) :
    Runs (At cap text p) (nextIs k) fun b s => b = false ∧ s.At cap text p := by
  have hend : (TokenSet.single k).contains .eof = false := by
    by_contra h
    rw [Bool.not_eq_false, TokenSet.contains_single] at h
    exact (Kind.isMeant_iff.1 hk).1 (TokenSet.index_inj rfl (of_decide_eq_true h).symm)
  refine (peek_lacks hlacks hend (by rw [single_jsonSpan, decide_eq_false hjson])).bind fun t =>
    .pure fun _ h => ⟨decide_eq_false ?_, h.2⟩
  rintro rfl
  simp at h

theorem flush_runs (h : ∀ s, A s → A s.takeExtras.2) : Runs A flush fun _ => A :=
  fun s hs => ⟨_, _, rfl, h s hs⟩

theorem flush_at : Runs (At cap text p) flush fun _ => At cap text p :=
  flush_runs fun _ h => h.takeExtras

theorem flush_meets : Runs (Meets cap text p k q) flush fun _ => Meets cap text p k q :=
  flush_runs fun _ h => h.takeExtras

theorem leaf_runs {kind : NodeKind} :
    Runs (Meets cap text p k q) (leaf kind) fun _ => At cap text q :=
  fun _ hs => ⟨_, _, rfl, hs.bump⟩

/-- What can be read from a place can be read when its next token has been seen. -/
theorem Runs.seen {f : Parser α} {B : α → Session → Prop} (h : Runs (At cap text p) f B) :
    Runs (Meets cap text p k q) f B :=
  h.imp (fun _ hs => hs.toAt) fun _ _ hb => hb

theorem bump_runs {kind : NodeKind} {field : Option String} :
    Runs (Meets cap text p k q) (bump kind field) fun _ => At cap text q :=
  flush_meets.bind fun _ => leaf_runs.bind fun _ => .pure fun _ h => h

theorem branch_runs {kind : NodeKind} {ns : List Node} : Runs A (branch kind ns) fun _ => A :=
  fun s hs => ⟨_, s, rfl, hs⟩

theorem get_runs : Runs A get fun t s => t = s ∧ A s :=
  fun s hs => ⟨s, s, rfl, rfl, hs⟩

theorem recoverSet_jsonSpan (hsync : sync.contains .jsonSpan = false) :
    (recoverSet sync first).contains .jsonSpan = false := by
  unfold recoverSet
  split
  · show (sync.bits &&& ~~~TokenSet.keywords.bits).getLsbD _ = false
    rw [BitVec.getLsbD_and, show sync.bits.getLsbD _ = false from hsync, Bool.false_and]
  · exact hsync

/-- Something that comes next is not skipped to. -/
theorem recoverTo_runs (hnext : p.Next cap k q) (hk : first.contains k)
    (hjson : first.contains .jsonSpan = decide (k = .jsonSpan))
    (hsync : sync.contains .jsonSpan = false) :
    Runs (At cap text p) (recoverTo sync first) fun r s =>
      r = (true, []) ∧ s.Meets cap text p k q := by
  unfold recoverTo
  refine (peek_runs hnext (by simp [hk]) (by simp [hjson, recoverSet_jsonSpan hsync])).bind
    fun t => .given fun ht => ?_
  rw [ht, if_pos hk]
  exact .pure fun _ h => ⟨rfl, h⟩

theorem expectAs?_runs {kind : NodeKind} {field : Option String} (hnext : p.Next cap k q)
    (hsync : sync.contains .jsonSpan = false) :
    Runs (At cap text p) (expectAs? sync k kind field) fun r s =>
      r.1 = true ∧ s.At cap text q := by
  unfold expectAs?
  refine (recoverTo_runs hnext (by simp) (single_jsonSpan k) hsync).bind fun r => .given ?_
  rintro rfl
  exact flush_meets.bind fun extras => leaf_runs.bind fun n => .pure fun _ h => ⟨rfl, h⟩

theorem expect_runs {field : Option String} (hnext : p.Next cap k q)
    (hsync : sync.contains .jsonSpan = false) :
    Runs (At cap text p) (expect sync k field) fun _ => At cap text q :=
  (expectAs?_runs hnext hsync).bind fun _ => .pure fun _ h => h.2

/-! ## Loops -/

section Loops

variable {step : α → Parser (Bool × α)} {W : α → Place → Prop} {B : α → Session → Prop}

theorem iterate_runs (hstep : ∀ a p, W a p → Runs (At cap text p) (step a) fun r s =>
      if r.1 then ∃ q, W r.2 q ∧ s.At cap text q ∧ q.rest.length < p.rest.length else B r.2 s) :
    ∀ (n : Nat) {a : α} {p : Place}, W a p → p.rest.length < n →
      Runs (At cap text p) (iterate step n a) B
  | 0, _, _, _, hn => absurd hn (Nat.not_lt_zero _)
  | n + 1, a, p, h, hn => by
    unfold iterate
    refine (hstep a p h).bind ?_
    rintro ⟨go, a'⟩
    cases go with
    | true =>
      intro s hs
      obtain ⟨q, hq, hat, hlt⟩ := hs
      exact iterate_runs hstep n hq (by omega) s hat
    | false => exact .pure fun _ h => h

/-- A loop succeeds whose steps lead from place to place, each further on. -/
theorem loop_runs {a : α} (hstep : ∀ a p, W a p → Runs (At cap text p) (step a) fun r s =>
      if r.1 then ∃ q, W r.2 q ∧ s.At cap text q ∧ q.rest.length < p.rest.length else B r.2 s)
    (h : W a p) : Runs (At cap text p) (loop step a) B := by
  intro s hs
  exact iterate_runs hstep (s.remaining + 1) h (Nat.lt_succ_of_le hs.length_le) s hs

end Loops

/-! ## Elements -/

/-- An element that is there is not followed by a skip. -/
theorem progress_runs {element : Parser α} {stop : TokenSet} {g : α → List Node → Parser β}
    {C : β → Session → Prop} {P : Place → Prop}
    (hA : ∀ s, A s → s.At cap text p ∧ pass? p.rest = none)
    (h : Runs A element fun _ s => ∃ q, s.At cap text q ∧ q.rest.length < p.rest.length ∧ P q)
    (hg : ∀ a q, q.rest.length < p.rest.length → P q → Runs (At cap text q) (g a []) C) :
    Runs A (progress stop element g) C := by
  intro s hs
  obtain ⟨hat, hbare⟩ := hA s hs
  obtain ⟨a, s₁, hr, q, hat', hlt, hq⟩ := h s hs
  obtain ⟨b, s₂, hr', hc⟩ := hg a q hlt hq s₁ hat'
  refine ⟨b, s₂, ?_, hc⟩
  show (element s).bind _ = _
  rw [hr]
  show (if s₁.cursor.place.byte = s.cursor.place.byte then skip stop >>= fun skipped => g a skipped
    else Pure.pure [] >>= fun skipped => g a skipped) s₁ = _
  rw [if_neg (hat.byte_ne hat' hbare hlt)]
  exact hr'

/-! ## Lists -/

/-- The parser reads from `p` to `q` where a token of `first` has been seen to come next. -/
def Starts (cap : Nat) (text : List Char) (first : TokenSet) (p : Place) (f : Parser α)
    (q : Place) : Prop :=
  ∃ k p', first.contains k ∧ p.Next cap k p'
    ∧ Runs (Meets cap text p k p') f fun _ => At cap text q

theorem Starts.ret {f : Parser α} (g : α → β) (h : Starts cap text first p f q) :
    Starts cap text first p (f >>= fun a => pure (g a)) q := by
  obtain ⟨k, p', hk, hnext, hrun⟩ := h
  exact ⟨k, p', hk, hnext, hrun.bind fun _ => .pure fun _ h => h⟩

/-- The tokens a list tells apart are apart. -/
structure ListForm.Sound (form : ListForm) : Prop where
  close : form.first.contains (.punct form.close) = false
  comma : form.first.contains (.punct .comma) = false
  ne_comma : form.close ≠ .comma
  jsonSpan : form.first.contains .jsonSpan = false

theorem ListForm.continues_jsonSpan {form : ListForm} (h : form.Sound) :
    form.continues.contains .jsonSpan = false := by
  have hpunct (q : Punct) : (TokenSet.single (.punct q)).contains .jsonSpan = false := by
    rw [single_jsonSpan]
    exact decide_eq_false nofun
  simp [continues, TokenSet.insert, h.jsonSpan, hpunct]

section Lists

/-- What may come next in a list. `L` says what may be listed from a place on, by whether an element
is wanted and whether there has been one, and `R` what the place behind the list is like. -/
inductive ListMove (cap : Nat) (text : List Char) (form : ListForm) (element : Parser (List Node))
    (L : (wants some : Bool) → Place → Prop) (R : Place → Prop) (wants some : Bool) (p : Place) :
    Prop
  | close (hlast : wants → some → form.trailing) {r : Place} (h : p.Next cap (.punct form.close) r)
      (hr : R r)
  | item (hwants : wants) {k : Kind} {p' : Place} (hk : form.first.contains k)
      (hnext : p.Next cap k p')
      (hrun : Runs (Meets cap text p k p') element fun _ s =>
        ∃ q, L false true q ∧ s.At cap text q ∧ q.rest.length < p.rest.length)
  | comma (hwants : wants = false) (hsome : some) {q : Place} (h : p.Next cap (.punct .comma) q)
      (rest : L true true q)

variable {form : ListForm} {element : Parser (List Node)} {L : (wants some : Bool) → Place → Prop}
  {R : Place → Prop}

theorem listItem_runs {stop : TokenSet} {a : Items} {p' : Place} (hnext : p.Next cap k p')
    (h : Runs (Meets cap text p k p') element fun _ s =>
      ∃ q, L false true q ∧ s.At cap text q ∧ q.rest.length < p.rest.length) :
    Runs (Meets cap text p k p') (listItem stop element a []) fun b s =>
      b.1 = true ∧ ∃ q, L b.2.wantsItem (decide (0 < b.2.count)) q
        ∧ s.At cap text q ∧ q.rest.length < p.rest.length := by
  rw [listItem_eq]
  refine flush_meets.bind fun extras => progress_runs (fun s hs => ⟨hs.toAt, hnext.bare hs.done⟩)
    (h.imp (fun _ h => h) fun _ _ h => h.imp fun _ hq => ⟨hq.2.1, hq.2.2, hq.1⟩)
    fun item q hlt hq => .pure fun s h => ?_
  exact ⟨rfl, q, by simpa using hq, h, hlt⟩

theorem listStep_runs {a : Items} (hform : form.Sound) (hsync : sync.contains .jsonSpan = false)
    (h : ListMove cap text form element L R a.wantsItem (decide (0 < a.count)) p) :
    Runs (At cap text p) (listStep sync form element a) fun b s =>
      if b.1 then ∃ q, L b.2.wantsItem (decide (0 < b.2.count)) q
        ∧ s.At cap text q ∧ q.rest.length < p.rest.length
      else ∃ r, R r ∧ s.At cap text r := by
  have hjson : (form.continues ∪ sync).contains .jsonSpan = false := by
    simp [hsync, form.continues_jsonSpan hform]
  rw [listStep_eq]
  generalize hwants : a.wantsItem = wants at h ⊢
  generalize hsome : decide (0 < a.count) = some at h ⊢
  cases h with
  | @close hlast r hnext hr =>
    refine (peek_runs hnext (by simp [ListForm.continues, TokenSet.insert]) hjson).bind fun t =>
      .given fun ht => ?_
    rw [if_pos ht]
    have hkeep : (wants && some && !form.trailing) = false := by
      cases wants <;> cases some <;> simp_all
    rw [hkeep, if_neg Bool.false_ne_true]
    exact bump_runs.bind fun ns => .pure fun _ h => ⟨r, hr, h⟩
  | @item hw k q' hk hnext hrun =>
    subst hw
    have hclose : k ≠ .punct form.close := by
      rintro rfl
      rw [hform.close] at hk
      cases hk
    have hspan : decide (k = .jsonSpan) = false := by
      refine decide_eq_false ?_
      rintro rfl
      rw [hform.jsonSpan] at hk
      cases hk
    refine (peek_runs hnext (by simp [ListForm.continues, TokenSet.insert, hk])
      (hjson.trans hspan.symm)).bind fun t => .given fun ht => ?_
    rw [ht, if_neg hclose, if_pos hk, if_pos rfl]
    refine (listItem_runs hnext hrun).imp (fun _ h => h) ?_
    rintro b s ⟨hgo, hlist⟩
    rwa [if_pos hgo]
  | comma hw hs hnext hrest =>
    subst hw hs
    have hclose : Kind.punct .comma ≠ .punct form.close :=
      fun h => hform.ne_comma (Kind.punct.inj h).symm
    refine (peek_runs hnext (by simp [ListForm.continues, TokenSet.insert]) hjson).bind fun t =>
      .given fun ht => ?_
    rw [ht, if_neg hclose, if_neg (by simp [hform.comma]), if_pos (by simp)]
    refine Runs.knowing (fun s hs => hnext.lt hs.done) fun hlt => bump_runs.bind fun ns =>
      .pure fun s h => ?_
    exact ⟨_, by simpa [hsome] using hrest, h, hlt⟩

/-- A list is read up to its closing mark. -/
theorem list_runs {element : TokenSet → Parser (List Node)} (hform : form.Sound)
    (hsync : sync.contains .jsonSpan = false)
    (hmove : ∀ sync : TokenSet, sync.contains .jsonSpan = false → ∀ wants some p,
      L wants some p → ListMove cap text form (element sync) L R wants some p)
    (h : L true false p) :
    Runs (At cap text p) (list sync form element) fun _ s => ∃ r, R r ∧ s.At cap text r := by
  unfold list
  have hinner : (sync ∪ form.continues).contains .jsonSpan = false := by
    simp [hsync, form.continues_jsonSpan hform]
  refine (loop_runs (W := fun a p => L a.wantsItem (decide (0 < a.count)) p)
    (B := fun _ s => ∃ r, R r ∧ s.At cap text r) (fun a p hp => ?_) h).bind fun a =>
      .pure fun _ h => h
  exact listStep_runs hform hsync (hmove _ hinner _ _ p hp)

/-- The elements of a list from a place on up to the place behind its closing mark. An element may
come where one is wanted, and a comma behind an element. -/
inductive Listing (cap : Nat) (form : ListForm) (Item : Place → Place → Prop) :
    (wants some : Bool) → Place → Place → Prop
  | close {wants some : Bool} {p q : Place} (hlast : wants → some → form.trailing)
      (h : p.Next cap (.punct form.close) q) : Listing cap form Item wants some p q
  | item {some : Bool} {p q r : Place} (h : Item p q)
    (rest : Listing cap form Item false true q r) :
      Listing cap form Item true some p r
  | comma {p q r : Place} (h : p.Next cap (.punct .comma) q)
      (rest : Listing cap form Item true true q r) : Listing cap form Item false true p r

/-- A list is read whose elements are known beforehand. -/
theorem listing_runs {element : TokenSet → Parser (List Node)} {Item : Place → Place → Prop}
    (hform : form.Sound) (hsync : sync.contains .jsonSpan = false)
    (hitem : ∀ p q, Item p q → q.rest.length < p.rest.length
      ∧ ∀ sync : TokenSet, sync.contains .jsonSpan = false →
        Starts cap text form.first p (element sync) q)
    (h : Listing cap form Item true false p r) :
    Runs (At cap text p) (list sync form element) fun _ => At cap text r := by
  refine (list_runs (L := fun wants some p => Listing cap form Item wants some p r) (R := (· = r))
    hform hsync (fun sync hsync wants some p hp => ?_) h).imp (fun _ h => h)
    fun _ s ⟨_, hr, hat⟩ => hr ▸ hat
  cases hp with
  | close hlast hnext => exact .close hlast hnext rfl
  | @item _ _ q _ hit hrest =>
    obtain ⟨hlt, hstarts⟩ := hitem _ _ hit
    obtain ⟨k, p', hk, hnext, hrun⟩ := hstarts sync hsync
    exact .item rfl hk hnext (hrun.imp (fun _ h => h) fun _ _ hat => ⟨q, hrest, hat, hlt⟩)
  | comma hnext hrest => exact .comma rfl rfl hnext hrest

end Lists

end Parser

end Parse

end AvroTree
