import AvroTree.Proofs.Making
import AvroTree.Proofs.Wanting

/-!
# What parsers take

A parser that has not complained has taken the tokens of some language (`Takes`). Complaints are
never withdrawn, so a run without any new ones is made of such runs. Recovery takes nothing without
complaining; what is left are the tokens that were asked for.
-/

namespace AvroTree

open Token (Kind)

/-- Tokens that a construct may be made of: neither the end nor an error. -/
def Token.Kind.isMeant : Kind → Bool
  | .eof | .error _ => false
  | _ => true

theorem Token.Kind.isMeant_iff {k : Kind} : k.isMeant ↔ k ≠ .eof ∧ k.isError = false := by
  cases k <;> simp [isMeant, isError]

/-- The tokens that a lexer has read, comments apart. -/
def Scanned.proper (log : List Scanned) : List Token :=
  (log.map (·.token)).filter fun t => !t.kind.isExtra

namespace Lexer

/-- From one stand to another the tokens `ts` are read, and comments. -/
def Passage (cap : Nat) (p : Stand) (ts : List Token) (q : Stand) : Prop :=
  ∃ log, Trail cap p log q ∧ Scanned.proper log = ts

namespace Passage

variable {cap : Nat} {p q r : Stand} {ts us : List Token} {t : Scanned}

theorem nil (p : Stand) : Passage cap p [] p :=
  ⟨[], .nil p, rfl⟩

theorem append (h : Passage cap p ts q) (h' : Passage cap q us r) : Passage cap p (ts ++ us) r := by
  obtain ⟨log, hlog, rfl⟩ := h
  obtain ⟨log', hlog', rfl⟩ := h'
  exact ⟨log ++ log', hlog.append hlog', by simp [Scanned.proper]⟩

theorem extra (h : p.token? cap t.valid = some t) (ht : t.token.kind.isExtra) :
    Passage cap p [] (p.next cap t.valid) :=
  ⟨[t], .cons h (.nil _), by simp [Scanned.proper, ht]⟩

theorem single (h : p.token? cap t.valid = some t) (ht : t.token.kind.isExtra = false) :
    Passage cap p [t.token] (p.next cap t.valid) :=
  ⟨[t], .cons h (.nil _), by simp [Scanned.proper, ht]⟩

end Passage

end Lexer

namespace Parse

open Lexer (Passage)

namespace Session

/-- The tokens taken so far, comments apart. -/
def taken (s : Session) : List Token :=
  Scanned.proper s.log.toList

/-- The number of complaints. -/
def faults (s : Session) : Nat :=
  s.lexical.size + s.syntactic.size

/-- The session stands in the text, and the token it has found next is no comment. -/
structure Sits (cap : Nat) (text : List Char) (s : Session) : Prop where
  stands : ∃ p, s.Stands cap text p
  plain : s.lookahead ≠ none → s.Plain

/-- The token `t` was found next with these kinds wanted. -/
def Faces (wanted : TokenSet) (t : Token) (s : Session) : Prop :=
  ∃ la, s.lookahead = some la ∧ la.valid = wanted ∪ .ambient ∧ la.scanned.token = t

/-- The tokens `ts` have been taken from `s` to `s'`. -/
structure Took (cap : Nat) (text : List Char) (s : Session) (ts : List Token) (s' : Session) :
    Prop where
  sits : s'.Sits cap text
  passage : ∀ p, s.Stands cap text p → ∃ q, s'.Stands cap text q ∧ Passage cap p ts q
  taken : s'.taken = s.taken ++ ts
  faults : s.faults ≤ s'.faults
  le : s.cursor.place.byte ≤ s'.cursor.place.byte
  moved : ts ≠ [] → s.cursor.place.byte < s'.cursor.place.byte

variable {cap : Nat} {text : List Char} {s t u : Session} {ts us : List Token} {la : Lookahead}
  {p : Lexer.Stand}

theorem Took.refl (h : s.Sits cap text) : Took cap text s [] s :=
  ⟨h, fun p hp => ⟨p, hp, .nil p⟩, by simp, le_rfl, le_rfl, by simp⟩

theorem Took.trans (h : Took cap text s ts t) (h' : Took cap text t us u) :
    Took cap text s (ts ++ us) u := by
  refine ⟨h'.sits, fun p hp => ?_, by rw [h'.taken, h.taken, List.append_assoc],
    h.faults.trans h'.faults, h.le.trans h'.le, fun hne => ?_⟩
  · obtain ⟨q, hq, hpq⟩ := h.passage p hp
    obtain ⟨r, hr, hqr⟩ := h'.passage q hq
    exact ⟨r, hr, hpq.append hqr⟩
  rcases ts with _ | ⟨x, ts⟩
  · exact h.le.trans_lt (h'.moved hne)
  · exact (h.moved (by simp)).trans_le h'.le

theorem taken_commit (h : la.scanned.token.kind.isExtra = false) :
    (s.commit la).taken = s.taken ++ [la.scanned.token] := by
  simp [taken, Scanned.proper, commit, h]

theorem taken_commit_extra (h : la.scanned.token.kind.isExtra) : (s.commit la).taken = s.taken := by
  simp [taken, Scanned.proper, commit, h]

theorem faults_commit (s : Session) (la : Lookahead) :
    (s.commit la).faults = s.faults + if la.scanned.token.kind.isError then 1 else 0 := by
  unfold faults commit lexicalComplaint?
  cases hk : la.scanned.token.kind <;> simp [Kind.isError, hk]
  omega

theorem commit_le (h : s.Stands cap text p) (hla : la.Reads cap p) :
    s.cursor.place.byte ≤ (s.commit la).cursor.place.byte := by
  rw [Stands.commit_byte hla, h.cursor.byte_eq]
  rw [Lexer.Stand.stop_eq hla.token, Location.behind_byte, Lexer.Stand.next, Text.size_append]
  omega

theorem commit_lt (h : s.Stands cap text p) (hla : la.Reads cap p)
    (hk : la.scanned.token.kind ≠ .eof) :
    s.cursor.place.byte < (s.commit la).cursor.place.byte := by
  have hstart := Lexer.Stand.le_start h.sound hla.token
  have hlt := Lexer.Stand.start_lt_stop h.sound hla.token hk
  rw [Stands.commit_byte hla, h.cursor.byte_eq]
  omega

theorem not_eof_of_isExtra {k : Kind} (h : k.isExtra) : k ≠ .eof := by
  rintro rfl
  cases h

theorem takeComment_took (hp : s.Stands cap text p) {valid : TokenSet}
    (hk : (s.scan valid).scanned.token.kind.isExtra) :
    Took cap text s [] (s.takeComment valid) := by
  obtain ⟨hla, -⟩ := scan_reads hp valid
  have hne : (s.scan valid).scanned.token.kind.isError = false := by
    cases h : (s.scan valid).scanned.token.kind <;> simp_all [Kind.isExtra, Kind.isError]
  refine ⟨⟨⟨_, (hp.commit hla).withExtras _⟩, fun h => absurd rfl h⟩, fun q hq => ?_, ?_, ?_,
    commit_le hp hla, by simp⟩
  · obtain ⟨hla, -⟩ := scan_reads hq valid
    exact ⟨_, (hq.commit hla).withExtras _, .extra hla.token hk⟩
  · rw [List.append_nil]
    exact taken_commit_extra hk
  · have hfaults := faults_commit s (s.scan valid)
    rw [hne] at hfaults
    exact hfaults.ge

theorem fetch_took (wanted : TokenSet) : ∀ (n : Nat) {s : Session} {p : Lexer.Stand},
    s.Stands cap text p → p.rest.length ≤ n →
      Took cap text s [] (fetch (wanted ∪ .ambient) n s).2
        ∧ (fetch (wanted ∪ .ambient) n s).2.Faces wanted (fetch (wanted ∪ .ambient) n s).1
  | n, s, p, hp, hn => by
    obtain ⟨hla, hv⟩ := scan_reads hp (wanted ∪ .ambient)
    have hextra := hp.isExtra_eq hla
    cases hk : (s.scan (wanted ∪ .ambient)).scanned.token.kind.isExtra with
    | false =>
      have hs : s.Plain := by
        unfold Plain
        rw [← hextra, hk]
      rw [fetch_of_not hk]
      exact ⟨⟨⟨⟨p, hp.look _⟩, fun _ => hs⟩, fun q hq => ⟨q, hq.look _, .nil q⟩,
        by simp [look, taken], le_rfl, le_rfl, by simp⟩, _, rfl, hv, rfl⟩
    | true =>
      have hlt := Lexer.Stand.next_lt hp.sound hla.token (not_eof_of_isExtra hk)
      cases n with
      | zero => omega
      | succ n =>
        rw [fetch_succ hk]
        have hp' : (s.takeComment (wanted ∪ .ambient)).Stands cap text _ :=
          (hp.commit hla).withExtras _
        obtain ⟨htook, hfaces⟩ := fetch_took wanted n hp' (by omega)
        exact ⟨(takeComment_took hp hk).trans htook, hfaces⟩

theorem peek_took (h : s.Sits cap text) (wanted : TokenSet) :
    Took cap text s [] (s.peek wanted).2 ∧ (s.peek wanted).2.Faces wanted (s.peek wanted).1 := by
  obtain ⟨p, hp⟩ := h.stands
  have hfetch := fetch_took wanted s.remaining hp hp.length_le_remaining
  unfold peek
  simp only []
  split
  · rename_i la hla
    split
    · exact ⟨.refl h, la, hla, ‹_›, rfl⟩
    · exact hfetch
  · exact hfetch

/-- Where the next token is known to be no comment a session stays while it looks at it. -/
theorem peek_stays (hp : s.Stands cap text p) (hs : s.Plain) (wanted : TokenSet) :
    ∃ la, (s.peek wanted).2.lookahead = some la ∧ la.valid = wanted ∪ .ambient
      ∧ la.scanned.token = (s.peek wanted).1 ∧ la.Reads cap p
      ∧ (s.peek wanted).2.Stands cap text p := by
  obtain ⟨hscan, hv⟩ := scan_reads hp (wanted ∪ .ambient)
  have hk : (s.scan (wanted ∪ .ambient)).scanned.token.kind.isExtra = false := by
    rw [hp.isExtra_eq hscan]
    exact hs
  have hfetch : fetch (wanted ∪ .ambient) s.remaining s = _ := fetch_of_not hk
  unfold peek
  simp only [hfetch]
  split
  · rename_i la hla
    split
    · rename_i hvalid
      exact ⟨la, hla, hvalid, rfl, hp.lookahead la hla, hp⟩
    · exact ⟨_, rfl, hv, rfl, hscan, hp.look _⟩
  · exact ⟨_, rfl, hv, rfl, hscan, hp.look _⟩

theorem peek_of_faces {wanted : TokenSet} {t : Token} (h : s.Faces wanted t) :
    s.peek wanted = (t, s) := by
  obtain ⟨la, hla, hv, rfl⟩ := h
  simp [peek, hla, hv]

theorem bump_took (h : s.Sits cap text) {wanted : TokenSet} {t : Token} (hf : s.Faces wanted t)
    (ht : t.kind ≠ .eof) :
    Took cap text s [t] s.bump.2 ∧ (t.kind.isError → s.faults < s.bump.2.faults) := by
  obtain ⟨la, hla, -, rfl⟩ := hf
  obtain ⟨p, hp⟩ := h.stands
  have hr := hp.lookahead la hla
  have hk : la.scanned.token.kind.isExtra = false := by
    rw [hp.isExtra_eq hr]
    exact h.plain (by simp [hla])
  have hlt := commit_lt hp hr ht
  have hfaults := faults_commit s la
  simp only [bump, hla]
  refine ⟨⟨⟨⟨_, hp.commit hr⟩, fun h => absurd rfl h⟩, fun q hq => ?_, taken_commit hk, by omega,
    hlt.le, fun _ => hlt⟩, fun he => ?_⟩
  · have hr := hq.lookahead la hla
    exact ⟨_, hq.commit hr, .single hr.token hk⟩
  rw [he] at hfaults
  simp only [↓reduceIte] at hfaults
  omega

theorem Sits.remaining_lt (hs : s.Sits cap text) (ht : t.Sits cap text)
    (hbyte : s.cursor.place.byte < t.cursor.place.byte) : t.remaining < s.remaining := by
  obtain ⟨p, hp⟩ := hs.stands
  obtain ⟨q, hq⟩ := ht.stands
  have hle : t.cursor.place.byte ≤ Text.size text := by
    rw [hq.cursor.byte_eq, ← hq.append, Text.size_append]
    omega
  unfold remaining
  rw [hp.cursor.size_eq, hq.cursor.size_eq, hp.append, hq.append]
  omega

end Session

namespace Parser

open Session (Sits Faces Took Anywhere)

variable {α β : Type} {cap : Nat} {text : List Char} {s s' : Session} {C : Session → Prop}

/-- From a session in which `C` holds the parser leads to one in which `D` holds. If there are no
new complaints in the end, the tokens that it has taken are in `L`. -/
def Takes (cap : Nat) (text : List Char) (C : Session → Prop) (p : Parser α)
    (D : α → Session → Prop) (L : α → List Token → Prop) : Prop :=
  ∀ s a s', s.Sits cap text → C s → p s = .ok (a, s') →
    D a s' ∧ ∃ ts, Took cap text s ts s' ∧ (s'.faults = s.faults → L a ts)

/-- What a parser takes when nothing is known in the end but its tokens. -/
def Spends (cap : Nat) (text : List Char) (C : Session → Prop) (p : Parser α)
    (L : List Token → Prop) : Prop :=
  Takes cap text C p (fun _ _ => True) fun _ => L

/-- Nothing at all. -/
def Nothing (_ : α) (ts : List Token) : Prop :=
  ts = []

namespace Takes

variable {C' : Session → Prop} {p : Parser α} {f : α → Parser β} {D D' : α → Session → Prop}
  {E : β → Session → Prop} {L L' : α → List Token → Prop} {M : α → β → List Token → Prop}
  {N : β → List Token → Prop}

theorem imp (h : Takes cap text C p D L) (hC : ∀ s, C' s → C s) (hD : ∀ a s, D a s → D' a s)
    (hL : ∀ a ts, L a ts → L' a ts) : Takes cap text C' p D' L' := by
  intro s a s' hs hc hr
  obtain ⟨hd, ts, htook, hl⟩ := h s a s' hs (hC s hc) hr
  exact ⟨hD a s' hd, ts, htook, fun hf => hL a ts (hl hf)⟩

theorem bind (h : Takes cap text C p D L) (hf : ∀ a, Takes cap text (D a) (f a) E (M a))
    (hN : ∀ a b ts us, L a ts → M a b us → N b (ts ++ us)) :
    Takes cap text C (p >>= f) E N := by
  intro s b s' hs hc hr
  obtain ⟨a, s₁, hp, hr⟩ := bind_ok hr
  obtain ⟨hd, ts, htook, hl⟩ := h s a s₁ hs hc hp
  obtain ⟨he, us, htook', hm⟩ := hf a s₁ b s' htook.sits hd hr
  have h₁ := htook.faults
  have h₂ := htook'.faults
  exact ⟨he, ts ++ us, htook.trans htook', fun hfaults =>
    hN a b ts us (hl (by omega)) (hm (by omega))⟩

/-- Behind a parser that takes nothing. -/
theorem after (h : Takes cap text C p D Nothing) (hf : ∀ a, Takes cap text (D a) (f a) E N) :
    Takes cap text C (p >>= f) E N := by
  refine h.bind hf ?_
  rintro a b _ us rfl hn
  exact hn

/-- In front of a parser that takes nothing. -/
theorem before {L : List Token → Prop} (h : Takes cap text C p D fun _ => L)
    (hf : ∀ a, Takes cap text (D a) (f a) E Nothing) :
    Takes cap text C (p >>= f) E fun _ => L := by
  refine h.bind hf ?_
  rintro a b ts _ hl rfl
  rwa [List.append_nil]

theorem anywhere (h : Takes cap text Anywhere p D L) : Takes cap text C p D L :=
  h.imp (fun _ _ => trivial) (fun _ _ h => h) fun _ _ h => h

theorem given {P : Prop} (h : P → Takes cap text C p D L) :
    Takes cap text (fun s => C s ∧ P) p D L :=
  fun s a s' hs hc hr => h hc.2 s a s' hs hc.1 hr

/-- What every session tells in which `C` holds may be used. -/
theorem knowing {P : Prop} (hP : ∀ s, s.Sits cap text → C s → P) (h : P → Takes cap text C p D L) :
    Takes cap text C p D L :=
  fun s a s' hs hc hr => h (hP s hs hc) s a s' hs hc hr

/-- A parser that complains may take what it likes. -/
theorem vain (h : Takes cap text C p D fun _ _ => False) : Takes cap text C p D L :=
  h.imp (fun _ h => h) (fun _ _ h => h) fun _ _ h => h.elim

end Takes

theorem pure_takes (a : α) :
    Takes cap text C (pure a) (fun b s => b = a ∧ C s) fun b ts => b = a ∧ ts = [] := by
  intro s b s' hs hc hr
  obtain ⟨rfl, rfl⟩ := pure_ok hr
  exact ⟨⟨rfl, hc⟩, [], .refl hs, fun _ => ⟨rfl, rfl⟩⟩

/-- A parser whose result is changed in the end. -/
theorem Takes.ret {p : Parser α} {f : α → β} {D : α → Session → Prop} {L : α → List Token → Prop}
    {E : β → Session → Prop} {N : β → List Token → Prop} (h : Takes cap text C p D L)
    (hE : ∀ a s, D a s → E (f a) s) (hN : ∀ a ts, L a ts → N (f a) ts) :
    Takes cap text C (p >>= fun a => pure (f a)) E N := by
  refine h.bind (M := fun a b ts => b = f a ∧ ts = []) (fun a => ?_) ?_
  · refine (pure_takes (f a)).imp (fun _ h => h) ?_ fun _ _ h => h
    rintro _ s ⟨rfl, hd⟩
    exact hE a s hd
  · rintro a b ts us hl ⟨rfl, rfl⟩
    rw [List.append_nil]
    exact hN a ts hl

theorem pure_nothing (a : α) : Takes cap text C (pure a) (fun _ => C) Nothing :=
  (pure_takes a).imp (fun _ h => h) (fun _ _ h => h.2) fun _ _ h => h.2

theorem pure_any (a : α) :
    Takes cap text C (pure a) (fun _ _ => True) fun b ts => b = a ∧ ts = [] :=
  (pure_takes a).imp (fun _ h => h) (fun _ _ _ => trivial) fun _ _ h => h

theorem pure_spends (a : α) : Spends cap text C (pure a) (· = []) :=
  (pure_any a).imp (fun _ h => h) (fun _ _ h => h) fun _ _ h => h.2

theorem get_takes : Takes cap text C get (fun t s => t = s ∧ C s) Nothing := by
  intro s t s' hs hc hr
  obtain ⟨rfl, rfl⟩ := get_ok hr
  exact ⟨⟨rfl, hc⟩, [], .refl hs, fun _ => rfl⟩

/-! ## Single moves -/

theorem peek_takes (wanted : TokenSet) :
    Takes cap text C (peek wanted) (fun t => Faces wanted t) Nothing := by
  intro s t s' hs _ hr
  obtain ⟨rfl, rfl⟩ := peek_ok hr
  obtain ⟨htook, hfaces⟩ := Session.peek_took hs wanted
  exact ⟨hfaces, [], htook, fun _ => rfl⟩

theorem nextIs_takes (kind : Kind) :
    Takes cap text C (nextIs kind)
      (fun b s => b → ∃ t, s.Faces (.single kind) t ∧ t.kind = kind) Nothing := by
  unfold nextIs
  refine (peek_takes _).after fun t => ?_
  refine (pure_takes _).imp (fun _ h => h) ?_ fun _ _ h => h.2
  rintro b s ⟨rfl, hf⟩ hb
  exact ⟨t, hf, of_decide_eq_true hb⟩

theorem flush_takes (hC : ∀ s, C s → C s.takeExtras.2) :
    Takes cap text C flush (fun _ => C) Nothing := by
  intro s ns s' hs hc hr
  cases hr
  refine ⟨hC s hc, [], ?_, fun _ => rfl⟩
  have hstands (p : Lexer.Stand) (hp : s.Stands cap text p) : s.takeExtras.2.Stands cap text p :=
    ⟨hp.cap_eq, hp.state, hp.sound, hp.append, hp.cursor, hp.log, hp.lookahead, hp.previous⟩
  obtain ⟨p, hp⟩ := hs.stands
  exact ⟨⟨⟨p, hstands p hp⟩, hs.plain⟩, fun q hq => ⟨q, hstands q hq, .nil q⟩,
    by simp [Session.taken], le_rfl, le_rfl, by simp⟩

theorem flush_faces {wanted : TokenSet} {t : Token} :
    Takes cap text (Faces wanted t) flush (fun _ => Faces wanted t) Nothing :=
  flush_takes fun _ h => h

theorem leaf_run {wanted : TokenSet} {t : Token} {kind : NodeKind} {n : Node}
    (hs : s.Sits cap text) (hf : s.Faces wanted t) (ht : t.kind ≠ .eof)
    (hr : leaf kind s = .ok (n, s')) :
    Took cap text s [t] s' ∧ (t.kind.isError → s.faults < s'.faults) := by
  cases hr
  exact Session.bump_took hs hf ht

theorem bump_run {wanted : TokenSet} {t : Token} {kind : NodeKind} {field : Option String}
    {ns : List Node} (hs : s.Sits cap text) (hf : s.Faces wanted t) (ht : t.kind ≠ .eof)
    (hr : bump kind field s = .ok (ns, s')) :
    ns ≠ [] ∧ Took cap text s [t] s' ∧ (t.kind.isError → s.faults < s'.faults) := by
  unfold bump at hr
  obtain ⟨extras, s₁, hflush, hr⟩ := bind_ok hr
  obtain ⟨n, s₂, hleaf, hr⟩ := bind_ok hr
  obtain ⟨rfl, rfl⟩ := pure_ok hr
  obtain ⟨hf₁, us, hus, hnil⟩ := flush_faces _ _ _ hs hf hflush
  have hle := hus.faults
  cases hflush
  obtain rfl : us = [] := hnil rfl
  obtain ⟨htook, hlt⟩ := leaf_run hus.sits hf₁ ht hleaf
  exact ⟨by simp, hus.trans htook, fun he => hle.trans_lt (hlt he)⟩

theorem leaf_takes {wanted : TokenSet} {t : Token} (kind : NodeKind) (ht : t.kind ≠ .eof) :
    Spends cap text (Faces wanted t) (leaf kind) fun ts => ts = [t] ∧ t.kind.isError = false := by
  intro s n s' hs hf hr
  obtain ⟨htook, herror⟩ := leaf_run hs hf ht hr
  refine ⟨trivial, [t], htook, fun hfaults => ⟨rfl, ?_⟩⟩
  by_contra he
  have := herror (by simpa using he)
  omega

theorem bump_takes {wanted : TokenSet} {t : Token} (kind : NodeKind) (field : Option String)
    (ht : t.kind ≠ .eof) :
    Takes cap text (Faces wanted t) (bump kind field) (fun ns _ => ns ≠ [])
      fun _ ts => ts = [t] ∧ t.kind.isError = false := by
  intro s ns s' hs hf hr
  obtain ⟨hne, htook, herror⟩ := bump_run hs hf ht hr
  refine ⟨hne, [t], htook, fun hfaults => ⟨rfl, ?_⟩⟩
  by_contra he
  have := herror (by simpa using he)
  omega

theorem complain_run {d : Diagnostic} {a : Unit} (hs : s.Sits cap text)
    (hr : complain d s = .ok (a, s')) : Took cap text s [] s' ∧ s.faults < s'.faults := by
  cases hr
  have hstands (p : Lexer.Stand) (hp : s.Stands cap text p) :
      Session.Stands cap text { s with syntactic := s.syntactic.push d } p :=
    ⟨hp.cap_eq, hp.state, hp.sound, hp.append, hp.cursor, hp.log, hp.lookahead, hp.previous⟩
  obtain ⟨p, hp⟩ := hs.stands
  exact ⟨⟨⟨⟨p, hstands p hp⟩, hs.plain⟩, fun q hq => ⟨q, hstands q hq, .nil q⟩,
    by simp [Session.taken], by simp [Session.faults], le_rfl, by simp⟩, by simp [Session.faults]⟩

theorem complain_takes {d : Diagnostic}
    (hC : ∀ s : Session, C s → C { s with syntactic := s.syntactic.push d }) :
    Takes cap text C (complain d) (fun _ => C) fun _ _ => False := by
  intro s a s' hs hc hr
  obtain ⟨htook, hlt⟩ := complain_run hs hr
  cases hr
  exact ⟨hC s hc, [], htook, fun hf => by omega⟩

/-- What is done behind a complaint may take what it likes. -/
theorem complain_vain {d : Diagnostic} {f : Unit → Parser β} {N : β → List Token → Prop}
    (h : ∀ u, Takes cap text Anywhere (f u) (fun _ _ => True) fun _ _ => True) :
    Takes cap text C (complain d >>= f) (fun _ _ => True) N := by
  have hcomplain : Takes cap text Anywhere (complain d) (fun _ => Anywhere) fun _ _ => False :=
    complain_takes fun _ h => h
  exact hcomplain.anywhere.bind h fun _ _ _ _ hf => hf.elim

theorem here_takes : Takes cap text C here (fun _ => C) Nothing := by
  intro s l s' hs hc hr
  obtain ⟨rfl, rfl⟩ := here_ok hr
  exact ⟨hc, [], .refl hs, fun _ => rfl⟩

theorem missing_takes {kind : NodeKind} {what : String}
    (hC : ∀ s : Session, ∀ d, C s → C { s with syntactic := s.syntactic.push d }) :
    Takes cap text C (missing kind what) (fun _ => C) fun _ _ => False := by
  unfold missing
  exact here_takes.after fun _ =>
    (complain_takes fun s => hC s _).before fun _ => pure_nothing _

/-- A place where something is missing has been complained about. -/
theorem missing_vain {kind : NodeKind} {what : String} {f : Node → Parser β}
    {N : β → List Token → Prop}
    (h : ∀ n, Takes cap text Anywhere (f n) (fun _ _ => True) fun _ _ => True) :
    Takes cap text C (missing kind what >>= f) (fun _ _ => True) N := by
  have hmissing :
      Takes cap text Anywhere (missing kind what) (fun _ => Anywhere) fun _ _ => False :=
    missing_takes fun _ _ h => h
  exact hmissing.anywhere.bind h fun _ _ _ _ hf => hf.elim

theorem branch_takes (kind : NodeKind) (ns : List Node) :
    Takes cap text C (branch kind ns) (fun _ => C) Nothing := by
  unfold branch
  exact here_takes.after fun _ => pure_nothing _

/-! ## Loops -/

/-- What has been taken is in `Inv` as long as the loop goes on, and in `Fin` behind it. A step that
goes on takes something, so the loop does not end for lack of steps. -/
theorem iterate_takes {step : α → Parser (Bool × α)} (I : α → Prop)
    (Inv Fin : α → List Token → Prop)
    (hstep : ∀ a, I a → Takes cap text Anywhere (step a) (fun r _ => r.1 → I r.2) fun r us =>
      ∀ ts, Inv a ts → if r.1 then us ≠ [] ∧ Inv r.2 (ts ++ us) else Fin r.2 (ts ++ us)) :
    ∀ (n : Nat) {a a' : α} {s s' : Session}, s.Sits cap text → I a →
      iterate step n a s = .ok (a', s') →
      ∃ us, Took cap text s us s' ∧
        (s'.faults = s.faults → s.remaining < n → ∀ ts, Inv a ts → Fin a' (ts ++ us))
  | 0, a, a', s, s', hs, hi, hr => by
    obtain ⟨rfl, rfl⟩ := pure_ok hr
    exact ⟨[], .refl hs, by omega⟩
  | n + 1, a, a', s, s', hs, hi, hr => by
    unfold iterate at hr
    obtain ⟨⟨go, a₁⟩, s₁, hs₁, hr⟩ := bind_ok hr
    obtain ⟨hi₁, us, htook, hl⟩ := hstep a hi s _ s₁ hs trivial hs₁
    cases go with
    | false =>
      obtain ⟨rfl, rfl⟩ := pure_ok hr
      exact ⟨us, htook, fun hf _ => hl hf⟩
    | true =>
      obtain ⟨vs, htook', hl'⟩ := iterate_takes I Inv Fin hstep n htook.sits (hi₁ rfl) hr
      refine ⟨us ++ vs, htook.trans htook', fun hf hn ts hts => ?_⟩
      have h₁ := htook.faults
      have h₂ := htook'.faults
      obtain ⟨hne, hinv⟩ := hl (by omega) ts hts
      have hlt := hs.remaining_lt htook.sits (htook.moved hne)
      rw [← List.append_assoc]
      exact hl' (by omega) (by omega) (ts ++ us) hinv

theorem loop_takes {step : α → Parser (Bool × α)} (I : α → Prop) (Inv Fin : α → List Token → Prop)
    {a : α}
    (hstep : ∀ a, I a → Takes cap text Anywhere (step a) (fun r _ => r.1 → I r.2) fun r us =>
      ∀ ts, Inv a ts → if r.1 then us ≠ [] ∧ Inv r.2 (ts ++ us) else Fin r.2 (ts ++ us))
    (hi : I a) (hinv : Inv a []) : Takes cap text C (loop step a) (fun _ _ => True) Fin := by
  intro s a' s' hs _ hr
  obtain ⟨us, htook, hl⟩ := iterate_takes I Inv Fin hstep (s.remaining + 1) hs hi hr
  exact ⟨trivial, us, htook, fun hf => hl hf (Nat.lt_succ_self _) [] hinv⟩

theorem gather_takes {step : Array Node → Parser (Bool × Array Node)}
    (Inv Fin : List Node → List Token → Prop) (first : List Node)
    (hstep : ∀ nodes, Takes cap text Anywhere (step nodes) (fun _ _ => True) fun r us =>
      ∀ ts, Inv nodes.toList ts →
        if r.1 then us ≠ [] ∧ Inv r.2.toList (ts ++ us) else Fin r.2.toList (ts ++ us))
    (hinv : Inv first []) : Takes cap text C (gather step first) (fun _ _ => True) Fin := by
  unfold gather
  refine (loop_takes (fun _ => True) (fun ns => Inv ns.toList) (fun ns => Fin ns.toList)
    (fun nodes _ => (hstep nodes).imp (fun _ h => h) (fun _ _ _ _ => trivial) fun _ _ h => h)
    trivial hinv).ret (fun _ _ h => h) fun _ _ h => h

/-! ## Recovery -/

/-- What a stretch of unwanted tokens has taken: nothing without a first token, and an error that
comes first has been complained about. -/
structure Skipped.Took (cap : Nat) (text : List Char) (o : Session) (a : Skipped) (s : Session) :
    Prop where
  took : ∃ ts, Session.Took cap text o ts s ∧ (a.first = none → ts = [])
  error : ∀ t, a.first = some t → t.kind.isError → o.faults < s.faults

theorem skipStep_took {stop : TokenSet} {a : Skipped} {r : Bool × Skipped} {o : Session}
    (h : a.Took cap text o s) (hr : skipStep stop a s = .ok (r, s')) : r.2.Took cap text o s' := by
  unfold skipStep at hr
  obtain ⟨t, s₁, hpeek, hr⟩ := bind_ok hr
  obtain ⟨⟨ts, hts, hnone⟩, herror⟩ := h
  obtain ⟨rfl, rfl⟩ := peek_ok hpeek
  obtain ⟨hpeeked, hfaces⟩ := Session.peek_took hts.sits stop
  have hle := hpeeked.faults
  have h₁ := hts.trans hpeeked
  rw [List.append_nil] at h₁
  split at hr
  · obtain ⟨rfl, rfl⟩ := pure_ok hr
    exact ⟨⟨ts, h₁, hnone⟩, fun t ht he => (herror t ht he).trans_le hle⟩
  · rename_i hgo
    obtain ⟨ns, s₂, hbump, hr⟩ := bind_ok hr
    obtain ⟨rfl, rfl⟩ := pure_ok hr
    obtain ⟨-, htook, hlt⟩ := bump_run hpeeked.sits hfaces (fun he => hgo (.inl he)) hbump
    have hmore := htook.faults
    have hall := h₁.faults
    refine ⟨⟨_, h₁.trans htook, ?_⟩, fun t ht he => ?_⟩
    · cases a.first <;> simp
    · cases hf : a.first with
      | none =>
        simp only [hf, Option.none_or, Option.some.injEq] at ht
        have := hlt (ht ▸ he)
        omega
      | some u =>
        simp only [hf, Option.some_or, Option.some.injEq] at ht
        have := herror u hf (ht ▸ he)
        omega

theorem skipStep_first {stop : TokenSet} {a : Skipped} {r : Bool × Skipped}
    (ha : a.first ≠ none) (hr : skipStep stop a s = .ok (r, s')) : r.2.first ≠ none := by
  unfold skipStep at hr
  obtain ⟨t, s₁, -, hr⟩ := bind_ok hr
  split at hr
  · obtain ⟨rfl, rfl⟩ := pure_ok hr
    exact ha
  · obtain ⟨ns, s₂, -, hr⟩ := bind_ok hr
    obtain ⟨rfl, rfl⟩ := pure_ok hr
    cases hf : a.first <;> simp

/-- In front of a token that has been found with the same kinds wanted at least this one is
skipped. -/
theorem skipLoop_faces {stop : TokenSet} {t : Token} {a : Skipped} (hf : s.Faces stop t)
    (ht : t.kind ≠ .eof) (hr : loop (skipStep stop) {} s = .ok (a, s')) : a.first ≠ none := by
  change iterate (skipStep stop) (s.remaining + 1) {} s = _ at hr
  unfold iterate at hr
  obtain ⟨⟨go, b⟩, s₁, hstep, hr⟩ := bind_ok hr
  have hb : go = true ∧ b.first ≠ none := by
    unfold skipStep at hstep
    obtain ⟨t', s₂, hpeek, hstep⟩ := bind_ok hstep
    obtain ⟨rfl, rfl⟩ := peek_ok hpeek
    rw [Session.peek_of_faces hf, if_neg (by simp [ht])] at hstep
    obtain ⟨ns, s₃, -, hstep⟩ := bind_ok hstep
    obtain ⟨hpair, -⟩ := pure_ok hstep
    cases hpair
    simp
  obtain ⟨rfl, hfirst⟩ := hb
  exact iterate_keeps (fun c _ => c.first ≠ none) (fun _ _ _ _ => skipStep_first) _ hfirst hr

/-- Unwanted tokens are complained about unless something is wrong with the first of them. -/
theorem wrapUp_run {extras ns : List Node} {a : Skipped} {t : Token} (hs : s.Sits cap text)
    (hr : wrapUp extras a t s = .ok (ns, s')) :
    Took cap text s [] s' ∧ (t.kind.isError ∨ s.faults < s'.faults) := by
  unfold wrapUp at hr
  split at hr
  · rename_i h
    obtain ⟨rfl, rfl⟩ := pure_ok hr
    exact ⟨.refl hs, .inl h.2.2⟩
  split at hr
  · obtain ⟨_, s₁, hcomplain, hr⟩ := bind_ok hr
    obtain ⟨n, s₂, hbranch, hr⟩ := bind_ok hr
    obtain ⟨rfl, rfl⟩ := pure_ok hr
    cases hbranch
    obtain ⟨htook, hlt⟩ := complain_run hs hcomplain
    exact ⟨htook, .inr hlt⟩
  · rename_i h
    obtain ⟨n, s₁, hbranch, hr⟩ := bind_ok hr
    obtain ⟨rfl, rfl⟩ := pure_ok hr
    cases hbranch
    exact ⟨.refl hs, .inl (by simpa using h)⟩

/-- Nothing is skipped without a complaint, and something is in front of a token. -/
theorem skip_run {stop : TokenSet} {ns : List Node} (hs : s.Sits cap text)
    (hr : skip stop s = .ok (ns, s')) :
    ∃ ts, Took cap text s ts s' ∧ (s'.faults = s.faults → ts = []
      ∧ ∀ t, s.Faces stop t → t.kind = .eof) := by
  rw [skip_eq] at hr
  obtain ⟨extras, s₁, hflush, hr⟩ := bind_ok hr
  obtain ⟨a, s₂, hloop, hr⟩ := bind_ok hr
  obtain ⟨-, us, hus, hnil⟩ := flush_takes (C := Anywhere) (fun _ h => h) _ _ _ hs trivial hflush
  have hstart : ({} : Skipped).Took cap text s₁ s₁ := ⟨⟨[], .refl hus.sits, fun _ => rfl⟩, nofun⟩
  obtain ⟨⟨ts, hts, hnone⟩, herror⟩ : a.Took cap text s₁ s₂ :=
    loop_keeps (Skipped.Took cap text s₁) (fun _ _ _ _ => skipStep_took) hstart hloop
  have hfirst := hus.faults
  have hsecond := hts.faults
  refine ⟨us ++ ts, ?_⟩
  cases hcase : a.first with
  | none =>
    rw [hcase] at hr
    obtain ⟨rfl, rfl⟩ := pure_ok hr
    refine ⟨hus.trans hts, fun hf => ⟨?_, fun t ht => ?_⟩⟩
    · rw [hnone hcase, List.append_nil]
      exact hnil (by omega)
    · cases hflush
      by_contra hne
      exact skipLoop_faces (s := s.takeExtras.2) ht hne hloop hcase
  | some t =>
    rw [hcase] at hr
    obtain ⟨htook, hfaulty⟩ := wrapUp_run hts.sits hr
    have hle := htook.faults
    have hlt : s.faults < s'.faults := by
      rcases hfaulty with herr | hcomplained
      · have := herror t hcase herr
        omega
      · omega
    have hall := (hus.trans hts).trans htook
    rw [List.append_nil] at hall
    exact ⟨hall, fun hf => absurd hf hlt.ne'⟩

theorem skip_takes (stop : TokenSet) :
    Takes cap text C (skip stop) (fun _ _ => True) Nothing := by
  intro s ns s' hs _ hr
  obtain ⟨ts, htook, hclean⟩ := skip_run hs hr
  exact ⟨trivial, ts, htook, fun hf => (hclean hf).1⟩

theorem skip_vain {stop : TokenSet} {t : Token} (ht : t.kind ≠ .eof) :
    Takes cap text (Faces stop t) (skip stop) (fun _ _ => True) fun _ _ => False := by
  intro s ns s' hs hfaces hr
  obtain ⟨ts, htook, hclean⟩ := skip_run hs hr
  exact ⟨trivial, ts, htook, fun hf => ht ((hclean hf).2 t hfaces)⟩

/-- The token that stands next is one of `first`. -/
def Offers (first : TokenSet) (s : Session) : Prop :=
  ∃ wanted t, (∀ k, first.contains k → wanted.contains k) ∧ s.Faces wanted t
    ∧ first.contains t.kind

theorem recoverTo_takes (sync first : TokenSet) :
    Takes cap text C (recoverTo sync first) (fun r s => r.1 → Offers first s) Nothing := by
  have hsub (k : Kind) (hk : first.contains k) : (first ∪ recoverSet sync first).contains k := by
    simp [hk]
  unfold recoverTo
  refine (peek_takes _).after fun t => ?_
  split
  · rename_i ht
    refine (pure_takes _).imp (fun _ h => h) ?_ fun _ _ h => h.2
    rintro r s ⟨rfl, hf⟩ -
    exact ⟨_, t, hsub, hf, ht⟩
  split
  · refine (pure_takes _).imp (fun _ h => h) ?_ fun _ _ h => h.2
    rintro r s ⟨rfl, -⟩ hr
    cases hr
  refine (skip_takes _).after fun skipped => (peek_takes _).after fun t => ?_
  refine (pure_takes _).imp (fun _ h => h) ?_ fun _ _ h => h.2
  rintro r s ⟨rfl, hf⟩ ht
  exact ⟨_, t, hsub, hf, ht⟩

theorem Offers.takes {first : TokenSet} {p : Parser α} {D : α → Session → Prop}
    {L : α → List Token → Prop}
    (h : ∀ wanted t, (∀ k, first.contains k → wanted.contains k) → first.contains t.kind →
      Takes cap text (Faces wanted t) p D L) : Takes cap text (Offers first) p D L := by
  rintro s a s' hs ⟨wanted, t, hsub, hf, ht⟩ hr
  exact h wanted t hsub ht s a s' hs hf hr

/-- Kinds of tokens in order, JSON values apart. -/
def Orderly (first : TokenSet) : Prop :=
  ∀ k, first.contains k → k.isProper ∧ k.isError = false ∧ k ≠ .jsonSpan

theorem Orderly.ofList {l : List Kind}
    (h : ∀ k ∈ l, k.isProper ∧ k.isError = false ∧ k ≠ .jsonSpan) : Orderly (.ofList l) :=
  fun k hk => h k (TokenSet.mem_of_contains (fun j hj => (h j hj).2.1) hk)

theorem ambient_keyword (w : Keyword) : TokenSet.ambient.contains (.keyword w) = false := by
  cases w <;> decide

/-- A token that is one of `first` is found again when only those are wanted. -/
theorem Session.look_again {first wanted : TokenSet} {p : Lexer.Stand} {la la' : Lookahead}
    (hfirst : Orderly first) (hp : p.Sound cap) (hla : la.Reads cap p)
    (hv : la.valid = wanted ∪ .ambient) (hsub : ∀ k, first.contains k → wanted.contains k)
    (ht : first.contains la.scanned.token.kind) (hla' : la'.Reads cap p)
    (hv' : la'.valid = first ∪ .ambient) :
    la'.scanned.token.kind = la.scanned.token.kind := by
  obtain ⟨hproper, herror, -⟩ := hfirst _ ht
  have hjson : (first ∪ TokenSet.ambient).contains .jsonSpan = false := by
    rw [TokenSet.contains_union, show TokenSet.ambient.contains .jsonSpan = false by decide,
      Bool.or_false]
    by_contra hc
    exact (hfirst .jsonSpan (by simpa using hc)).2.2 rfl
  have hwords : Lexer.KeepsWords la.scanned.valid (first ∪ .ambient) := by
    intro w hw
    rw [TokenSet.contains_union, ambient_keyword, Bool.or_false] at hw
    rcases hla.choice with hc | ⟨-, hc⟩
    · rw [hc, hv, TokenSet.contains_union, hsub _ hw]
      rfl
    · rw [hc, TokenSet.contains_lexical]
      rfl
  obtain ⟨u, hu, hkind⟩ := Lexer.Stand.token?_narrow hp hla.token hwords hjson
    (by simp [ht]) hproper
    herror
  rcases hla'.choice with hc | ⟨hnone, -⟩
  · have h := hla'.token
    rw [hc, hv', hu, Option.some.injEq] at h
    rw [← h, hkind]
  · rw [hv', hu] at hnone
    cases hnone

theorem peek_offers {first : TokenSet} (hfirst : Orderly first) :
    Takes cap text (Offers first) (peek first)
      (fun t s => s.Faces first t ∧ first.contains t.kind) Nothing := by
  intro s t s' hs hoffers hr
  obtain ⟨hf, ts, htook, hnil⟩ := peek_takes (C := Anywhere) first s t s' hs trivial hr
  refine ⟨⟨hf, ?_⟩, ts, htook, hnil⟩
  obtain ⟨wanted, u, hsub, ⟨la, hla, hv, rfl⟩, hu⟩ := hoffers
  obtain ⟨p, hp⟩ := hs.stands
  obtain ⟨la', -, hv', htoken, hreads, -⟩ :=
    Session.peek_stays hp (hs.plain (by simp [hla])) first
  obtain ⟨rfl, -⟩ := peek_ok hr
  rw [← htoken, Session.look_again hfirst hp.sound (hp.lookahead la hla) hv hsub hu hreads hv']
  exact hu

/-- One token of a kind. -/
def One (kind : Kind) (ts : List Token) : Prop :=
  ∃ t, ts = [t] ∧ t.kind = kind

theorem expectAs?_takes (sync : TokenSet) {want : Kind} (kind : NodeKind) (field : Option String)
    (hwant : want.isMeant) :
    Takes cap text C (expectAs? sync want kind field) (fun _ _ => True)
      fun r ts => r.1 = true ∧ One want ts := by
  obtain ⟨hne, herror⟩ := Kind.isMeant_iff.1 hwant
  unfold expectAs?
  refine (recoverTo_takes _ _).after ?_
  rintro ⟨found, skipped⟩
  cases found with
  | true =>
    have htaken : Takes cap text (Offers (.single want)) (do
        let extras ← flush
        return (true, skipped ++ extras ++ [(← leaf kind).label field])) (fun _ _ => True)
        fun r ts => r.1 = true ∧ One want ts := by
      refine Offers.takes fun wanted t _ ht => ?_
      obtain rfl := TokenSet.eq_of_contains_single herror ht
      refine flush_faces.after fun extras => (leaf_takes kind hne).bind (fun n => pure_any _) ?_
      rintro n r ts us ⟨rfl, -⟩ ⟨rfl, rfl⟩
      exact ⟨rfl, t, rfl, rfl⟩
    exact htaken.imp (fun s h => h rfl) (fun _ _ h => h) fun _ _ h => h
  | false =>
    exact missing_vain fun n => (pure_any _).imp (fun _ h => h) (fun _ _ h => h)
      fun _ _ _ => trivial

theorem expect?_takes (sync : TokenSet) {want : Kind} (field : Option String)
    (hwant : want.isMeant) :
    Takes cap text C (expect? sync want field) (fun _ _ => True)
      fun r ts => r.1 = true ∧ One want ts :=
  expectAs?_takes sync _ field hwant

theorem expect_spends (sync : TokenSet) {want : Kind} (field : Option String)
    (hwant : want.isMeant) :
    Spends cap text C (expect sync want field) (One want) := by
  unfold expect
  refine (expect?_takes sync field hwant).bind (fun r => pure_spends _) ?_
  rintro r _ ts us ⟨-, h⟩ rfl
  rwa [List.append_nil]

/-! ## Elements -/

theorem progress_takes {element : Parser α} {stop : TokenSet} {k : α → List Node → Parser β}
    {L : List Token → Prop} {N : β → List Token → Prop} {E : β → Session → Prop}
    (h : Spends cap text C element L)
    (hk : ∀ a skipped,
      Takes cap text Anywhere (k a skipped) E fun b us => us = [] ∧ ∀ ts, L ts → N b ts) :
    Takes cap text C (progress stop element k) E N := by
  refine get_takes.after fun t => ?_
  have hitem := h.imp (fun s (hs : t = s ∧ C s) => hs.2) (fun _ _ h => h) fun _ _ h => h
  refine hitem.bind (M := fun _ b us => us = [] ∧ ∀ ts, L ts → N b ts) (fun a => ?_) ?_
  · refine get_takes.after fun t' => ?_
    dsimp only
    split
    · exact (skip_takes _).after fun skipped => (hk a skipped).anywhere
    · exact (pure_nothing _).after fun skipped => (hk a skipped).anywhere
  · rintro a b ts us hl ⟨rfl, hn⟩
    rw [List.append_nil]
    exact hn ts hl

/-- An element of a body or a file takes what it is made of. -/
theorem addItem_takes {stop wanted : TokenSet} {t : Token} {element : Parser Node}
    {nodes : Array Node} {L : List Token → Prop} (h : Spends cap text (Faces wanted t) element L) :
    Takes cap text (Faces wanted t) (addItem stop element nodes) (fun _ _ => True)
      fun r us => r.1 = true ∧ L us := by
  refine flush_faces.after fun extras => progress_takes h fun item skipped =>
    (pure_any _).imp (fun _ h => h) (fun _ _ h => h) ?_
  rintro r us ⟨rfl, rfl⟩
  exact ⟨rfl, fun ts hts => ⟨rfl, hts⟩⟩

/-! ## Lists -/

/-- Elements with commas between them. -/
inductive Separated (L : List Token → Prop) : List Token → Prop
  | one {ts : List Token} (h : L ts) : Separated L ts
  | more {ts us : List Token} {comma : Token} (h : Separated L ts)
      (hc : comma.kind = .punct .comma) (hu : L us) : Separated L (ts ++ [comma] ++ us)

/-- Elements with commas between them up to the closing mark, where there may be one more comma
if `trailing` says so. -/
inductive Listed (close : Punct) (trailing : Bool) (L : List Token → Prop) : List Token → Prop
  | empty {t : Token} (ht : t.kind = .punct close) : Listed close trailing L [t]
  | plain {ts : List Token} {t : Token} (h : Separated L ts) (ht : t.kind = .punct close) :
      Listed close trailing L (ts ++ [t])
  | trailing {ts : List Token} {comma t : Token} (htrailing : trailing) (h : Separated L ts)
      (hc : comma.kind = .punct .comma) (ht : t.kind = .punct close) :
      Listed close trailing L (ts ++ [comma] ++ [t])

theorem Separated.imp {L M : List Token → Prop} (hL : ∀ ts, L ts → M ts) {ts : List Token}
    (h : Separated L ts) : Separated M ts := by
  induction h with
  | one h => exact .one (hL _ h)
  | more _ hc hu ih => exact .more ih hc (hL _ hu)

theorem Listed.imp {close : Punct} {trailing : Bool} {L M : List Token → Prop}
    (hL : ∀ ts, L ts → M ts) {ts : List Token} (h : Listed close trailing L ts) :
    Listed close trailing M ts := by
  cases h with
  | empty ht => exact .empty ht
  | plain h ht => exact .plain (h.imp hL) ht
  | trailing htrailing h hc ht => exact .trailing htrailing (h.imp hL) hc ht

/-- How the tokens of a list have been read so far. -/
def Items.Reads (L : List Token → Prop) (a : Items) (ts : List Token) : Prop :=
  if a.wantsItem then
    a.count = 0 ∧ ts = [] ∨ 0 < a.count ∧ ∃ us comma, ts = us ++ [comma] ∧ Separated L us
      ∧ comma.kind = .punct .comma
  else 0 < a.count ∧ Separated L ts

/-- A comma that the closing mark would make an error is among the nodes. -/
def Items.HasComma (a : Items) : Prop :=
  a.wantsItem → 0 < a.count → ∃ i, a.lastComma = some i ∧ i < a.nodes.size

theorem rejectComma_takes {a : Items} (ha : a.HasComma) (hw : a.wantsItem) (hn : 0 < a.count)
    {wanted : TokenSet} {t : Token} :
    Takes cap text (Faces wanted t) a.rejectComma (fun _ => Faces wanted t) fun _ _ => False := by
  obtain ⟨i, hi, hlt⟩ := ha hw hn
  unfold Items.rejectComma
  simp only [hi, Option.bind_some, Array.getElem?_eq_getElem hlt, Option.map_some]
  exact (complain_takes fun _ h => h).before fun _ => pure_nothing _

theorem size_appendList (nodes : Array Node) (ns : List Node) :
    (nodes ++ ns).size = nodes.size + ns.length := by
  rw [← Array.length_toList, Array.toList_appendList, List.length_append, Array.length_toList]

section ListStep

variable {L : List Token → Prop} {a : Items} {ts : List Token} {t : Token}

/-- What a list has read when its closing mark comes. -/
theorem Items.Reads.close {form : ListForm} (h : a.Reads L ts) (ht : t.kind = .punct form.close)
    (ha : (a.wantsItem && decide (0 < a.count) && !form.trailing) = false) :
    Listed form.close form.trailing L (ts ++ [t]) := by
  unfold Items.Reads at h
  split at h
  · rename_i hw
    rcases h with ⟨-, rfl⟩ | ⟨hn, us, comma, rfl, hus, hcomma⟩
    · exact .empty ht
    · exact .trailing (by simpa [hw, hn] using ha) hus hcomma ht
  · exact .plain h.2 ht

/-- What a list has read when an element comes where one is wanted. -/
theorem Items.Reads.item {us : List Token} (h : a.Reads L ts) (hw : a.wantsItem) (hus : L us) :
    Separated L (ts ++ us) := by
  unfold Items.Reads at h
  rw [if_pos hw] at h
  rcases h with ⟨-, rfl⟩ | ⟨-, vs, comma, rfl, hvs, hcomma⟩
  · exact .one hus
  · exact .more hvs hcomma hus

theorem listClose_takes {form : ListForm} {nodes : Array Node} {wanted : TokenSet}
    (ht : t.kind = .punct form.close) :
    Takes cap text (Faces wanted t) (listClose form a nodes) (fun r _ => r.1 → r.2.HasComma)
      fun r us => r.1 = false ∧ us = [t] :=
  (bump_takes _ _ (by simp [ht])).ret (fun _ _ _ => nofun) fun _ _ h => ⟨rfl, h.1⟩

theorem listItem_takes {stop wanted : TokenSet} {element : Parser (List Node)}
    {comma : List Node} (h : Spends cap text (Faces wanted t) element L) :
    Takes cap text (Faces wanted t) (listItem stop element a comma) (fun r _ => r.1 → r.2.HasComma)
      fun r us => L us ∧ r.1 = true ∧ r.2.wantsItem = false ∧ 0 < r.2.count := by
  rw [listItem_eq]
  refine flush_faces.after fun extras => progress_takes h fun item skipped =>
    (pure_takes _).imp (fun _ h => h) ?_ ?_
  · rintro r s ⟨rfl, -⟩ - hw
    cases hw
  · rintro r us ⟨rfl, rfl⟩
    exact ⟨rfl, fun ts hts => ⟨hts, rfl, rfl, Nat.succ_pos _⟩⟩

theorem listStep_takes {sync : TokenSet} {form : ListForm} {element : Parser (List Node)}
    (h : Spends cap text (Offers form.first) element L) (hne : ∀ ts, L ts → ts ≠ [])
    (ha : a.HasComma) :
    Takes cap text Anywhere (listStep sync form element a) (fun r _ => r.1 → r.2.HasComma)
      fun r us => ∀ ts, a.Reads L ts →
        if r.1 then us ≠ [] ∧ r.2.Reads L (ts ++ us)
          else Listed form.close form.trailing L (ts ++ us) := by
  have hsub (k : Kind) (hk : form.first.contains k) : (form.continues ∪ sync).contains k := by
    simp [ListForm.continues, hk]
  rw [listStep_eq]
  refine (peek_takes _).after fun t => ?_
  split
  · rename_i hclose
    split
    · rename_i hc
      simp only [Bool.and_eq_true, decide_eq_true_eq] at hc
      exact (rejectComma_takes ha hc.1.1 hc.1.2).bind (fun _ => listClose_takes hclose)
        fun _ _ _ _ hf => hf.elim
    · rename_i hc
      refine (listClose_takes hclose).imp (fun _ h => h) (fun _ _ h => h) ?_
      rintro r us ⟨hr, rfl⟩ ts hts
      rw [hr]
      exact hts.close hclose (by simpa using hc)
  split
  · rename_i hclose ht
    have helement : Spends cap text (Faces (form.continues ∪ sync) t) element L :=
      h.imp (fun s hs => ⟨_, t, hsub, hs, ht⟩) (fun _ _ h => h) fun _ _ h => h
    split
    · rename_i hw
      refine (listItem_takes helement).imp (fun _ h => h) (fun _ _ h => h) ?_
      rintro r us ⟨hus, hr, hwants, hcount⟩ ts hts
      rw [hr]
      refine ⟨hne us hus, ?_⟩
      rw [Items.Reads, hwants]
      exact ⟨hcount, hts.item hw hus⟩
    · exact (missing_takes fun _ _ h => h).bind (fun n => listItem_takes helement)
        fun _ _ _ _ hf => hf.elim
  split
  · rename_i hcomma
    refine (bump_takes _ _ (by simp [hcomma.1])).ret (fun ns s hns _ _ _ => ?_) ?_
    · have := List.length_pos_iff.2 hns
      exact ⟨_, rfl, by simp only [size_appendList]; omega⟩
    · rintro ns us ⟨rfl, -⟩ ts hts
      have hw : a.wantsItem = false := by simpa using hcomma.2
      rw [Items.Reads, hw] at hts
      exact ⟨by simp, .inr ⟨hts.1, ts, t, rfl, hts.2, hcomma.1⟩⟩
  split
  · refine Takes.vain (Takes.ret (missing_takes fun _ _ h => h) (fun _ _ _ => nofun) fun _ _ h => h)
  · rename_i hstop
    refine Takes.vain ((skip_vain fun he => hstop (.inl he)).ret (fun ns s _ _ hw hn => ?_)
      fun _ _ h => h)
    obtain ⟨i, hi, hlt⟩ := ha hw hn
    exact ⟨i, hi, by simp only [size_appendList]; omega⟩

theorem list_spends {sync : TokenSet} {form : ListForm} {element : TokenSet → Parser (List Node)}
    (h : ∀ sync, Spends cap text (Offers form.first) (element sync) L)
    (hne : ∀ ts, L ts → ts ≠ []) :
    Spends cap text C (list sync form element) (Listed form.close form.trailing L) := by
  unfold list
  refine Takes.before (loop_takes Items.HasComma (Items.Reads L)
    (fun _ => Listed form.close form.trailing L)
    (fun a ha => listStep_takes (h _) hne ha) nofun ?_) fun _ => pure_spends _
  exact .inl ⟨rfl, rfl⟩

end ListStep

end Parser

end Parse

end AvroTree
