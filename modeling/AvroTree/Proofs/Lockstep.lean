import AvroTree.Parse.Parser
import AvroTree.Proofs.Sessions

/-!
# Sessions in step

Two sessions on one text are alike when they differ only in the old tokens they may take over and
in what they have counted or examined. Whatever is done to both keeps them alike and gives the same
answers (`Parser.Steady`), because neither old tokens nor counts have a say in what comes next.
-/

namespace AvroTree

open Lexer (Stand)

namespace Parse

/-- What a parse can learn from a next token. -/
def Lookahead.view (la : Lookahead) : Lookahead :=
  { la with cursor := la.cursor.beginScan, reused := false }

/-- What a parse can learn from a session. -/
def Session.view (s : Session) : Session :=
  { s with
    cursor := s.cursor.beginScan
    lookahead := s.lookahead.map Lookahead.view
    previous := none
    reused := 0 }

namespace Session

structure Alike (cap : Nat) (text : List Char) (s t : Session) : Prop where
  view : s.view = t.view
  stands : ∃ p, s.Stands cap text p ∧ t.Stands cap text p

namespace Alike

variable {cap : Nat} {text : List Char} {s t : Session}

/-- What can be learned from a view is the same for both. -/
theorem learn {α : Type} (h : Alike cap text s t) (f : Session → α) (hf : ∀ u, f u.view = f u) :
    f s = f t := by
  rw [← hf s, ← hf t, h.view]

/-- Changes to what plays no part in finding tokens keep sessions alike. -/
theorem update {f g : Session → Session} (h : Alike cap text s t)
    (hview : ∀ u, (f u).view = g u.view)
    (hstands : ∀ u p, u.Stands cap text p → (f u).Stands cap text p) :
    Alike cap text (f s) (f t) := by
  obtain ⟨p, hs, ht⟩ := h.stands
  refine ⟨?_, p, hstands s p hs, hstands t p ht⟩
  rw [hview, hview t, h.view]

end Alike

section Moves

variable {cap : Nat} {text : List Char} {s t : Session} {p : Stand} {la lb : Lookahead}

/-- Both find the same next token, also where one of them takes over an old one. -/
theorem scan_view (hs : s.Stands cap text p) (ht : t.Stands cap text p) (valid : TokenSet) :
    (s.scan valid).view = (t.scan valid).view := by
  obtain ⟨hr, hv⟩ := scan_reads hs valid
  obtain ⟨hr', hv'⟩ := scan_reads ht valid
  obtain ⟨hscanned, hstate, hcursor⟩ := hr.unique hr' (hv.trans hv'.symm)
  rw [Lookahead.view, Lookahead.view, hscanned, hstate, hcursor, hv, hv']

theorem commit_view (s : Session) (la : Lookahead) :
    (s.commit la).view = (s.view.commit la.view).view := rfl

theorem view_scanned (h : la.view = lb.view) : la.scanned = lb.scanned :=
  (congrArg Lookahead.scanned h :)

theorem Alike.commit (h : Alike cap text s t) (hv : la.view = lb.view)
    (hr : ∀ p, s.Stands cap text p → la.Reads cap p)
    (hr' : ∀ p, t.Stands cap text p → lb.Reads cap p) :
    Alike cap text (s.commit la) (t.commit lb) := by
  obtain ⟨p, hs, ht⟩ := h.stands
  refine ⟨?_, _, hs.commit (hr p hs), ?_⟩
  · rw [commit_view, commit_view t, h.view, hv]
  · have hc := ht.commit (hr' p ht)
    rwa [← view_scanned hv] at hc

theorem Alike.look (h : Alike cap text s t) (valid : TokenSet) :
    Alike cap text (s.look valid) (t.look valid) := by
  obtain ⟨p, hs, ht⟩ := h.stands
  refine ⟨?_, p, hs.look valid, ht.look valid⟩
  show ({ s.view with lookahead := some (s.scan valid).view } : Session)
    = { t.view with lookahead := some (t.scan valid).view }
  rw [h.view, scan_view hs ht valid]

theorem takeComment_view (s : Session) (valid : TokenSet) : (s.takeComment valid).view =
    { (s.commit (s.scan valid)).view with
      extras := (s.commit (s.scan valid)).extras.push
        (.leaf (.ofToken (s.scan valid).scanned.token.kind) (s.scan valid).scanned.token) } := rfl

theorem Alike.takeComment (h : Alike cap text s t) (valid : TokenSet) :
    Alike cap text (s.takeComment valid) (t.takeComment valid) := by
  obtain ⟨p, hs, ht⟩ := h.stands
  have hv := scan_view hs ht valid
  have hc : Alike cap text (s.commit (s.scan valid)) (t.commit (t.scan valid)) :=
    h.commit hv (fun q hq => (scan_reads hq valid).1) fun q hq => (scan_reads hq valid).1
  obtain ⟨q, hsq, htq⟩ := hc.stands
  refine ⟨?_, q, hsq.withExtras _, htq.withExtras _⟩
  rw [takeComment_view, takeComment_view, hc.view, hc.learn extras fun _ => rfl, view_scanned hv]

theorem fetch_alike (valid : TokenSet) : ∀ (n : Nat) {s t : Session}, Alike cap text s t →
    (fetch valid n s).1 = (fetch valid n t).1
      ∧ Alike cap text (fetch valid n s).2 (fetch valid n t).2
  | n, s, t, h => by
    obtain ⟨p, hs, ht⟩ := h.stands
    have hscanned := view_scanned (scan_view hs ht valid)
    cases hk : (s.scan valid).scanned.token.kind.isExtra with
    | false =>
      rw [fetch_of_not hk, fetch_of_not (hscanned ▸ hk), hscanned]
      exact ⟨rfl, h.look valid⟩
    | true =>
      cases n with
      | zero =>
        rw [fetch_zero, fetch_zero, hscanned]
        exact ⟨rfl, h.look valid⟩
      | succ n =>
        rw [fetch_succ hk, fetch_succ (hscanned ▸ hk)]
        exact fetch_alike valid n (h.takeComment valid)

/-- Neither session has found its next token, or both have found the same. -/
theorem Alike.lookahead (h : Alike cap text s t) :
    (s.lookahead = none ∧ t.lookahead = none)
      ∨ ∃ la lb, s.lookahead = some la ∧ t.lookahead = some lb ∧ la.view = lb.view := by
  have hl : s.lookahead.map Lookahead.view = t.lookahead.map Lookahead.view :=
    h.learn (fun u => u.lookahead.map Lookahead.view) fun u => by
      simp only [Session.view, Option.map_map]
      rfl
  cases hs : s.lookahead with
  | none =>
    rw [hs, Option.map_none, eq_comm, Option.map_eq_none_iff] at hl
    exact .inl ⟨rfl, hl⟩
  | some la =>
    rw [hs, Option.map_some, eq_comm, Option.map_eq_some_iff] at hl
    obtain ⟨lb, hlb, hv⟩ := hl
    exact .inr ⟨la, lb, rfl, hlb, hv.symm⟩

theorem peek_alike (h : Alike cap text s t) (valid : TokenSet) :
    (s.peek valid).1 = (t.peek valid).1 ∧ Alike cap text (s.peek valid).2 (t.peek valid).2 := by
  have hfetch := fetch_alike (valid ∪ .ambient) t.remaining h
  rw [peek, peek, h.learn remaining fun _ => rfl]
  rcases h.lookahead with ⟨hs, ht⟩ | ⟨la, lb, hs, ht, hv⟩
  · rw [hs, ht]
    exact hfetch
  · have hvalid : la.valid = lb.valid := (congrArg Lookahead.valid hv :)
    rw [hs, ht]
    simp only [hvalid, view_scanned hv]
    split
    · exact ⟨rfl, h⟩
    · exact hfetch

theorem Alike.commitNext (h : Alike cap text s t) (hs : s.lookahead = some la)
    (ht : t.lookahead = some lb) (hv : la.view = lb.view) :
    Alike cap text (s.commit la) (t.commit lb) :=
  h.commit hv (fun _ hp => hp.lookahead la hs) fun _ hp => hp.lookahead lb ht

theorem bump_alike (h : Alike cap text s t) :
    s.bump.1 = t.bump.1 ∧ Alike cap text s.bump.2 t.bump.2 := by
  rw [bump, bump]
  rcases h.lookahead with ⟨hs, ht⟩ | ⟨la, lb, hs, ht, hv⟩
  · obtain ⟨htoken, hpeek⟩ := peek_alike h .lexical
    rw [hs, ht]
    simp only [htoken]
    rcases hpeek.lookahead with ⟨hs', ht'⟩ | ⟨la, lb, hs', ht', hv⟩
    · rw [hs', ht']
      exact ⟨rfl, hpeek⟩
    · rw [hs', ht']
      exact ⟨rfl, hpeek.commitNext hs' ht' hv⟩
  · rw [hs, ht]
    exact ⟨congrArg Scanned.token (view_scanned hv), h.commitNext hs ht hv⟩

theorem takeExtras_alike (h : Alike cap text s t) :
    s.takeExtras.1 = t.takeExtras.1 ∧ Alike cap text s.takeExtras.2 t.takeExtras.2 := by
  refine ⟨h.learn (fun u => u.takeExtras.1) fun _ => rfl,
    h.update (f := fun u => u.takeExtras.2) (g := fun u => u.takeExtras.2) (fun _ => rfl)
      fun u p hu => ?_⟩
  exact ⟨hu.cap_eq, hu.state, hu.sound, hu.append, hu.cursor, hu.log, hu.lookahead, hu.previous⟩

end Moves

end Session

namespace Parser

open Session (Alike)

variable {α β γ : Type}

/-- Two outcomes in step: the same failure, or the same result and sessions that are alike. -/
inductive Same (cap : Nat) (text : List Char) :
    Except Diagnostic (α × Session) → Except Diagnostic (α × Session) → Prop
  | error (d : Diagnostic) : Same cap text (.error d) (.error d)
  | ok (a : α) {s t : Session} (h : Alike cap text s t) : Same cap text (.ok (a, s)) (.ok (a, t))

/-- From sessions that are alike the parser gives outcomes in step. -/
def Steady (p : Parser α) : Prop :=
  ∀ cap text s t, Alike cap text s t → Same cap text (p s) (p t)

namespace Steady

theorem pure (a : α) : Steady (pure a : Parser α) :=
  fun _ _ _ _ h => .ok a h

theorem bind {p : Parser α} {f : α → Parser β} (hp : Steady p) (hf : ∀ a, Steady (f a)) :
    Steady (p >>= f) := by
  intro cap text s t h
  show Same cap text ((p s).bind fun r => f r.1 r.2) ((p t).bind fun r => f r.1 r.2)
  generalize hs : p s = rs
  generalize ht : p t = rt
  have hst := hp cap text s t h
  rw [hs, ht] at hst
  cases hst with
  | error d => exact .error d
  | ok a h' => exact hf a cap text _ _ h'

theorem ite {c : Prop} [Decidable c] {p q : Parser α} (hp : Steady p) (hq : Steady q) :
    Steady (if c then p else q) := by
  split
  · exact hp
  · exact hq

/-- Looking at what both sessions show. -/
theorem ask (g : Session → γ) (hg : ∀ {cap text s t}, Alike cap text s t → g s = g t)
    {k : γ → Parser α} (hk : ∀ c, Steady (k c)) : Steady (do k (g (← get))) := by
  intro cap text s t h
  show Same cap text (k (g s) s) (k (g t) t)
  rw [hg h]
  exact hk _ cap text s t h

/-- A change that both sessions make in step. -/
theorem change {f : Session → α × Session}
    (hf : ∀ {cap text s t}, Alike cap text s t →
      (f s).1 = (f t).1 ∧ Alike cap text (f s).2 (f t).2) :
    Steady (modifyGet f) := by
  intro cap text s t h
  obtain ⟨heq, halike⟩ := hf h
  show Same cap text (.ok (f s)) (.ok (f t))
  rw [← Prod.eta (f s), ← Prod.eta (f t), heq]
  exact .ok _ halike

/-- A steady parser leaves the session standing in its text. -/
theorem stands {p : Parser α} (hp : Steady p) {cap : Nat} {text : List Char} {s s' : Session}
    {q : Stand}
    {a : α} (h : s.Stands cap text q) (hr : p s = .ok (a, s')) : ∃ q', s'.Stands cap text q' := by
  have hsame := hp cap text s s ⟨rfl, q, h, h⟩
  rw [hr] at hsame
  cases hsame with
  | ok _ halike =>
    obtain ⟨q', hq, -⟩ := halike.stands
    exact ⟨q', hq⟩

end Steady

/-! ## Moves in step -/

theorem tooDeep_steady (place : Location) : Steady (tooDeep place : Parser α) := by
  refine .ask Session.maxDepth (fun h => h.learn _ fun _ => rfl) (k := fun n => throw
    (.resourceLimit s!"nesting is deeper than {n} levels" place)) fun n => ?_
  exact fun _ _ _ _ _ => .error _

theorem peek_run (valid : TokenSet) (s : Session) : peek valid s =
    ((if (s.peek valid).1.kind = .error .depthExceeded then
        tooDeep (s.peek valid).1.span.start >>= fun (_ : PUnit) => Pure.pure (s.peek valid).1
      else Pure.pure (s.peek valid).1) : Parser Token) (s.peek valid).2 := rfl

theorem peek_steady (valid : TokenSet) : Steady (peek valid) := by
  intro cap text s t h
  obtain ⟨htoken, hpeek⟩ := Session.peek_alike h valid
  rw [peek_run, peek_run, htoken]
  exact Steady.ite (.bind (tooDeep_steady _) fun _ => .pure _) (.pure _) cap text _ _ hpeek

theorem flush_steady : Steady flush :=
  .change fun h => Session.takeExtras_alike h

theorem leaf_steady (kind : NodeKind) : Steady (leaf kind) :=
  .bind (.change fun h => Session.bump_alike h) fun _ => .pure _

theorem complain_steady (d : Diagnostic) : Steady (complain d) := by
  refine .change fun h => ⟨rfl, ?_⟩
  refine h.update (f := fun u => { u with syntactic := u.syntactic.push d })
    (g := fun u => { u with syntactic := u.syntactic.push d }) (fun _ => rfl) fun u p hu => ?_
  exact ⟨hu.cap_eq, hu.state, hu.sound, hu.append, hu.cursor, hu.log, hu.lookahead, hu.previous⟩

end Parser

end Parse

end AvroTree
