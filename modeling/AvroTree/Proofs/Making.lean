import AvroTree.Proofs.Elements
import AvroTree.Proofs.Growth
import AvroTree.Proofs.Lockstep

/-!
# What parsers make

A parser that succeeds has made nodes of the tokens it has taken (`Makes`). A successful run is
taken apart at its binds (`bind_ok`), and what its parts have made is put together in the order of
the text (`Session.Grew.trans`). Some parsers rely on the token that stands next: taking it needs
one that is no comment (`Session.Faced`), and one without the comments in front of it needs those
to be in their place already (`Session.Ready`).
-/

namespace AvroTree

open Location (Within)

namespace Parse

open Session (Grew Ordered Faced Ready Shows)

/-- Nothing is asked of the token that stands next. -/
def Session.Anywhere (_ : Session) : Prop :=
  True

namespace Parser

variable {α β : Type} {cap : Nat} {text : List Char} {s s' o : Session}

/-! ## Taking a run apart -/

theorem bind_ok {p : Parser α} {f : α → Parser β} {b : β} (h : (p >>= f) s = .ok (b, s')) :
    ∃ a t, p s = .ok (a, t) ∧ f a t = .ok (b, s') := by
  change (p s).bind (fun r => f r.1 r.2) = _ at h
  cases hp : p s with
  | error d =>
    rw [hp] at h
    cases h
  | ok r =>
    rw [hp] at h
    exact ⟨r.1, r.2, rfl, h⟩

theorem pure_ok {a b : α} (h : (pure a : Parser α) s = .ok (b, s')) : b = a ∧ s = s' := by
  cases h
  exact ⟨rfl, rfl⟩

theorem get_ok {t : Session} (h : (get : Parser Session) s = .ok (t, s')) : s = t ∧ s = s' := by
  cases h
  exact ⟨rfl, rfl⟩

/-- What is done with an element: what is skipped when it has taken no token goes with it. -/
theorem progress_run {element : Parser α} {stop : TokenSet} {next : α → List Node → Parser β}
    {b : β} (h : progress stop element next s = .ok (b, s')) :
    ∃ a t, element s = .ok (a, t) ∧ (if t.cursor.place.byte = s.cursor.place.byte then
      skip stop >>= next a else next a []) t = .ok (b, s') :=
  bind_ok (p := element) h

/-- A run by the name of its parser, whose cases can then be looked at one by one. -/
theorem named_ok {p : Parser α} {a : α} (h : p s = .ok (a, s')) :
    ∃ q, q = p ∧ q s = .ok (a, s') :=
  ⟨p, rfl, h⟩

theorem tooDeep_ok {place : Location} {a : α} (h : tooDeep place s = .ok (a, s')) : False := by
  cases h

/-- From a session in order in which `C` holds the parser leads to one in order, and has made the
nodes `out` of its result on the way. -/
def Makes (C : Session → Prop) (p : Parser α) (out : α → List Node) : Prop :=
  ∀ cap text s a s', s.Ordered cap text → C s → p s = .ok (a, s') → Grew cap text s (out a) s'

theorem Makes.grew {C : Session → Prop} {p : Parser α} {out : α → List Node} {a : α}
    (h : Makes C p out) (hs : s.Ordered cap text) (hc : C s) (hr : p s = .ok (a, s')) :
    Grew cap text s (out a) s' :=
  h cap text s a s' hs hc hr

/-- What a parser makes comes behind what has been made before. -/
theorem Makes.after {C : Session → Prop} {p : Parser α} {out : α → List Node} {a : α}
    {ns : List Node} (h : Makes C p out) (ho : Grew cap text o ns s) (hc : C s)
    (hr : p s = .ok (a, s')) : Grew cap text o (ns ++ out a) s' :=
  ho.trans (h.grew ho.ordered hc hr)

/-- What a parser makes from few sessions it makes from fewer. -/
theorem Makes.mono {C D : Session → Prop} {p : Parser α} {out : α → List Node} (h : Makes C p out)
    (hD : ∀ s, D s → C s) : Makes D p out :=
  fun _ _ _ _ _ hs hd hr => h.grew hs (hD _ hd) hr

/-- A node by itself, as a list. -/
theorem Makes.single {C : Session → Prop} {p : Parser Node} (h : Makes C p fun n => [n]) :
    Makes C (do return [← p]) id := by
  intro cap text s ns s' hs hc hr
  obtain ⟨n, s₁, hn, hr⟩ := bind_ok hr
  obtain ⟨rfl, rfl⟩ := pure_ok hr
  exact h.grew hs hc hn

theorem Makes.label {C : Session → Prop} {p : Parser Node} (h : Makes C p fun n => [n])
    (field : Option String) : Makes C p fun n => [n.label field] :=
  fun _ _ _ _ _ hs hc hr => (h.grew hs hc hr).label field

/-- What two parsers make one behind the other. -/
theorem Makes.append {C : Session → Prop} {p q : Parser (List Node)} (hp : Makes C p id)
    (hq : Makes Session.Anywhere q id) : Makes C (do
      let ns ← p
      return ns ++ (← q)) id := by
  intro cap text s ns s' hs hc hr
  obtain ⟨front, s₁, hfront, hr⟩ := bind_ok hr
  obtain ⟨back, s₂, hback, hr⟩ := bind_ok hr
  obtain ⟨rfl, rfl⟩ := pure_ok hr
  exact hq.after (hp.grew hs hc hfront) trivial hback

theorem nothing_makes {C : Session → Prop} : Makes C (pure []) id := by
  intro cap text s ns s' hs _ hr
  obtain ⟨rfl, rfl⟩ := pure_ok hr
  exact .refl hs

/-- Something that may be left out. -/
theorem optional_makes {C : Session → Prop} {p : Parser (List Node)} (h : Makes C p id) (c : Prop)
    [Decidable c] : Makes C (if c then p else pure []) id := by
  split
  · exact h
  · exact nothing_makes

/-! ## Single moves -/

theorem peek_ok {valid : TokenSet} {t : Token} (hr : peek valid s = .ok (t, s')) :
    t = (s.peek valid).1 ∧ (s.peek valid).2 = s' := by
  rw [peek_run] at hr
  split at hr
  · obtain ⟨_, _, hr, -⟩ := bind_ok hr
    exact (tooDeep_ok hr).elim
  · exact pure_ok hr

theorem peek_shows {valid : TokenSet} {t : Token} (hs : s.Ordered cap text)
    (hr : peek valid s = .ok (t, s')) : Grew cap text s [] s' ∧ s'.Shows text t := by
  obtain ⟨rfl, rfl⟩ := peek_ok hr
  exact Session.peek_grew hs valid

theorem peek_faced {valid : TokenSet} {t : Token} (hs : s.Ordered cap text) (hf : s.Faced)
    (hr : peek valid s = .ok (t, s')) : s'.Faced ∧ s'.extras = s.extras := by
  obtain ⟨-, rfl⟩ := peek_ok hr
  obtain ⟨hcursor, hextras⟩ := Session.peek_keeps hs hf.1 valid
  exact ⟨hf.of_cursor hcursor, hextras⟩

theorem peek_ready {valid : TokenSet} {t : Token} (hs : s.Ordered cap text) (hready : s.Ready)
    (hr : peek valid s = .ok (t, s')) : s'.Ready := by
  obtain ⟨hf, hextras⟩ := peek_faced hs hready.1 hr
  exact ⟨hf, hextras.trans hready.2⟩

/-- What a parser relies on is still so when the next token has been looked at. -/
theorem peek_bind_makes {valid : TokenSet} {f : Token → Parser α} {out : α → List Node}
    (h : ∀ t, Makes Ready (f t) out) : Makes Ready (peek valid >>= f) out := by
  intro cap text s a s' hs hready hr
  obtain ⟨t, s₁, hpeek, hr⟩ := bind_ok hr
  obtain ⟨hgrew, -⟩ := peek_shows hs hpeek
  exact (h t).after hgrew (peek_ready hs hready hpeek) hr

theorem nextIs_shows {kind : Token.Kind} {b : Bool} (hs : s.Ordered cap text)
    (hr : nextIs kind s = .ok (b, s')) :
    Grew cap text s [] s' ∧ (b → kind ≠ .eof → s'.Faced) := by
  unfold nextIs at hr
  obtain ⟨t, s₁, hpeek, hr⟩ := bind_ok hr
  obtain ⟨rfl, rfl⟩ := pure_ok hr
  obtain ⟨hgrew, hshows⟩ := peek_shows hs hpeek
  refine ⟨hgrew, fun hb hne => hshows.faced ?_⟩
  rw [of_decide_eq_true hb]
  exact hne

/-- The one parser is run where a token of the kind comes next, and the other elsewhere. -/
theorem ifNext_makes {kind : Token.Kind} (hkind : kind ≠ .eof) {p q : Parser α}
    {out : α → List Node} (hp : Makes Faced p out) (hq : Makes Session.Anywhere q out) :
    Makes Session.Anywhere (do if ← nextIs kind then p else q) out := by
  intro cap text s a s' hs _ hr
  obtain ⟨b, s₁, hnext, hr⟩ := bind_ok hr
  obtain ⟨hgrew, hfaced⟩ := nextIs_shows hs hnext
  split at hr
  · exact hp.after hgrew (hfaced ‹_› hkind) hr
  · exact hq.after hgrew trivial hr

theorem flush_made {ns : List Node} (hs : s.Ordered cap text) (hr : flush s = .ok (ns, s')) :
    Grew cap text s ns s' ∧ s'.cursor = s.cursor ∧ s'.extras = #[] := by
  cases hr
  exact ⟨Session.takeExtras_grew hs, rfl, rfl⟩

theorem flush_makes : Makes Session.Anywhere flush id :=
  fun _ _ _ _ _ hs _ hr => (flush_made hs hr).1

theorem flush_ready {ns : List Node} (hf : s.Faced) (hr : flush s = .ok (ns, s')) : s'.Ready := by
  cases hr
  exact ⟨hf, rfl⟩

/-- The comments in front of something come before it. -/
theorem flushed_makes {p : Parser α} {out : α → List Node} (h : Makes Ready p out) :
    Makes Faced (do
      let extras ← flush
      let a ← p
      return extras ++ out a) id := by
  intro cap text s ns s' hs hf hr
  obtain ⟨extras, s₁, hflush, hr⟩ := bind_ok hr
  obtain ⟨a, s₂, ha, hr⟩ := bind_ok hr
  obtain ⟨rfl, rfl⟩ := pure_ok hr
  exact h.after (flush_makes.grew hs trivial hflush) (flush_ready hf hflush) ha

theorem leaf_made {kind : NodeKind} {n : Node} (hs : s.Ordered cap text) (hready : s.Ready)
    (hr : leaf kind s = .ok (n, s')) :
    Grew cap text s [n] s' ∧ s.cursor.place.byte < s'.cursor.place.byte := by
  cases hr
  obtain ⟨hgrew, hlt, -⟩ := Session.bump_grew hs hready kind
  exact ⟨hgrew, hlt⟩

theorem leaf_makes (kind : NodeKind) : Makes Ready (leaf kind) fun n => [n] :=
  fun _ _ _ _ _ hs hready hr => (leaf_made hs hready hr).1

theorem bump_made {kind : NodeKind} {field : Option String} {ns : List Node}
    (hs : s.Ordered cap text) (hf : s.Faced) (hr : bump kind field s = .ok (ns, s')) :
    Grew cap text s ns s' ∧ s.cursor.place.byte < s'.cursor.place.byte := by
  unfold bump at hr
  obtain ⟨extras, s₁, hflush, hr⟩ := bind_ok hr
  obtain ⟨n, s₂, hleaf, hr⟩ := bind_ok hr
  obtain ⟨rfl, rfl⟩ := pure_ok hr
  obtain ⟨hextras, hcursor, -⟩ := flush_made hs hflush
  obtain ⟨hn, hlt⟩ := leaf_made hextras.ordered (flush_ready hf hflush) hleaf
  rw [hcursor] at hlt
  exact ⟨hextras.trans (hn.label field), hlt⟩

theorem bump_makes (kind : NodeKind) (field : Option String) : Makes Faced (bump kind field) id :=
  fun _ _ _ _ _ hs hf hr => (bump_made hs hf hr).1

theorem complain_made {message : String} {l : Location} {u : Unit} (hs : s.Ordered cap text)
    (hl : Within text l) (hr : complain (.syntactic message l) s = .ok (u, s')) :
    Grew cap text s [] s' ∧ s'.frontier = s.frontier ∧ s'.cursor = s.cursor := by
  cases hr
  exact ⟨Session.complain_grew hs ⟨_, _, l, hl, rfl⟩, rfl, rfl⟩

theorem here_ok {l : Location} (hr : here s = .ok (l, s')) : l = s.frontier ∧ s = s' := by
  cases hr
  exact ⟨rfl, rfl⟩

theorem missing_made {kind : NodeKind} {what : String} {n : Node} (hs : s.Ordered cap text)
    (hr : missing kind what s = .ok (n, s')) :
    Grew cap text s [n] s' ∧ s'.cursor = s.cursor := by
  unfold missing at hr
  obtain ⟨l, s₁, hhere, hr⟩ := bind_ok hr
  obtain ⟨rfl, rfl⟩ := here_ok hhere
  obtain ⟨u, s₂, hcomplain, hr⟩ := bind_ok hr
  obtain ⟨rfl, rfl⟩ := pure_ok hr
  obtain ⟨hgrew, hfrontier, hcursor⟩ := complain_made hs hs.frontier hcomplain
  refine ⟨hgrew.exchange (Node.marks_missing _ _) ?_, hcursor⟩
  rw [hfrontier]
  exact ⟨le_rfl, .missing kind hs.frontier, le_rfl⟩

theorem missing_makes (kind : NodeKind) (what : String) :
    Makes Session.Anywhere (missing kind what) fun n => [n] :=
  fun _ _ _ _ _ hs _ hr => (missing_made hs hr).1

/-- A node over all that has been made. -/
theorem branch_made {kind : NodeKind} {ns : List Node} {n : Node} (h : Grew cap text o ns s)
    (hr : branch kind ns s = .ok (n, s')) : Grew cap text o [n] s' := by
  cases hr
  exact h.wrap kind

/-! ## Loops -/

/-- What every step keeps holds in the end. -/
theorem iterate_keeps {step : α → Parser (Bool × α)} (Inv : α → Session → Prop)
    (hstep : ∀ a s r s', Inv a s → step a s = .ok (r, s') → Inv r.2 s') :
    ∀ (n : Nat) {a a' : α} {s s' : Session}, Inv a s → iterate step n a s = .ok (a', s') →
      Inv a' s'
  | 0, a, a', s, s', h, hr => by
    obtain ⟨rfl, rfl⟩ := pure_ok hr
    exact h
  | n + 1, a, a', s, s', h, hr => by
    unfold iterate at hr
    obtain ⟨⟨go, a₁⟩, s₁, hs₁, hr⟩ := bind_ok hr
    have h₁ := hstep a s _ s₁ h hs₁
    cases go with
    | true => exact iterate_keeps Inv hstep n h₁ hr
    | false =>
      obtain ⟨rfl, rfl⟩ := pure_ok hr
      exact h₁

theorem loop_keeps {step : α → Parser (Bool × α)} (Inv : α → Session → Prop)
    (hstep : ∀ a s r s', Inv a s → step a s = .ok (r, s') → Inv r.2 s') {a a' : α} (h : Inv a s)
    (hr : loop step a s = .ok (a', s')) : Inv a' s' :=
  iterate_keeps Inv hstep (s.remaining + 1) h hr

/-- Steps that go on only when the cursor has moved come to one that stops. -/
theorem iterate_stops {step : α → Parser (Bool × α)} (Inv : α → Session → Prop)
    (Stopped : Session → Prop)
    (hstep : ∀ a s r s', Inv a s → step a s = .ok (r, s') →
      Inv r.2 s' ∧ if r.1 then s'.remaining < s.remaining else Stopped s') :
    ∀ (n : Nat) {a a' : α} {s s' : Session}, Inv a s → s.remaining < n →
      iterate step n a s = .ok (a', s') → Inv a' s' ∧ Stopped s'
  | 0, a, a', s, s', h, hn, hr => absurd hn (Nat.not_lt_zero _)
  | n + 1, a, a', s, s', h, hn, hr => by
    unfold iterate at hr
    obtain ⟨⟨go, a₁⟩, s₁, hs₁, hr⟩ := bind_ok hr
    obtain ⟨h₁, hgo⟩ := hstep a s _ s₁ h hs₁
    cases go with
    | true =>
      have hlt : s₁.remaining < s.remaining := hgo
      exact iterate_stops Inv Stopped hstep n h₁ (by omega) hr
    | false =>
      obtain ⟨rfl, rfl⟩ := pure_ok hr
      exact ⟨h₁, hgo⟩

/-- A step that adds to what has been made. -/
def Extends (step : Array Node → Parser (Bool × Array Node)) : Prop :=
  ∀ cap text o nodes s r s', Grew cap text o nodes.toList s → step nodes s = .ok (r, s') →
    Grew cap text o r.2.toList s'

theorem gather_made {step : Array Node → Parser (Bool × Array Node)} {first ns : List Node}
    (hstep : Extends step) (h : Grew cap text o first s) (hr : gather step first s = .ok (ns, s')) :
    Grew cap text o ns s' := by
  unfold gather at hr
  obtain ⟨nodes, s₁, hloop, hr⟩ := bind_ok hr
  obtain ⟨rfl, rfl⟩ := pure_ok hr
  have hfirst : Grew cap text o first.toArray.toList s := h
  exact loop_keeps (fun nodes s => Grew cap text o nodes.toList s)
    (fun a s r s' => hstep cap text o a s r s') hfirst hloop

theorem gather_makes {step : Array Node → Parser (Bool × Array Node)} (hstep : Extends step) :
    Makes Session.Anywhere (gather step) id :=
  fun _ _ _ _ _ hs _ hr => gather_made hstep (.refl hs) hr

theorem gather_stops {step : Array Node → Parser (Bool × Array Node)} {Stopped : Session → Prop}
    {ns : List Node}
    (hstep : ∀ nodes t r t', Grew cap text s nodes.toList t → step nodes t = .ok (r, t') →
      Grew cap text s r.2.toList t' ∧ if r.1 then t'.remaining < t.remaining else Stopped t')
    (hs : s.Ordered cap text) (hr : gather step [] s = .ok (ns, s')) :
    Grew cap text s ns s' ∧ Stopped s' := by
  unfold gather at hr
  obtain ⟨nodes, s₁, hloop, hr⟩ := bind_ok hr
  obtain ⟨rfl, rfl⟩ := pure_ok hr
  have hnothing : Grew cap text s (#[] : Array Node).toList s := .refl hs
  exact iterate_stops (fun nodes t => Grew cap text s nodes.toList t) Stopped hstep _ hnothing
    (Nat.lt_succ_self _) hloop

/-! ## Recovery -/

/-- A step of skipping stops in front of a token, or takes it. -/
theorem skipStep_cases {stop : TokenSet} {a : Skipped} {r : Bool × Skipped}
    (hs : s.Ordered cap text) (hr : skipStep stop a s = .ok (r, s')) :
    ∃ t t', Grew cap text s [] t ∧ Within text t'.span.start
      ∧ (r = (false, a) ∧ s' = t ∧ (s.Faced → 0 < a.count)
        ∨ ∃ ns : List Node, r.1 = true ∧ r.2.nodes = a.nodes ++ ns
          ∧ r.2.first = a.first.or (some t')
          ∧ Grew cap text t ns s' ∧ t.cursor.place.byte < s'.cursor.place.byte) := by
  unfold skipStep at hr
  obtain ⟨t', t, hpeek, hr⟩ := bind_ok hr
  obtain ⟨hgrew, hshows⟩ := peek_shows hs hpeek
  refine ⟨t, t', hgrew, hshows.start, ?_⟩
  split at hr
  · rename_i hstop
    obtain ⟨rfl, rfl⟩ := pure_ok hr
    refine .inl ⟨rfl, rfl, fun hf => ?_⟩
    rcases hstop with heof | ⟨hcount, -⟩
    · exact absurd (hshows.eof.1 heof) (peek_faced hs hf hpeek).1.2
    · exact hcount
  · rename_i hgo
    obtain ⟨ns, s₂, hbump, hr⟩ := bind_ok hr
    obtain ⟨rfl, rfl⟩ := pure_ok hr
    obtain ⟨hns, hlt⟩ := bump_made hgrew.ordered (hshows.faced fun he => hgo (.inl he)) hbump
    exact .inr ⟨ns, rfl, rfl, rfl, hns, hlt⟩

/-- What has been skipped is what has been made. As long as there is no first token that is
nothing, and with it the cursor has moved. -/
structure Skipped.Made (cap : Nat) (text : List Char) (o : Session) (a : Skipped) (s : Session) :
    Prop where
  grew : Grew cap text o a.nodes.toList s
  empty : a.first = none → a.nodes = #[]
  start : ∀ t, a.first = some t → Within text t.span.start
  moved : a.first ≠ none → o.cursor.place.byte < s.cursor.place.byte

theorem skipStep_made {stop : TokenSet} {a : Skipped} {r : Bool × Skipped}
    (h : a.Made cap text o s) (hr : skipStep stop a s = .ok (r, s')) : r.2.Made cap text o s' := by
  obtain ⟨t, t', hgrew, hstart, hcases⟩ := skipStep_cases h.grew.ordered hr
  rcases hcases with ⟨rfl, rfl, -⟩ | ⟨ns, -, hnodes, hfirst, hns, hlt⟩
  · exact ⟨h.grew.idle hgrew, h.empty, h.start, fun hf => (h.moved hf).trans_le hgrew.le⟩
  · refine ⟨?_, ?_, ?_, ?_⟩
    · rw [hnodes, Array.toList_appendList]
      exact (h.grew.idle hgrew).trans hns
    · intro hnone
      rw [hfirst] at hnone
      cases hf : a.first <;> simp [hf] at hnone
    · intro u hu
      rw [hfirst] at hu
      cases hf : a.first with
      | none =>
        rw [hf, Option.none_or, Option.some.injEq] at hu
        exact hu ▸ hstart
      | some v =>
        rw [hf, Option.some_or, Option.some.injEq] at hu
        exact hu ▸ h.start v hf
    · intro _
      exact (h.grew.idle hgrew).le.trans_lt hlt

/-- In front of a token at least this token is skipped. -/
theorem skipLoop_first {stop : TokenSet} {a : Skipped} (hs : s.Ordered cap text) (hf : s.Faced)
    (hr : loop (skipStep stop) {} s = .ok (a, s')) : a.first ≠ none := by
  change iterate (skipStep stop) (s.remaining + 1) {} s = _ at hr
  unfold iterate at hr
  obtain ⟨⟨go, b⟩, s₁, hstep, hr⟩ := bind_ok hr
  obtain ⟨t, t', hgrew, -, hcases⟩ := skipStep_cases hs hstep
  rcases hcases with ⟨-, -, hcount⟩ | ⟨ns, hgo, -, hfirst, hns, -⟩
  · exact absurd (hcount hf) (Nat.lt_irrefl 0)
  · cases hgo
    have hb : b.first ≠ none := by
      rw [hfirst]
      simp
    have hkept := iterate_keeps (fun c u => u.Ordered cap text ∧ c.first ≠ none) ?_ _
      ⟨hns.ordered, hb⟩ hr
    · exact hkept.2
    · rintro c u r u' ⟨hu, hc⟩ hstep
      obtain ⟨v, v', hgrew, -, hcases⟩ := skipStep_cases hu hstep
      rcases hcases with ⟨rfl, rfl, -⟩ | ⟨ns, -, -, hfirst, hns, -⟩
      · exact ⟨hgrew.ordered, hc⟩
      · refine ⟨hns.ordered, ?_⟩
        rw [hfirst]
        cases hc' : c.first <;> simp

theorem wrapUp_made {a : Skipped} {t : Token} {extras ns : List Node} {u : Session}
    (hextras : Grew cap text o extras u) (ha : Grew cap text u a.nodes.toList s)
    (ht : Within text t.span.start) (hr : wrapUp extras a t s = .ok (ns, s')) :
    Grew cap text o ns s' ∧ s.cursor.place.byte ≤ s'.cursor.place.byte := by
  have hwrap {s₁ : Session} (h₁ : Grew cap text s [] s₁)
      (hr : (do return extras ++ [← branch .error a.nodes.toList] : Parser _) s₁ = .ok (ns, s')) :
      Grew cap text o ns s' ∧ s.cursor.place.byte ≤ s'.cursor.place.byte := by
    obtain ⟨n, s₂, hbranch, hr⟩ := bind_ok hr
    obtain ⟨rfl, rfl⟩ := pure_ok hr
    have hn := branch_made (ha.idle h₁) hbranch
    cases hbranch
    exact ⟨hextras.trans hn, h₁.le⟩
  unfold wrapUp at hr
  split at hr
  · obtain ⟨rfl, rfl⟩ := pure_ok hr
    exact ⟨hextras.trans ha, le_rfl⟩
  split at hr
  · obtain ⟨_, s₁, hcomplain, hr⟩ := bind_ok hr
    exact hwrap (complain_made ha.ordered ht hcomplain).1 hr
  · exact hwrap (.refl ha.ordered) hr

theorem skip_made {stop : TokenSet} {ns : List Node} (hs : s.Ordered cap text)
    (hr : skip stop s = .ok (ns, s')) :
    Grew cap text s ns s' ∧ (s.Faced → s.cursor.place.byte < s'.cursor.place.byte) := by
  rw [skip_eq] at hr
  obtain ⟨extras, s₁, hflush, hr⟩ := bind_ok hr
  obtain ⟨a, s₂, hloop, hr⟩ := bind_ok hr
  obtain ⟨hextras, hcursor, -⟩ := flush_made hs hflush
  have hnothing : ({} : Skipped).Made cap text s₁ s₁ :=
    ⟨.refl hextras.ordered, fun _ => rfl, (fun _ h => nomatch h), fun h => absurd rfl h⟩
  have ha : a.Made cap text s₁ s₂ :=
    loop_keeps (Skipped.Made cap text s₁) (fun _ _ _ _ => skipStep_made) hnothing hloop
  have hfirst (hf : s.Faced) : a.first ≠ none :=
    skipLoop_first hextras.ordered (hf.of_cursor hcursor) hloop
  have hlt (hf : s.Faced) : s.cursor.place.byte < s₂.cursor.place.byte := by
    rw [← hcursor]
    exact ha.moved (hfirst hf)
  cases hcase : a.first with
  | none =>
    rw [hcase] at hr
    obtain ⟨rfl, rfl⟩ := pure_ok hr
    have hgrew := hextras.trans ha.grew
    rw [ha.empty hcase, List.append_nil] at hgrew
    exact ⟨hgrew, hlt⟩
  | some t =>
    rw [hcase] at hr
    obtain ⟨hgrew, hle⟩ := wrapUp_made hextras ha.grew (ha.start t hcase) hr
    exact ⟨hgrew, fun hf => (hlt hf).trans_le hle⟩

theorem recoverTo_made {sync first : TokenSet} {found : Bool} {ns : List Node}
    (hs : s.Ordered cap text) (hr : recoverTo sync first s = .ok ((found, ns), s')) :
    Grew cap text s ns s' ∧ (found → first.contains .eof = false → s'.Faced) := by
  unfold recoverTo at hr
  obtain ⟨t, s₁, hpeek, hr⟩ := bind_ok hr
  obtain ⟨hgrew, hshows⟩ := peek_shows hs hpeek
  split at hr
  · rename_i hc
    obtain ⟨hpair, rfl⟩ := pure_ok hr
    cases hpair
    exact ⟨hgrew, fun _ hfirst => hshows.faced_of_contains hfirst hc⟩
  · split at hr
    · obtain ⟨hpair, rfl⟩ := pure_ok hr
      cases hpair
      exact ⟨hgrew, nofun⟩
    · obtain ⟨skipped, s₂, hskip, hr⟩ := bind_ok hr
      obtain ⟨t₂, s₃, hpeek₂, hr⟩ := bind_ok hr
      obtain ⟨hpair, rfl⟩ := pure_ok hr
      cases hpair
      have hskipped := hgrew.trans (skip_made hgrew.ordered hskip).1
      obtain ⟨hgrew₂, hshows₂⟩ := peek_shows hskipped.ordered hpeek₂
      exact ⟨hskipped.idle hgrew₂, fun hc hfirst => hshows₂.faced_of_contains hfirst hc⟩

theorem expectAs?_makes (sync : TokenSet) (kind : NodeKind) (field : Option String)
    {want : Token.Kind} (hwant : want ≠ .eof) :
    Makes Session.Anywhere (expectAs? sync want kind field) Prod.snd := by
  intro cap text s r s' hs _ hr
  unfold expectAs? at hr
  obtain ⟨⟨found, skipped⟩, s₁, hrecover, hr⟩ := bind_ok hr
  obtain ⟨hskipped, hfaced⟩ := recoverTo_made hs hrecover
  simp only [] at hr
  split at hr
  · rename_i hfound
    obtain ⟨extras, s₂, hflush, hr⟩ := bind_ok hr
    obtain ⟨n, s₃, hleaf, hr⟩ := bind_ok hr
    obtain ⟨rfl, rfl⟩ := pure_ok hr
    have hf : s₁.Faced := hfaced hfound (TokenSet.contains_single_eof hwant)
    have hextras := flush_makes.grew hskipped.ordered trivial hflush
    have hn := (leaf_makes kind).grew hextras.ordered (flush_ready hf hflush) hleaf
    exact (hskipped.trans hextras).trans (hn.label field)
  · obtain ⟨n, s₂, hmissing, hr⟩ := bind_ok hr
    obtain ⟨rfl, rfl⟩ := pure_ok hr
    have hn := (missing_makes _ _).grew hskipped.ordered trivial hmissing
    exact hskipped.trans (hn.label field)

theorem expect?_makes (sync : TokenSet) (field : Option String) {want : Token.Kind}
    (hwant : want ≠ .eof) :
    Makes Session.Anywhere (expect? sync want field) Prod.snd :=
  expectAs?_makes sync _ field hwant

theorem expect_makes (sync : TokenSet) (field : Option String) {want : Token.Kind}
    (hwant : want ≠ .eof) : Makes Session.Anywhere (expect sync want field) id := by
  intro cap text s ns s' hs _ hr
  unfold expect at hr
  obtain ⟨r, s₁, hexpect, hr⟩ := bind_ok hr
  obtain ⟨rfl, rfl⟩ := pure_ok hr
  exact (expect?_makes sync field hwant).grew hs trivial hexpect

/-- A token that has to come behind what has been made. -/
theorem expect_after {sync : TokenSet} {want : Token.Kind} {field : Option String}
    {ns ms : List Node} (h : Grew cap text o ns s) (hr : expect sync want field s = .ok (ms, s'))
    (hwant : want ≠ .eof) : Grew cap text o (ns ++ ms) s' :=
  (expect_makes sync field hwant).after h trivial hr

/-! ## Lists -/

theorem rejectComma_made {a : Items} {nodes : Array Node} (h : Grew cap text o a.nodes.toList s)
    (hr : a.rejectComma s = .ok (nodes, s')) :
    Grew cap text o nodes.toList s' ∧ s'.cursor = s.cursor := by
  unfold Items.rejectComma at hr
  cases hcomma : a.lastComma.bind fun i => a.nodes[i]?.map (i, ·) with
  | none =>
    rw [hcomma] at hr
    obtain ⟨rfl, rfl⟩ := pure_ok hr
    exact ⟨h, rfl⟩
  | some found =>
    obtain ⟨i, -, hmap⟩ := Option.bind_eq_some_iff.1 hcomma
    obtain ⟨comma, hc, rfl⟩ := Option.map_eq_some_iff.1 hmap
    rw [hcomma] at hr
    obtain ⟨_, s₁, hcomplain, hr⟩ := bind_ok hr
    obtain ⟨rfl, rfl⟩ := pure_ok hr
    rw [← Array.getElem?_toList] at hc
    obtain ⟨hi, rfl⟩ := List.getElem?_eq_some_iff.1 hc
    have hmem := List.getElem_mem hi
    obtain ⟨hgrew, -, hcursor⟩ := complain_made h.ordered (h.good hmem).placed.start hcomplain
    refine ⟨?_, hcursor⟩
    -- The row is cut at the comma, the only node that changes.
    have hrow := h.idle hgrew
    rw [← List.take_append_drop i a.nodes.toList, List.drop_eq_getElem_cons hi] at hrow
    rw [Array.toList_setIfInBounds, List.set_eq_take_append_cons_drop, if_pos hi]
    exact hrow.wrapOne _ _

/-! ## Elements -/

theorem progress_made {element : Parser α} {out : α → List Node} {C : Session → Prop} {b : β}
    {stop : TokenSet} {next : α → List Node → Parser β} (h : Makes C element out)
    (hs : s.Ordered cap text) (hc : C s) (hr : progress stop element next s = .ok (b, s')) :
    ∃ item skipped t, Grew cap text s (out item ++ skipped) t
      ∧ (s.Faced → s.cursor.place.byte < t.cursor.place.byte)
      ∧ next item skipped t = .ok (b, s') := by
  obtain ⟨item, s₁, hitem, hr⟩ := progress_run hr
  have hgrew := h.grew hs hc hitem
  split at hr
  · rename_i hbyte
    obtain ⟨skipped, s₂, hskip, hr⟩ := bind_ok hr
    obtain ⟨hskipped, hlt⟩ := skip_made hgrew.ordered hskip
    refine ⟨item, skipped, s₂, hgrew.trans hskipped, fun hf => ?_, hr⟩
    exact hgrew.le.trans_lt (hlt (hf.of_byte hs hgrew.ordered hbyte))
  · rename_i hbyte
    refine ⟨item, [], s₁, ?_, fun _ => lt_of_le_of_ne hgrew.le (Ne.symm hbyte), hr⟩
    rw [List.append_nil]
    exact hgrew

/-- Behind an element a body or a file goes on. -/
theorem addItem_goes {stop : TokenSet} {element : Parser Node} {nodes : Array Node}
    {r : Bool × Array Node} (hr : addItem stop element nodes s = .ok (r, s')) : r.1 = true := by
  obtain ⟨extras, s₁, -, hr⟩ := bind_ok hr
  obtain ⟨item, s₂, -, hr⟩ := progress_run hr
  split at hr
  · obtain ⟨skipped, s₃, -, hr⟩ := bind_ok hr
    obtain ⟨rfl, -⟩ := pure_ok hr
    rfl
  · obtain ⟨rfl, -⟩ := pure_ok hr
    rfl

/-- An element of a body or a file comes behind what has been made before, and something is
taken. -/
theorem addItem_made {stop : TokenSet} {element : Parser Node} {nodes : Array Node}
    {r : Bool × Array Node} (h : Makes Session.Anywhere element fun n => [n])
    (ho : Grew cap text o nodes.toList s) (hr : addItem stop element nodes s = .ok (r, s')) :
    Grew cap text o r.2.toList s'
      ∧ (s.Faced → s.cursor.place.byte < s'.cursor.place.byte) := by
  obtain ⟨extras, s₁, hflush, hr⟩ := bind_ok hr
  obtain ⟨hextras, hcursor, -⟩ := flush_made ho.ordered hflush
  obtain ⟨item, skipped, s₂, hitem, hlt, hr⟩ := progress_made h hextras.ordered trivial hr
  obtain ⟨rfl, rfl⟩ := pure_ok hr
  refine ⟨by simpa using (ho.trans hextras).trans hitem, fun hf => ?_⟩
  rw [← hcursor]
  exact hlt (hf.of_cursor hcursor)

/-! ## Lists of elements -/

theorem listClose_made {form : ListForm} {a : Items} {nodes : Array Node} {r : Bool × Items}
    (ho : Grew cap text o nodes.toList s) (hf : s.Faced)
    (hr : listClose form a nodes s = .ok (r, s')) : Grew cap text o r.2.nodes.toList s' := by
  obtain ⟨ns, s₁, hbump, hr⟩ := bind_ok hr
  obtain ⟨rfl, rfl⟩ := pure_ok hr
  rw [Array.toList_appendList]
  exact (bump_makes _ _).after ho hf hbump

theorem listItem_made {stop : TokenSet} {element : Parser (List Node)} {a : Items}
    {comma : List Node} {r : Bool × Items} (h : Makes Ready element id)
    (ho : Grew cap text o (a.nodes.toList ++ comma) s) (hf : s.Faced)
    (hr : listItem stop element a comma s = .ok (r, s')) : Grew cap text o r.2.nodes.toList s' := by
  rw [listItem_eq] at hr
  obtain ⟨extras, s₁, hflush, hr⟩ := bind_ok hr
  have hextras := flush_makes.after ho trivial hflush
  obtain ⟨item, skipped, s₂, hitem, -, hr⟩ :=
    progress_made h hextras.ordered (flush_ready hf hflush) hr
  obtain ⟨rfl, rfl⟩ := pure_ok hr
  simpa only [Array.toList_appendList, List.append_assoc, id] using hextras.trans hitem

theorem listStep_made {sync : TokenSet} {form : ListForm} {element : Parser (List Node)}
    {a : Items} {r : Bool × Items} (h : Makes Ready element id)
    (hform : form.first.contains .eof = false) (ha : Grew cap text o a.nodes.toList s)
    (hr : listStep sync form element a s = .ok (r, s')) : Grew cap text o r.2.nodes.toList s' := by
  rw [listStep_eq] at hr
  obtain ⟨t, s₁, hpeek, hr⟩ := bind_ok hr
  obtain ⟨hgrew, hshows⟩ := peek_shows ha.ordered hpeek
  have h₁ := ha.idle hgrew
  split at hr
  · rename_i hclose
    have hf : s₁.Faced := hshows.faced (by simp [hclose])
    split at hr
    · obtain ⟨nodes, s₂, hreject, hr⟩ := bind_ok hr
      obtain ⟨hnodes, hcursor⟩ := rejectComma_made h₁ hreject
      exact listClose_made hnodes (hf.of_cursor hcursor) hr
    · exact listClose_made h₁ hf hr
  split at hr
  · rename_i hfirst
    have hf := hshows.faced_of_contains hform hfirst
    split at hr
    · refine listItem_made h ?_ hf hr
      rwa [List.append_nil]
    · obtain ⟨n, s₂, hmissing, hr⟩ := bind_ok hr
      obtain ⟨hn, hcursor⟩ := missing_made h₁.ordered hmissing
      exact listItem_made h (h₁.trans hn) (hf.of_cursor hcursor) hr
  split at hr
  · rename_i hcomma
    obtain ⟨ns, s₂, hbump, hr⟩ := bind_ok hr
    obtain ⟨rfl, rfl⟩ := pure_ok hr
    have hf : s₁.Faced := hshows.faced (by simp [hcomma.1])
    rw [Array.toList_appendList]
    exact (bump_makes _ _).after h₁ hf hbump
  split at hr
  · obtain ⟨n, s₂, hmissing, hr⟩ := bind_ok hr
    obtain ⟨rfl, rfl⟩ := pure_ok hr
    rw [Array.toList_push]
    exact (missing_makes _ _).after h₁ trivial hmissing
  · obtain ⟨ns, s₂, hskip, hr⟩ := bind_ok hr
    obtain ⟨rfl, rfl⟩ := pure_ok hr
    rw [Array.toList_appendList]
    exact h₁.trans (skip_made h₁.ordered hskip).1

theorem list_makes (sync : TokenSet) (close : Punct) {first : TokenSet} (trailing : Bool)
    {element : TokenSet → Parser (List Node)} (h : ∀ sync, Makes Ready (element sync) id)
    (hfirst : first.contains .eof = false) :
    Makes Session.Anywhere (list sync ⟨close, first, trailing⟩ element) id := by
  intro cap text s ns s' hs _ hr
  unfold list at hr
  obtain ⟨a, s₁, hloop, hr⟩ := bind_ok hr
  obtain ⟨rfl, rfl⟩ := pure_ok hr
  have hform : (⟨close, first, trailing⟩ : ListForm).first.contains .eof = false := by
    dsimp only
    exact hfirst
  have hnothing : Grew cap text s ({} : Items).nodes.toList s := .refl hs
  exact loop_keeps (fun a t => Grew cap text s a.nodes.toList t)
    (fun _ _ _ _ => listStep_made (h _) hform) hnothing hloop

end Parser

end Parse

end AvroTree
