import AvroTree.Proofs.Building
import AvroTree.Proofs.Running
import AvroTree.Proofs.Tracking

/-!
# Parsers side by side

From two sessions in a pair a parser leads to two sessions in a pair and gives results that belong
together (`Mirrors`), as long as the first parse stays one that the track is about. Because what
is known of it is known in the end only, every parser also has to let the sessions go forward
(`Forward`): then what is known in the end has been so on the way.

The results of one parser are what the next is told, and these need not be the same for both parses.
So a parser mirrors another under a condition, which says how what they have been told belongs
together (`Mirrors.bind`).
-/

namespace AvroTree

open Token (Kind)

namespace Parse

open Session (Before Pair)

/-- Where a session has not moved the same token stands next. -/
theorem Session.Faced.of_stands {cap : Nat} {text : List Char} {s t : Session} {p q : Lexer.Stand}
    (h : s.Faced) (hp : s.Stands cap text p) (hq : t.Stands cap text q)
    (hbyte : t.cursor.place.byte = s.cursor.place.byte) : t.Faced := by
  rw [hp.cursor.byte_eq, hq.cursor.byte_eq] at hbyte
  have hrest := (Text.append_inj_of_size (hq.append.trans hp.append.symm) hbyte).2
  unfold Session.Faced Session.Plain Session.AtEnd
  rw [hq.cursor.rest_eq, hrest, ← hp.cursor.rest_eq]
  exact h

/-! ## What belongs together -/

/-- Results of two parses that may belong together. -/
class Linked (α : Type) where
  link : Track → α → α → Prop

export Linked (link)

instance : Linked Token := ⟨fun T => T.Tok⟩
instance : Linked Node := ⟨fun T => T.Same⟩
instance : Linked Location := ⟨fun T => T.Loc⟩
instance : Linked Bool := ⟨fun _ => Eq⟩
instance : Linked Unit := ⟨fun _ _ _ => True⟩

variable {α β γ : Type} [Linked α] [Linked β]

instance : Linked (List α) := ⟨fun T => List.Forall₂ (link T)⟩
instance : Linked (Array α) := ⟨fun T a b => List.Forall₂ (link T) a.toList b.toList⟩
instance : Linked (Option α) := ⟨fun T => Option.Rel (link T)⟩
instance : Linked (α × β) := ⟨fun T a b => link T a.1 b.1 ∧ link T a.2 b.2⟩

section

variable {T : Track} {a b : Array α} {ns ms : List α} {n m : α}

theorem link_append (h : link T a b) (h' : link T ns ms) : link T (a ++ ns) (b ++ ms) := by
  show List.Forall₂ (link T) (a ++ ns).toList (b ++ ms).toList
  rw [Array.toList_appendList, Array.toList_appendList]
  exact List.rel_append h h'

theorem link_push (h : link T a b) (h' : link T n m) : link T (a.push n) (b.push m) := by
  show List.Forall₂ (link T) (a.push n).toList (b.push m).toList
  rw [Array.toList_push, Array.toList_push]
  exact List.rel_append h (.cons h' .nil)

theorem link_or {x y : Option α} (h : link T x y) (h' : link T n m) :
    link T (x.or (some n)) (y.or (some m)) := by
  cases h with
  | none => exact .some h'
  | some h => exact .some h

end

namespace Parser

variable {T : Track} {P Q : Prop}

/-- The parser lets sessions go forward. -/
def Forward (p : Parser γ) : Prop :=
  ∀ s a s', p s = .ok (a, s') → s.Before s'

/-- Under the condition `P` what `p` does to the first session of a pair `q` does to the second. -/
structure Mirrors (T : Track) (P : Prop) (p q : Parser α) : Prop where
  forward : Forward p
  forward' : Forward q
  follow : P → ∀ {s t a s'}, Pair T s t → p s = .ok (a, s') → T.Good s' →
    ∃ b t', q t = .ok (b, t') ∧ link T a b ∧ Pair T s' t'

theorem bind_run {δ : Type} {p : Parser γ} {f : γ → Parser δ} {s s' : Session} {a : γ}
    (h : p s = .ok (a, s')) : (p >>= f) s = f a s' := by
  show (p s).bind (fun r => f r.1 r.2) = _
  rw [h]
  rfl

namespace Forward

theorem pure (a : γ) : Forward (pure a : Parser γ) := by
  intro s b s' hr
  obtain ⟨-, rfl⟩ := pure_ok hr
  exact .refl s

theorem bind {δ : Type} {p : Parser γ} {f : γ → Parser δ} (hp : Forward p)
    (hf : ∀ a, Forward (f a)) : Forward (p >>= f) := by
  intro s b s' hr
  obtain ⟨a, s₁, h₁, h₂⟩ := bind_ok hr
  exact (hp s a s₁ h₁).trans (hf a s₁ b s' h₂)

theorem ask (g : Session → γ) {δ : Type} {k : γ → Parser δ} (hk : ∀ c, Forward (k c)) :
    Forward (do k (g (← get))) :=
  fun s a s' hr => hk (g s) s a s' hr

end Forward

theorem tooDeep_forward (place : Location) : Forward (tooDeep place : Parser γ) :=
  fun _ _ _ hr => (tooDeep_ok hr).elim

theorem peek_forward (valid : TokenSet) : Forward (peek valid) := by
  intro s t s' hr
  obtain ⟨-, rfl⟩ := peek_ok hr
  exact Session.peek_before s valid

theorem flush_forward : Forward flush := by
  intro s ns s' hr
  cases hr
  exact ⟨le_rfl, [], (List.append_nil _).symm, fun _ h => h⟩

theorem leaf_forward (kind : NodeKind) : Forward (leaf kind) := by
  intro s n s' hr
  cases hr
  exact Session.bump_before s

theorem complain_forward (d : Diagnostic) : Forward (complain d) := by
  intro s u s' hr
  cases hr
  refine ⟨?_, [], (List.append_nil _).symm, fun _ h => h⟩
  simp only [Session.faults, Array.size_push]
  omega

/-- What is built of the moves lets sessions go forward. -/
theorem Built.forward {p : Parser γ} (h : Built (fun _ q => Forward q) p) : Forward p := by
  induction h with
  | given h => exact h
  | pure a => exact .pure a
  | bind _ _ hp hf => exact .bind hp hf
  | ask g _ _ hk => exact .ask g hk
  | peek valid => exact peek_forward valid
  | flush => exact flush_forward
  | leaf kind => exact leaf_forward kind
  | complain d => exact complain_forward d

/-! ## Putting parsers together -/

namespace Mirrors

variable {p p' q q' : Parser α}

theorem weaken (h : Mirrors T Q p q) (hP : P → Q) : Mirrors T P p q :=
  ⟨h.forward, h.forward', fun hp => h.follow (hP hp)⟩

theorem pure {a b : α} (h : P → link T a b) : Mirrors T P (pure a) (pure b) := by
  refine ⟨.pure a, .pure b, fun hp s t c s' hst hr _ => ?_⟩
  obtain ⟨rfl, rfl⟩ := pure_ok hr
  exact ⟨b, t, rfl, h hp, hst⟩

theorem bind {f g : α → Parser β} (h : Mirrors T P p q)
    (hf : ∀ a b, Mirrors T (P ∧ link T a b) (f a) (g b)) : Mirrors T P (p >>= f) (q >>= g) := by
  refine ⟨.bind h.forward fun a => (hf a a).forward,
    .bind h.forward' fun b => (hf b b).forward', ?_⟩
  intro hp s t c s' hst hr hgood
  obtain ⟨a, s₁, h₁, h₂⟩ := bind_ok hr
  obtain ⟨b, t₁, ht₁, hab, hst₁⟩ := h.follow hp hst h₁
    (hgood.of_before ((hf a a).forward s₁ c s' h₂))
  obtain ⟨d, t', ht', hcd, hst'⟩ := (hf a b).follow ⟨hp, hab⟩ hst₁ h₂ hgood
  exact ⟨d, t', (bind_run ht₁).trans ht', hcd, hst'⟩

/-- Both parses make the same choice. -/
theorem ite {c d : Prop} [Decidable c] [Decidable d] (hc : P → (c ↔ d)) (h : Mirrors T P p q)
    (h' : Mirrors T P p' q') : Mirrors T P (if c then p else p') (if d then q else q') := by
  refine ⟨?_, ?_, fun hp => ?_⟩
  · split
    · exact h.forward
    · exact h'.forward
  · split
    · exact h.forward'
    · exact h'.forward'
  · by_cases hd : d
    · rw [if_pos ((hc hp).2 hd), if_pos hd]
      exact h.follow hp
    · rw [if_neg fun hcc => hd ((hc hp).1 hcc), if_neg hd]
      exact h'.follow hp

/-- Both parses have been told the same. -/
theorem same {f g : γ → Parser α} {x y : γ} (hxy : P → y = x)
    (h : ∀ z, Mirrors T P (f z) (g z)) : Mirrors T P (f x) (g y) :=
  ⟨(h x).forward, (h y).forward', fun hp => by
    obtain rfl := hxy hp
    exact (h _).follow hp⟩

theorem told {f g : γ → Parser α} (h : ∀ z, Mirrors T P (f z) (g z)) :
    ∀ x y, (P → y = x) → Mirrors T P (f x) (g y) :=
  fun _ _ hxy => same hxy h

/-- Behind something that gives both parses the same. -/
theorem alike {p q : Parser α} {f g : α → Parser β} (heq : ∀ {x y : α}, link T x y → x = y)
    (h : Mirrors T P p q) (hf : ∀ c, Mirrors T P (f c) (g c)) :
    Mirrors T P (p >>= f) (q >>= g) :=
  h.bind fun _ _ => .same (fun hp => (heq hp.2).symm) fun c => (hf c).weaken And.left

/-- Behind a choice that both parses make alike. -/
theorem choose {p q : Parser Bool} {f g : Bool → Parser β} (h : Mirrors T P p q)
    (hf : ∀ c, Mirrors T P (f c) (g c)) : Mirrors T P (p >>= f) (q >>= g) :=
  alike id h hf

/-- Looking at what the sessions show. -/
theorem asking {R : γ → γ → Prop} {g : Session → γ} {k k' : γ → Parser α}
    (hg : ∀ {s t}, Pair T s t → R (g s) (g t))
    (hk : ∀ c d, Mirrors T (P ∧ R c d) (k c) (k' d)) :
    Mirrors T P (do k (g (← get))) (do k' (g (← get))) := by
  refine ⟨.ask g fun c => (hk c c).forward, .ask g fun c => (hk c c).forward', ?_⟩
  intro hp s t a s' hst hr hgood
  exact (hk (g s) (g t)).follow ⟨hp, hg hst⟩ hst hr hgood

/-- Looking at what both sessions show alike. -/
theorem ask {g : Session → γ} {k k' : γ → Parser α} (hg : ∀ {s t}, Pair T s t → g t = g s)
    (hk : ∀ c, Mirrors T P (k c) (k' c)) : Mirrors T P (do k (g (← get))) (do k' (g (← get))) :=
  asking (R := fun c d => d = c) hg fun _ _ => .same And.right fun c => (hk c).weaken And.left

end Mirrors

/-! ## Single moves -/

theorem peek_mirrors {V : TokenSet} (hV : T.Fit V) : Mirrors T P (peek V) (peek V) := by
  refine ⟨peek_forward V, peek_forward V, fun _ s t token s' hst hr hgood => ?_⟩
  have hdeep := peek_deep hr
  obtain ⟨rfl, rfl⟩ := peek_ok hr
  obtain ⟨htoken, hpair⟩ := hst.peek hgood (.inl hV)
  refine ⟨_, _, ?_, htoken, hpair⟩
  exact peek_of_kind (by rwa [T.kind_eq htoken])

theorem nextIs_mirrors {kind : Kind} (hkind : kind ≠ .jsonSpan) :
    Mirrors T P (nextIs kind) (nextIs kind) := by
  refine (peek_mirrors fun _ => ?_).bind fun t u => .pure fun hp => ?_
  · rw [single_jsonSpan, decide_eq_false hkind]
  · show decide (t.kind = kind) = decide (u.kind = kind)
    rw [T.kind_eq hp.2]

theorem flush_mirrors : Mirrors T P flush flush := by
  refine ⟨flush_forward, flush_forward, fun _ s t ns s' hst hr _ => ?_⟩
  cases hr
  obtain ⟨hns, hpair⟩ := hst.takeExtras
  exact ⟨_, _, rfl, hns, hpair⟩

theorem leaf_mirrors (kind : NodeKind) : Mirrors T P (leaf kind) (leaf kind) := by
  refine ⟨leaf_forward kind, leaf_forward kind, fun _ s t n s' hst hr hgood => ?_⟩
  cases hr
  obtain ⟨htoken, hpair⟩ := hst.bump hgood
  exact ⟨_, _, rfl, T.leaf kind htoken, hpair⟩

theorem complain_mirrors {d d' : Diagnostic} (hd : P → T.Diag d d') :
    Mirrors T P (complain d) (complain d') := by
  refine ⟨complain_forward d, complain_forward d', fun hp s t u s' hst hr _ => ?_⟩
  cases hr
  exact ⟨_, _, rfl, trivial, hst.complain (hd hp)⟩

theorem here_mirrors : Mirrors T P here here := by
  refine ⟨here_built.forward, here_built.forward, fun _ s t l s' hst hr _ => ?_⟩
  obtain ⟨rfl, rfl⟩ := here_ok hr
  exact ⟨_, t, rfl, hst.frontier, hst⟩

theorem bump_mirrors (kind : NodeKind) (field : Option String) :
    Mirrors T P (bump kind field) (bump kind field) :=
  flush_mirrors.bind fun _ _ => (leaf_mirrors kind).bind fun _ _ => .pure fun hp =>
    List.rel_append hp.1.2 (.cons (T.label field hp.2) .nil)

theorem missing_mirrors (kind : NodeKind) (what : String) :
    Mirrors T P (missing kind what) (missing kind what) :=
  here_mirrors.bind fun _ _ => (complain_mirrors fun hp => T.complaint _ _ hp.2).bind fun _ _ =>
    .pure fun hp => T.missing kind hp.1.2

theorem branch_mirrors_of {kind kind' : NodeKind} {ns ns' : List Node}
    (h : P → ∀ l l', T.Loc l l' → T.Same (.branch kind ns l) (.branch kind' ns' l')) :
    Mirrors T P (branch kind ns) (branch kind' ns') :=
  here_mirrors.bind fun _ _ => .pure fun hp => h hp.1 _ _ hp.2

theorem branch_mirrors {kind : NodeKind} {ns ns' : List Node} (hkind : kind.names = false)
    (hns : P → List.Forall₂ T.Same ns ns') : Mirrors T P (branch kind ns) (branch kind ns') :=
  branch_mirrors_of fun hp _ _ hl => T.branch hkind (hns hp) hl

/-- What fails in any case. -/
theorem tooDeep_mirrors (p : Parser Location) (hp : Forward p) :
    Mirrors T P (p >>= fun l => tooDeep l : Parser α) (p >>= fun l => tooDeep l) := by
  have hforward : Forward (p >>= fun l => tooDeep l : Parser α) := .bind hp tooDeep_forward
  refine ⟨hforward, hforward, fun _ s t a s' _ hr _ => ?_⟩
  obtain ⟨l, s₁, -, hr⟩ := bind_ok hr
  exact (tooDeep_ok hr).elim

/-! ## Loops -/

theorem iterate_forward {step : γ → Parser (Bool × γ)} (h : ∀ a, Forward (step a)) :
    ∀ (n : Nat) (a : γ), Forward (iterate step n a)
  | 0, a => .pure a
  | n + 1, a => .bind (h a) fun r => by
    obtain ⟨go, a⟩ := r
    cases go
    · exact .pure a
    · exact iterate_forward h n a

/-- Steps side by side. One that goes on has taken something. -/
structure Strides (T : Track) (P : Prop) (step step' : α → Parser (Bool × α)) : Prop where
  mirrors : ∀ a b, Mirrors T (P ∧ link T a b) (step a) (step' b)
  grows : P → ∀ {a b s t r s'}, link T a b → Pair T s t → step a s = .ok (r, s') → T.Good s' →
    r.1 = true → s.log.size < s'.log.size

/-- Both loops come to their ends after as many steps, because neither ends for lack of steps. -/
theorem Strides.iterate {step step' : α → Parser (Bool × α)} (h : Strides T P step step')
    (hp : P) : ∀ (n m : Nat) {a b : α} {s t : Session} {c : α} {s' : Session}, link T a b →
      Pair T s t → s.remaining < n → t.remaining < m → iterate step n a s = .ok (c, s') →
      T.Good s' → ∃ d t', Parser.iterate step' m b t = .ok (d, t') ∧ link T c d ∧ Pair T s' t'
  | 0, m, a, b, s, t, c, s', hab, hst, hn, hm, hr, hgood => absurd hn (Nat.not_lt_zero _)
  | n + 1, 0, a, b, s, t, c, s', hab, hst, hn, hm, hr, hgood => absurd hm (Nat.not_lt_zero _)
  | n + 1, m + 1, a, b, s, t, c, s', hab, hst, hn, hm, hr, hgood => by
    obtain ⟨⟨go, a₁⟩, s₁, h₁, h₂⟩ := bind_ok hr
    have hforward : s₁.Before s' := by
      cases go with
      | true => exact iterate_forward (fun a => (h.mirrors a a).forward) n a₁ s₁ c s' h₂
      | false => exact Forward.pure a₁ s₁ c s' h₂
    have hgood₁ := hgood.of_before hforward
    obtain ⟨⟨go', b₁⟩, t₁, ht₁, ⟨hgo, hab₁⟩, hst₁⟩ :=
      (h.mirrors a b).follow ⟨hp, hab⟩ hst h₁ hgood₁
    obtain rfl : go = go' := hgo
    rw [Parser.iterate, bind_run ht₁]
    cases go with
    | false =>
      obtain ⟨rfl, rfl⟩ := pure_ok h₂
      exact ⟨b₁, t₁, rfl, hab₁, hst₁⟩
    | true =>
      have hsize := h.grows hp hab hst h₁ hgood₁ rfl
      obtain ⟨hlt, hlt'⟩ := (hst.moved hst₁ ((h.mirrors a b).forward s _ s₁ h₁)
        ((h.mirrors a b).forward' t _ t₁ ht₁) hgood₁).2 hsize
      exact h.iterate hp n m hab₁ hst₁ (by omega) (by omega) h₂ hgood

theorem loop_mirrors {step step' : α → Parser (Bool × α)} (h : Strides T P step step') {a b : α}
    (hab : P → link T a b) : Mirrors T P (loop step a) (loop step' b) := by
  refine ⟨fun s => iterate_forward (fun a => (h.mirrors a a).forward) (s.remaining + 1) a s,
    fun t => iterate_forward (fun b => (h.mirrors b b).forward') (t.remaining + 1) b t, ?_⟩
  intro hp s t c s' hst hr hgood
  exact h.iterate hp (s.remaining + 1) (t.remaining + 1) (hab hp) hst (Nat.lt_succ_self _)
    (Nat.lt_succ_self _) hr hgood

theorem gather_mirrors {step step' : Array Node → Parser (Bool × Array Node)}
    (h : Strides T P step step') {first first' : List Node}
    (hfirst : P → List.Forall₂ T.Same first first') :
    Mirrors T P (gather step first) (gather step' first') :=
  (loop_mirrors h hfirst).bind fun _ _ => .pure fun hp => hp.2

/-! ## Recovery -/

instance : Linked Skipped :=
  ⟨fun T a b => link T a.nodes b.nodes ∧ link T a.first b.first ∧ b.count = a.count
    ∧ b.nest = a.nest⟩

theorem Forward.size_le {p : Parser γ} (hp : Forward p) {s s' : Session} {a : γ}
    (hr : p s = .ok (a, s')) : s.log.size ≤ s'.log.size :=
  (hp s a s' hr).size_le

theorem fetch_isSome (valid : TokenSet) : ∀ (n : Nat) (s : Session),
    (Session.fetch valid n s).2.lookahead.isSome
  | n, s => by
    cases hk : (s.scan valid).scanned.token.kind.isExtra with
    | false =>
      rw [Session.fetch_of_not hk]
      rfl
    | true =>
      cases n with
      | zero =>
        rw [Session.fetch_zero]
        rfl
      | succ n =>
        rw [Session.fetch_succ hk]
        exact fetch_isSome valid n _

theorem peek_isSome (s : Session) (valid : TokenSet) : (s.peek valid).2.lookahead.isSome := by
  unfold Session.peek
  simp only []
  split
  · rename_i la hla
    split
    · rw [hla]
      rfl
    · exact fetch_isSome _ _ s
  · exact fetch_isSome _ _ s

theorem leaf_grows {kind : NodeKind} {s s' : Session} {n : Node}
    (hr : leaf kind s = .ok (n, s')) : s.log.size < s'.log.size := by
  cases hr
  have hcommit (u : Session) (la : Lookahead) : u.log.size < (u.commit la).log.size := by
    rw [Session.commit, Array.size_push]
    exact Nat.lt_succ_self _
  show s.log.size < s.bump.2.log.size
  unfold Session.bump
  split
  · exact hcommit _ _
  · obtain ⟨la, hla⟩ := Option.isSome_iff_exists.1 (peek_isSome s .lexical)
    simp only [hla]
    exact (Session.peek_before s .lexical).size_le.trans_lt (hcommit _ _)

theorem bump_grows {kind : NodeKind} {field : Option String} {s s' : Session} {ns : List Node}
    (hr : bump kind field s = .ok (ns, s')) : s.log.size < s'.log.size := by
  obtain ⟨extras, s₁, hflush, hr⟩ := bind_ok hr
  obtain ⟨n, s₂, hleaf, hr⟩ := bind_ok hr
  obtain ⟨-, rfl⟩ := pure_ok hr
  exact (flush_forward.size_le hflush).trans_lt (leaf_grows hleaf)

theorem skipStep_forward (stop : TokenSet) (a : Skipped) : Forward (skipStep stop a) :=
  (skipStep_built stop a).forward

theorem skipStep_strides {stop : TokenSet} (hstop : T.Fit stop) :
    Strides T P (skipStep stop) (skipStep stop) where
  mirrors a b := by
    refine (peek_mirrors hstop).bind fun t u => .ite (fun hp => ?_) (.pure fun hp => ?_) ?_
    · obtain ⟨⟨-, -, -, hcount, hnest⟩, ht⟩ := hp
      rw [T.kind_eq ht, hcount, hnest]
    · exact ⟨rfl, hp.1.2⟩
    · have hbump : Mirrors T ((P ∧ link T a b) ∧ link T t u) (bump (.ofToken t.kind))
          (bump (.ofToken u.kind)) :=
        Mirrors.same (f := fun k => bump (.ofToken k)) (g := fun k => bump (.ofToken k))
          (fun hp => T.kind_eq hp.2) fun k => bump_mirrors (.ofToken k) none
      refine hbump.bind fun ns ns' => .pure fun hp => ?_
      obtain ⟨⟨⟨-, hnodes, hfirst, hcount, hnest⟩, ht⟩, hns⟩ := hp
      refine ⟨rfl, link_append hnodes hns, link_or hfirst ht, congrArg (· + 1) hcount, ?_⟩
      · show nestAfter b.nest u.kind = nestAfter a.nest t.kind
        rw [hnest, T.kind_eq ht]
  grows hp a b s t r s' hab hst hr hgood hgo := by
    obtain ⟨u, s₁, hpeek, hr⟩ := bind_ok hr
    split at hr
    · obtain ⟨rfl, -⟩ := pure_ok hr
      cases hgo
    · obtain ⟨ns, s₂, hbump, hr⟩ := bind_ok hr
      obtain ⟨-, rfl⟩ := pure_ok hr
      exact ((peek_forward stop).size_le hpeek).trans_lt (bump_grows hbump)

/-- Both parses have found something or none has. -/
theorem Mirrors.elim {x y : Option α} {p q : Parser β} {f g : α → Parser β}
    (h : P → link T x y) (hnone : Mirrors T P p q)
    (hsome : ∀ t u, Mirrors T (P ∧ link T t u) (f t) (g u)) :
    Mirrors T P (x.elim p f) (y.elim q g) := by
  refine ⟨?_, ?_, fun hp => ?_⟩
  · cases x with
    | none => exact hnone.forward
    | some t => exact (hsome t t).forward
  · cases y with
    | none => exact hnone.forward'
    | some u => exact (hsome u u).forward'
  · cases h hp with
    | none => exact hnone.follow hp
    | some htu => exact (hsome _ _).follow ⟨hp, htu⟩

theorem wrapUp_mirrors {extras extras' : List Node} {a b : Skipped} {t u : Token}
    (hextras : P → link T extras extras') (hab : P → link T a b) (htu : P → T.Tok t u) :
    Mirrors T P (wrapUp extras a t) (wrapUp extras' b u) := by
  have hwrap : Mirrors T P (do return extras ++ [← branch .error a.nodes.toList])
      (do return extras' ++ [← branch .error b.nodes.toList]) :=
    (branch_mirrors (by decide) fun hp => (hab hp).1).bind fun n n' => .pure fun hp =>
      List.rel_append (hextras hp.1) (.cons hp.2 .nil)
  refine .ite (fun hp => ?_) (.pure fun hp => ?_) (.ite (fun hp => ?_) ?_ hwrap)
  · obtain ⟨hnodes, -, hcount, -⟩ := hab hp
    have hsize : b.nodes.size = a.nodes.size := by
      rw [← Array.length_toList, ← Array.length_toList]
      exact hnodes.length_eq.symm
    rw [hcount, hsize, T.kind_eq (htu hp)]
  · exact List.rel_append (hextras hp) (hab hp).1
  · rw [T.kind_eq (htu hp)]
  · refine (complain_mirrors fun hp => ?_).bind fun _ _ => hwrap.weaken And.left
    rw [T.kind_eq (htu hp)]
    exact T.complaint _ _ (T.start (htu hp))

theorem skip_mirrors {stop : TokenSet} (hstop : T.Fit stop) :
    Mirrors T P (skip stop) (skip stop) := by
  have hempty : link T ({} : Skipped) ({} : Skipped) := ⟨.nil, .none, rfl, rfl⟩
  rw [skip_eq]
  refine flush_mirrors.bind fun extras extras' =>
    (loop_mirrors (skipStep_strides hstop) fun _ => hempty).bind fun a b => ?_
  exact .elim (fun hp => hp.2.2.1) (.pure fun hp => hp.1.2) fun t u =>
    wrapUp_mirrors (fun hp => hp.1.1.2) (fun hp => hp.1.2) And.right

theorem peek_faced_ne {cap : Nat} {text : List Char} {s s' : Session} {V : TokenSet} {t : Token}
    (hs : s.Sits cap text) (hf : s.Faced) (hr : peek V s = .ok (t, s')) : t.kind ≠ .eof := by
  obtain ⟨rfl, rfl⟩ := peek_ok hr
  obtain ⟨p, hp⟩ := hs.stands
  obtain ⟨la, -, -, htoken, hla, -⟩ := Session.peek_stays hp hf.1 V
  rw [← htoken]
  exact fun he => hf.2 ((hp.eof_iff hla).1 he)

/-- Something is skipped where a token stands next. -/
theorem skip_grows {cap : Nat} {text : List Char} {s s' : Session} {stop : TokenSet}
    {ns : List Node} (hs : s.Sits cap text) (hf : s.Faced) (hr : skip stop s = .ok (ns, s')) :
    s.log.size < s'.log.size := by
  rw [skip_eq] at hr
  obtain ⟨extras, s₁, hflush, hr⟩ := bind_ok hr
  obtain ⟨a, s₂, hloop, hr⟩ := bind_ok hr
  have hrest : s₂.log.size ≤ s'.log.size := by
    cases ha : a.first with
    | none => exact (Forward.pure extras).size_le (ha ▸ hr)
    | some t => exact (wrapUp_built extras a t).forward.size_le (by rwa [ha] at hr)
  refine Nat.lt_of_lt_of_le ?_ hrest
  cases hflush
  have hs₁ : s.takeExtras.2.Sits cap text := by
    obtain ⟨p, hp⟩ := hs.stands
    exact ⟨⟨p, hp.takeExtras⟩, hs.plain⟩
  have hf₁ : s.takeExtras.2.Faced := hf
  have hloop : iterate (skipStep stop) (s.takeExtras.2.remaining + 1) {} s.takeExtras.2
      = .ok (a, s₂) := hloop
  obtain ⟨⟨go, b⟩, s₃, hstep, hloop⟩ := bind_ok hloop
  have hgo : s₃.log.size ≤ s₂.log.size := by
    cases go with
    | true => exact (iterate_forward (skipStep_forward stop) _ b).size_le hloop
    | false => exact (Forward.pure b).size_le hloop
  refine Nat.lt_of_lt_of_le ?_ hgo
  obtain ⟨u, s₄, hpeek, hstep⟩ := bind_ok hstep
  rw [if_neg (by simp [peek_faced_ne hs₁ hf₁ hpeek])] at hstep
  obtain ⟨ms, s₅, hbump, hstep⟩ := bind_ok hstep
  obtain ⟨-, rfl⟩ := pure_ok hstep
  have hsize : s.takeExtras.2.log.size ≤ s₄.log.size := (peek_forward stop).size_le hpeek
  exact Nat.lt_of_le_of_lt hsize (bump_grows hbump)

theorem fit_union {V W : TokenSet} (hV : T.Fit V) (hW : T.Fit W) : T.Fit (V ∪ W) := by
  intro hs
  rw [TokenSet.contains_union, hV hs, hW hs]
  rfl

theorem fit_single {kind : Kind} (h : kind ≠ .jsonSpan) : T.Fit (.single kind) := by
  intro _
  rw [single_jsonSpan, decide_eq_false h]

theorem fit_insert {V : TokenSet} {kind : Kind} (hV : T.Fit V) (h : kind ≠ .jsonSpan) :
    T.Fit (V.insert kind) :=
  fit_union hV (fit_single h)

theorem fit_recover {sync first : TokenSet} (hsync : T.Fit sync) (hfirst : T.Fit first) :
    T.Fit (first ∪ recoverSet sync first) :=
  fit_union hfirst fun hs => recoverSet_jsonSpan (hsync hs)

theorem recoverTo_mirrors {sync first : TokenSet} (hsync : T.Fit sync) (hfirst : T.Fit first) :
    Mirrors T P (recoverTo sync first) (recoverTo sync first) := by
  have hstop := fit_recover hsync hfirst
  refine (peek_mirrors hstop).bind fun t u => .ite (fun hp => ?_) (.pure fun _ => ⟨rfl, .nil⟩)
    (.ite (fun hp => ?_) (.pure fun _ => ⟨rfl, .nil⟩) ?_)
  · rw [T.kind_eq hp.2]
  · rw [T.kind_eq hp.2]
  · refine (skip_mirrors hstop).bind fun ns ns' => (peek_mirrors hstop).bind fun t u =>
      .pure fun hp => ⟨?_, hp.1.2⟩
    show first.contains t.kind = first.contains u.kind
    rw [T.kind_eq hp.2]

/-- A token that has been found is taken as a leaf. -/
theorem taken_mirrors (kind : NodeKind) (field : Option String) {ns ns' : List Node}
    (h : P → link T ns ns') : Mirrors T P
      (do let extras ← flush; return (true, ns ++ extras ++ [(← leaf kind).label field]))
      (do let extras ← flush; return (true, ns' ++ extras ++ [(← leaf kind).label field])) :=
  flush_mirrors.bind fun _ _ => (leaf_mirrors kind).bind fun _ _ => .pure fun hp =>
    ⟨rfl, List.rel_append (List.rel_append (h hp.1.1) hp.1.2) (.cons (T.label field hp.2) .nil)⟩

theorem expectAs?_fit {sync : TokenSet} {want : Kind} (kind : NodeKind) (field : Option String)
    (hsync : T.Fit sync) (hwant : T.Fit (.single want)) :
    Mirrors T P (expectAs? sync want kind field) (expectAs? sync want kind field) := by
  refine (recoverTo_mirrors hsync hwant).bind fun r r' => .ite (fun hp => ?_)
    (taken_mirrors kind field fun hp => hp.2.2) ?_
  · rw [show r.1 = r'.1 from hp.2.1]
  · exact (missing_mirrors kind _).bind fun _ _ => .pure fun hp =>
      ⟨rfl, List.rel_append hp.1.2.2 (.cons (T.label field hp.2) .nil)⟩

/-- Without a complaint a token is where it is wanted, or none is said to have been found. -/
theorem recoverTo_run {cap : Nat} {text : List Char} {sync first : TokenSet} {s s' : Session}
    {r : Bool × List Node} (hs : s.Sits cap text) (hr : recoverTo sync first s = .ok (r, s'))
    (hclean : s'.faults = 0) (hfound : r.1 = true) :
    r = (true, []) ∧ peek (first ∪ recoverSet sync first) s
        = .ok ((s.peek (first ∪ recoverSet sync first)).1, s')
      ∧ first.contains (s.peek (first ∪ recoverSet sync first)).1.kind := by
  obtain ⟨t, s₁, hpeek, hr⟩ := bind_ok hr
  obtain ⟨hsits, hfaces⟩ := Session.peek_took hs (first ∪ recoverSet sync first)
  have hrun := hpeek
  obtain ⟨rfl, rfl⟩ := peek_ok hpeek
  split at hr
  · rename_i hcontains
    obtain ⟨rfl, rfl⟩ := pure_ok hr
    exact ⟨rfl, hrun, hcontains⟩
  · split at hr
    · obtain ⟨rfl, rfl⟩ := pure_ok hr
      cases hfound
    · rename_i hstop
      obtain ⟨ns, s₂, hskip, hr⟩ := bind_ok hr
      obtain ⟨t, s₃, hpeek, hr⟩ := bind_ok hr
      obtain ⟨rfl, rfl⟩ := pure_ok hr
      obtain ⟨ts, htook, hquiet⟩ := skip_run hsits.sits hskip
      have hfaults := ((peek_forward _) _ _ _ hpeek).faults
      have hbefore := htook.faults
      exact absurd (.inl ((hquiet (by omega)).2 _ hfaces)) hstop

theorem missing_run {kind : NodeKind} {what : String} {n : Node} {s s' : Session}
    (hr : missing kind what s = .ok (n, s')) :
    s.faults < s'.faults ∧ s'.cursor = s.cursor := by
  obtain ⟨l, s₁, hhere, hr⟩ := bind_ok hr
  obtain ⟨-, rfl⟩ := here_ok hhere
  obtain ⟨u, s₂, hcomplain, hr⟩ := bind_ok hr
  obtain ⟨-, rfl⟩ := pure_ok hr
  cases hcomplain
  refine ⟨?_, rfl⟩
  simp only [Session.faults, Array.size_push]
  omega

theorem leaf_log {kind : NodeKind} {n : Node} {s s' : Session} {la : Lookahead}
    (h : s.lookahead = some la) (hr : leaf kind s = .ok (n, s')) :
    s'.log.toList = s.log.toList ++ [la.scanned] := by
  cases hr
  show s.bump.2.log.toList = _
  unfold Session.bump
  rw [h]
  exact Array.toList_push

/-- A JSON value that is asked for is one that the first parse takes. -/
theorem expectAs?_json {sync : TokenSet} (kind : NodeKind) (field : Option String)
    (hstrict : T.strict) :
    Mirrors T P (expectAs? sync .jsonSpan kind field) (expectAs? sync .jsonSpan kind field) := by
  have hforward : Forward (expectAs? sync .jsonSpan kind field) :=
    (expectAs?_built _ _ _ _).forward
  refine ⟨hforward, hforward, fun hp s t a s' hst hr hgood => ?_⟩
  obtain ⟨⟨found, skipped⟩, s₁, hrecover, hr⟩ := bind_ok hr
  cases found with
  | false =>
    obtain ⟨n, s₂, hmissing, hr⟩ := bind_ok hr
    obtain ⟨-, rfl⟩ := pure_ok hr
    have hfaults := (missing_run hmissing).1
    rw [hgood.clean hstrict] at hfaults
    exact absurd hfaults (Nat.not_lt_zero _)
  | true =>
    have hr : (do let extras ← flush; return (true, skipped ++ extras
        ++ [(← leaf kind).label field])) s₁ = .ok (a, s') := hr
    have htaken : Mirrors T P
        (do let extras ← flush; return (true, [] ++ extras ++ [(← leaf kind).label field]))
        (do let extras ← flush; return (true, [] ++ extras ++ [(← leaf kind).label field])) :=
      taken_mirrors kind field fun _ => .nil
    have hquiet : s₁.faults = 0 := by
      have hlog := (Forward.bind flush_forward fun extras =>
        .bind (leaf_forward kind) fun n => .pure (true, skipped ++ extras ++ [n.label field]))
          _ _ _ hr
      exact Nat.le_zero.1 (hlog.faults.trans (hgood.clean hstrict).le)
    obtain ⟨heq, hpeek, hkind⟩ := recoverTo_run hst.sits hrecover hquiet rfl
    cases heq
    have hgood₁ := hgood.of_before (htaken.forward _ _ _ hr)
    generalize hV : TokenSet.single .jsonSpan ∪ recoverSet sync (.single .jsonSpan) = V at *
    obtain ⟨-, rfl⟩ := peek_ok hpeek
    obtain ⟨-, la, hla, -, htoken⟩ := Session.peek_took hst.sits V
    have hjson : (s.peek V).1.kind = .jsonSpan := by
      rw [TokenSet.contains_single] at hkind
      exact TokenSet.index_inj rfl (of_decide_eq_true hkind)
    have hsought : Pair.Sought T V (s.peek V).2 := by
      refine .inr ⟨la, hla, ?_, htoken ▸ hjson⟩
      obtain ⟨extras, s₂, hflush, hr⟩ := bind_ok hr
      obtain ⟨n, s₃, hleaf, hr⟩ := bind_ok hr
      obtain ⟨-, rfl⟩ := pure_ok hr
      cases hflush
      have hlog : _ = (s.peek V).2.log.toList ++ [la.scanned] :=
        leaf_log (s := (s.peek V).2.takeExtras.2) hla hleaf
      rw [← hlog]
      exact hgood.takes
    obtain ⟨htok, hpair⟩ := hst.peek hgood₁ hsought
    obtain ⟨b, t', ht', hab, hpair'⟩ := htaken.follow hp hpair hr hgood
    refine ⟨b, t', ?_, hab, hpair'⟩
    have hjson' : (t.peek V).1.kind = .jsonSpan := (T.kind_eq htok).trans hjson
    have hcontains : (TokenSet.single .jsonSpan).contains (t.peek V).1.kind := by
      rw [hjson']
      simp
    have hrecover' : recoverTo sync (.single .jsonSpan) t = .ok ((true, []), (t.peek V).2) := by
      have hpeek' : peek V t = .ok ((t.peek V).1, (t.peek V).2) :=
        peek_of_kind (by rw [hjson']; exact Kind.noConfusion)
      unfold recoverTo
      rw [hV, bind_run hpeek', if_pos hcontains]
      rfl
    exact (bind_run hrecover').trans ht'

theorem expectAs?_mirrors {sync : TokenSet} (want : Kind) (kind : NodeKind) (field : Option String)
    (hsync : T.Fit sync) :
    Mirrors T P (expectAs? sync want kind field) (expectAs? sync want kind field) := by
  by_cases hwant : T.Fit (.single want)
  · exact expectAs?_fit kind field hsync hwant
  · have hstrict : T.strict := by
      by_contra h
      exact hwant fun hs => absurd hs h
    have hjson : want = .jsonSpan := by
      by_contra h
      exact hwant (fit_single h)
    subst hjson
    exact expectAs?_json kind field hstrict

theorem expect?_mirrors {sync : TokenSet} (want : Kind) (field : Option String)
    (hsync : T.Fit sync) : Mirrors T P (expect? sync want field) (expect? sync want field) :=
  expectAs?_mirrors want _ field hsync

theorem expect_mirrors {sync : TokenSet} (want : Kind) (field : Option String)
    (hsync : T.Fit sync) : Mirrors T P (expect sync want field) (expect sync want field) :=
  (expect?_mirrors want field hsync).bind fun _ _ => .pure fun hp => hp.2.2

/-! ## Elements -/

/-- A session that has found a token other than the end faces one. -/
theorem peek_faced_of_ne {cap : Nat} {text : List Char} {s s' : Session} {V : TokenSet} {t : Token}
    (hs : s.Sits cap text) (hr : peek V s = .ok (t, s')) (ht : t.kind ≠ .eof) :
    s'.Sits cap text ∧ s'.Faced := by
  obtain ⟨rfl, rfl⟩ := peek_ok hr
  obtain ⟨hsits, la, hla, -, htoken⟩ := Session.peek_took hs V
  obtain ⟨p, hp⟩ := hsits.sits.stands
  refine ⟨hsits.sits, hsits.sits.plain (by simp [hla]), fun hend => ht ?_⟩
  rw [← htoken]
  exact (hp.eof_iff (hp.lookahead la hla)).2 hend

variable {element element' : Parser α} {k k' : α → List Node → Parser β} {stop : TokenSet}

theorem progress_forward {δ : Type} {element : Parser γ} {k : γ → List Node → Parser δ}
    (h : Forward element) (stop : TokenSet) (hk : ∀ a ns, Forward (k a ns)) :
    Forward (progress stop element k) :=
  (progress_built (.given h) stop fun a ns => .given (hk a ns)).forward

theorem progress_mirrors (h : Mirrors T P element element') (hstop : T.Fit stop)
    (hk : ∀ a b ns ms, Mirrors T (P ∧ link T a b ∧ link T ns ms) (k a ns) (k' b ms)) :
    Mirrors T P (progress stop element k) (progress stop element' k') := by
  refine ⟨progress_forward h.forward stop fun a ns => (hk a a ns ns).forward,
    progress_forward h.forward' stop fun a ns => (hk a a ns ns).forward', ?_⟩
  intro hp s t c s' hst hr hgood
  obtain ⟨a, s₁, h₁, hr⟩ := progress_run hr
  have hrest (x : α) (c d : Prop) [Decidable c] [Decidable d] (b : α) (hcd : c ↔ d) :
      Mirrors T (P ∧ link T x b) (if c then skip stop >>= k x else k x [])
        (if d then skip stop >>= k' b else k' b []) := by
    refine .ite (fun _ => hcd) ?_ ?_
    · exact (skip_mirrors hstop).bind fun ns ms => (hk x b ns ms).weaken fun hp =>
        ⟨hp.1.1, hp.1.2, hp.2⟩
    · exact (hk x b [] []).weaken fun hp => ⟨hp.1, hp.2, .nil⟩
  have hgood₁ := hgood.of_before ((hrest a _ _ a Iff.rfl).forward s₁ c s' hr)
  obtain ⟨b, t₁, ht₁, hab, hst₁⟩ := h.follow hp hst h₁ hgood₁
  obtain ⟨hbyte, -⟩ := hst.moved hst₁ (h.forward s a s₁ h₁) (h.forward' t b t₁ ht₁) hgood₁
  obtain ⟨d, t', ht', hcd, hst'⟩ := (hrest a _ _ b hbyte).follow ⟨hp, hab⟩ hst₁ hr hgood
  refine ⟨d, t', ?_, hcd, hst'⟩
  show (element' t).bind _ = _
  rw [ht₁]
  exact ht'

/-- In front of a token an element, or else the skip behind it, takes something. -/
theorem progress_grows {δ : Type} {k : α → List Node → Parser δ} {b : δ} {s s' t : Session}
    (h : Mirrors T P element element') (hk : ∀ a ns, Forward (k a ns)) (hp : P)
    (hst : Pair T s t) (hf : s.Faced) (hr : progress stop element k s = .ok (b, s'))
    (hgood : T.Good s') : s.log.size < s'.log.size := by
  obtain ⟨a, s₁, h₁, hr⟩ := progress_run hr
  have hskip : Forward (skip stop >>= k a) := .bind (skip_built stop).forward (hk a)
  have hrest : s₁.Before s' := by
    split at hr
    · exact hskip _ _ _ hr
    · exact hk a [] _ _ _ hr
  have hgood₁ := hgood.of_before hrest
  obtain ⟨b, t₁, ht₁, -, hst₁⟩ := h.follow hp hst h₁ hgood₁
  have hbefore := h.forward s a s₁ h₁
  by_cases hbyte : s₁.cursor.place.byte = s.cursor.place.byte
  · rw [if_pos hbyte] at hr
    obtain ⟨ns, s₂, hskip, hr⟩ := bind_ok hr
    obtain ⟨p, hs⟩ := hst.sits.stands
    obtain ⟨q, hs₁⟩ := hst₁.sits.stands
    have hgrows := skip_grows hst₁.sits (hf.of_stands hs hs₁ hbyte) hskip
    exact (hbefore.size_le.trans_lt hgrows).trans_le ((hk a ns).size_le hr)
  · refine lt_of_lt_of_le ?_ hrest.size_le
    obtain ⟨new, hnew, -⟩ := hbefore.log
    obtain ⟨p, hs⟩ := hst.sits.stands
    obtain ⟨q, hs₁⟩ := hst₁.sits.stands
    cases new with
    | nil => exact absurd ((hs.byte_of_log hs₁ hnew (by simp)).1 rfl) hbyte
    | cons u new =>
      rw [← Array.length_toList, ← Array.length_toList, hnew, List.length_append, List.length_cons]
      omega

/-- An element takes something behind the comments in front of it, too. -/
theorem flushed_grows {δ : Type} {k : List Node → α → List Node → Parser δ} {b : δ}
    {s s' t : Session} (h : Mirrors T P element element')
    (hk : ∀ extras a ns, Forward (k extras a ns)) (hp : P) (hst : Pair T s t) (hf : s.Faced)
    (hr : (flush >>= fun extras => progress stop element (k extras)) s = .ok (b, s'))
    (hgood : T.Good s') : s.log.size < s'.log.size := by
  obtain ⟨extras, s₁, hflush, hr⟩ := bind_ok hr
  cases hflush
  have hpair : Pair T s.takeExtras.2 t.takeExtras.2 := hst.takeExtras.2
  exact progress_grows (s := s.takeExtras.2) h (hk _) hp hpair hf hr hgood

section Items

variable {element element' : Parser Node} {nodes nodes' : Array Node}

theorem addItem_mirrors (hstop : T.Fit stop) (h : Mirrors T P element element')
    (hnodes : P → link T nodes nodes') :
    Mirrors T P (addItem stop element nodes) (addItem stop element' nodes') :=
  flush_mirrors.bind fun _ _ => progress_mirrors (h.weaken fun hp => hp.1) hstop fun _ _ _ _ =>
    .pure fun hp =>
      ⟨rfl, link_append (link_push (link_append (hnodes hp.1.1) hp.1.2) hp.2.1) hp.2.2⟩

theorem addItem_grows {s s' t : Session} {r : Bool × Array Node} (h : Mirrors T P element element')
    (hp : P) (hst : Pair T s t) (hf : s.Faced) (hr : addItem stop element nodes s = .ok (r, s'))
    (hgood : T.Good s') : s.log.size < s'.log.size :=
  flushed_grows h (fun _ _ _ => .pure _) hp hst hf hr hgood

end Items

/-- Looking at the next token leaves a pair, as long as the first parse goes on as it should. -/
theorem peek_pair {V : TokenSet} (hV : T.Fit V) {s s₁ s' t : Session} {u : Token}
    (hst : Pair T s t) (hr : peek V s = .ok (u, s₁)) (hrest : s₁.Before s') (hgood : T.Good s') :
    ∃ t₁, Pair T s₁ t₁ := by
  obtain ⟨-, t₁, -, -, hst₁⟩ :=
    (peek_mirrors (P := True) hV).follow trivial hst hr (hgood.of_before hrest)
  exact ⟨t₁, hst₁⟩

/-! ## Lists -/

instance : Linked Nat := ⟨fun _ => Eq⟩

instance : Linked Items :=
  ⟨fun T a b => link T a.nodes b.nodes ∧ b.lastComma = a.lastComma ∧ b.wantsItem = a.wantsItem
    ∧ b.count = a.count⟩

theorem rel_getElem? {R : γ → γ → Prop} {l l' : List γ} (h : List.Forall₂ R l l') :
    ∀ i : Nat, Option.Rel R l[i]? l'[i]? := by
  induction h with
  | nil => exact fun _ => .none
  | cons hab _ ih =>
    intro i
    cases i with
    | zero => exact .some hab
    | succ i => exact ih i

theorem rel_set {R : γ → γ → Prop} {x y : γ} (hxy : R x y) {l l' : List γ}
    (h : List.Forall₂ R l l') : ∀ i : Nat, List.Forall₂ R (l.set i x) (l'.set i y) := by
  induction h with
  | nil => exact fun _ => .nil
  | cons hab h ih =>
    intro i
    cases i with
    | zero => exact .cons hxy h
    | succ i => exact .cons hab (ih i)

theorem rejectComma_mirrors {a b : Items} (hab : P → link T a b) :
    Mirrors T P a.rejectComma b.rejectComma := by
  have hcomma (hp : P) : link T (a.lastComma.bind fun i => a.nodes[i]?.map (i, ·))
      (b.lastComma.bind fun i => b.nodes[i]?.map (i, ·)) := by
    obtain ⟨hnodes, hlast, -⟩ := hab hp
    rw [hlast]
    cases a.lastComma with
    | none => exact .none
    | some i =>
      have hrel := rel_getElem? hnodes i
      rw [Array.getElem?_toList, Array.getElem?_toList] at hrel
      show Option.Rel _ (a.nodes[i]?.map (i, ·)) (b.nodes[i]?.map (i, ·))
      generalize a.nodes[i]? = x at hrel ⊢
      generalize b.nodes[i]? = y at hrel ⊢
      cases hrel with
      | none => exact .none
      | some h => exact .some ⟨rfl, h⟩
  have hreject (a : Items) : a.rejectComma
      = (a.lastComma.bind fun i => a.nodes[i]?.map (i, ·)).elim (pure a.nodes) fun r => do
        complain (.syntactic "trailing comma" r.2.span.start)
        return a.nodes.setIfInBounds r.1 (.branch .error [r.2] r.2.span.start) := by
    unfold Items.rejectComma
    cases a.lastComma.bind fun i => a.nodes[i]?.map (i, ·) <;> rfl
  rw [hreject, hreject]
  refine .elim hcomma (.pure fun hp => (hab hp).1) fun r r' => ?_
  refine (complain_mirrors fun hp => T.complaint _ _ (T.span_start hp.2.2)).bind fun _ _ =>
    .pure fun hp => ?_
  obtain ⟨⟨hp, hindex, hnode⟩, -⟩ := hp
  show List.Forall₂ (link T) (a.nodes.setIfInBounds _ _).toList (b.nodes.setIfInBounds _ _).toList
  rw [Array.toList_setIfInBounds, Array.toList_setIfInBounds, ← show r.1 = r'.1 from hindex]
  exact rel_set (T.branch (by decide) (.cons hnode .nil) (T.span_start hnode)) (hab hp).1 _

variable {sync : TokenSet} {form : ListForm}

theorem ListForm.fit_continues (form : ListForm) (hfirst : T.Fit form.first) :
    T.Fit form.continues :=
  fit_insert (fit_insert hfirst Kind.noConfusion) Kind.noConfusion

theorem listClose_mirrors {a b : Items} {nodes nodes' : Array Node} (hab : Q → link T a b) :
    Mirrors T (Q ∧ link T nodes nodes') (listClose form a nodes) (listClose form b nodes') :=
  (bump_mirrors _ _).bind fun _ _ => .pure fun hp =>
    ⟨rfl, link_append hp.1.2 hp.2, (hab hp.1.1).2⟩

theorem listItem_mirrors {element element' : Parser (List Node)} {a b : Items}
    {comma comma' : List Node} (hstop : T.Fit stop) (h : Mirrors T Q element element')
    (hab : Q → link T a b) : Mirrors T (Q ∧ link T comma comma')
      (listItem stop element a comma) (listItem stop element' b comma') := by
  rw [listItem_eq, listItem_eq]
  refine flush_mirrors.bind fun extras extras' =>
    progress_mirrors (h.weaken fun hp => hp.1.1) hstop fun item item' ns ns' => .pure fun hp => ?_
  obtain ⟨⟨⟨hq, hcomma⟩, hextras⟩, hitem, hns⟩ := hp
  obtain ⟨hnodes, hlast, -, hcount⟩ := hab hq
  exact ⟨rfl, link_append (link_append (link_append (link_append hnodes hcomma) hextras) hitem) hns,
    hlast, rfl, congrArg (· + 1) hcount⟩

theorem listItem_grows {element element' : Parser (List Node)} {a : Items} {comma : List Node}
    {s s' t : Session} {r : Bool × Items} (h : Mirrors T P element element') (hp : P)
    (hst : Pair T s t) (hf : s.Faced) (hr : listItem stop element a comma s = .ok (r, s'))
    (hgood : T.Good s') : s.log.size < s'.log.size := by
  rw [listItem_eq] at hr
  exact flushed_grows h (fun _ _ _ => .pure _) hp hst hf hr hgood

theorem listStep_mirrors {element element' : Parser (List Node)} (hsync : T.Fit sync)
    (hfirst : T.Fit form.first) (h : Mirrors T P element element') (a b : Items) :
    Mirrors T (P ∧ link T a b) (listStep sync form element a) (listStep sync form element' b) := by
  have hstop := fit_union (ListForm.fit_continues form hfirst) hsync
  rw [listStep_eq, listStep_eq]
  refine (peek_mirrors hstop).bind fun t u => .ite (fun hp => ?_) ?_ (.ite (fun hp => ?_) ?_
    (.ite (fun hp => ?_) ?_ (.ite (fun hp => ?_) ?_ ?_)))
  · rw [T.kind_eq hp.2]
  · refine .ite (fun hp => ?_)
      ((rejectComma_mirrors fun hp => hp.1.2).bind fun _ _ => listClose_mirrors fun hp => hp.1.2)
      ((listClose_mirrors fun hp => hp.1.2).weaken fun hp => ⟨hp, hp.1.2.1⟩)
    obtain ⟨⟨-, -, -, hwants, hcount⟩, -⟩ := hp
    rw [hwants, hcount]
  · rw [T.kind_eq hp.2]
  · have item (comma comma' : List Node) : Mirrors T
        (((P ∧ link T a b) ∧ link T t u) ∧ link T comma comma') (listItem _ element a comma)
        (listItem _ element' b comma') :=
      listItem_mirrors hstop (h.weaken fun hp => hp.1.1) fun hp => hp.1.2
    refine .ite (fun hp => ?_) ((item [] []).weaken fun hp => ⟨hp, .nil⟩)
      ((missing_mirrors _ _).bind fun n n' => (item [n] [n']).weaken fun hp =>
        ⟨hp.1, .cons hp.2 .nil⟩)
    rw [show b.wantsItem = a.wantsItem from hp.1.2.2.2.1]
  · obtain ⟨⟨-, -, -, hwants, -⟩, ht⟩ := hp
    rw [T.kind_eq ht, hwants]
  · refine (bump_mirrors _ _).bind fun ns ns' => .pure fun hp => ?_
    have hnodes := link_append hp.1.1.2.1 hp.2
    refine ⟨rfl, hnodes, ?_, rfl, hp.1.1.2.2.2.2⟩
    show some ((b.nodes ++ ns').size - 1) = some ((a.nodes ++ ns).size - 1)
    rw [← Array.length_toList, ← Array.length_toList, List.Forall₂.length_eq hnodes]
  · rw [T.kind_eq hp.2]
  · exact (missing_mirrors _ _).bind fun n n' => .pure fun hp =>
      ⟨rfl, link_push hp.1.1.2.1 hp.2, hp.1.1.2.2⟩
  · exact (skip_mirrors hstop).bind fun ns ns' => .pure fun hp =>
      ⟨rfl, link_append hp.1.1.2.1 hp.2, hp.1.1.2.2⟩

theorem listStep_strides {element element' : Parser (List Node)} (hsync : T.Fit sync)
    (hfirst : T.Fit form.first) (heof : form.first.contains .eof = false)
    (h : Mirrors T P element element') :
    Strides T P (listStep sync form element) (listStep sync form element') where
  mirrors := listStep_mirrors hsync hfirst h
  grows hp a b s t r s' hab hst hr hgood hgo := by
    have hstop := fit_union (ListForm.fit_continues form hfirst) hsync
    rw [listStep_eq] at hr
    obtain ⟨u, s₁, hpeek, hr⟩ := bind_ok hr
    have hsize := (peek_forward _).size_le hpeek
    split at hr
    · have hdone : r.1 = false := by
        split at hr
        · obtain ⟨nodes, s₂, -, hr⟩ := bind_ok hr
          obtain ⟨ns, s₃, -, hr⟩ := bind_ok hr
          obtain ⟨rfl, -⟩ := pure_ok hr
          rfl
        · obtain ⟨ns, s₃, -, hr⟩ := bind_ok hr
          obtain ⟨rfl, -⟩ := pure_ok hr
          rfl
      rw [hdone] at hgo
      cases hgo
    · split at hr
      · rename_i hcontains
        have hne : u.kind ≠ .eof := by
          intro he
          rw [he, heof] at hcontains
          cases hcontains
        have hf := (peek_faced_of_ne hst.sits hpeek hne).2
        have hitem (comma : List Node) :
            Forward (listItem (form.continues ∪ sync) element a comma) :=
          (listItem_built (.given h.forward) _ a comma).forward
        refine hsize.trans_lt ?_
        split at hr
        · obtain ⟨t₁, hst₁⟩ := peek_pair hstop hst hpeek (hitem [] _ _ _ hr) hgood
          exact listItem_grows h hp hst₁ hf hr hgood
        · obtain ⟨n, s₂, hmissing, hr⟩ := bind_ok hr
          have hmirrors := missing_mirrors (T := T) (P := P) (.token (.punct .comma)) "`,`"
          have hrest := hitem [n] _ _ _ hr
          have hbefore := hmirrors.forward _ _ _ hmissing
          obtain ⟨t₁, hst₁⟩ := peek_pair hstop hst hpeek (hbefore.trans hrest) hgood
          obtain ⟨-, t₂, -, -, hst₂⟩ := hmirrors.follow hp hst₁ hmissing (hgood.of_before hrest)
          have hf₂ : s₂.Faced := hf.of_cursor (missing_run hmissing).2
          exact hbefore.size_le.trans_lt (listItem_grows h hp hst₂ hf₂ hr hgood)
      · split at hr
        · obtain ⟨ns, s₂, hbump, hr⟩ := bind_ok hr
          obtain ⟨-, rfl⟩ := pure_ok hr
          exact hsize.trans_lt (bump_grows hbump)
        · split at hr
          · obtain ⟨n, s₂, -, hr⟩ := bind_ok hr
            obtain ⟨rfl, -⟩ := pure_ok hr
            cases hgo
          · rename_i hend
            obtain ⟨ns, s₂, hskip, hr⟩ := bind_ok hr
            obtain ⟨-, rfl⟩ := pure_ok hr
            obtain ⟨hsits, hf⟩ := peek_faced_of_ne hst.sits hpeek fun he => hend (.inl he)
            exact hsize.trans_lt (skip_grows hsits hf hskip)

theorem list_mirrors {element element' : TokenSet → Parser (List Node)} {close : Punct}
    {first : TokenSet} {trailing : Bool} (hsync : T.Fit sync) (hfirst : T.Fit first)
    (heof : first.contains .eof = false)
    (h : ∀ sync, T.Fit sync → Mirrors T P (element sync) (element' sync)) :
    Mirrors T P (list sync ⟨close, first, trailing⟩ element)
      (list sync ⟨close, first, trailing⟩ element') := by
  have hinner := fit_union hsync (ListForm.fit_continues ⟨close, first, trailing⟩ hfirst)
  have hstrides : Strides T P (listStep sync ⟨close, first, trailing⟩ (element _))
      (listStep sync ⟨close, first, trailing⟩ (element' _)) :=
    listStep_strides hsync hfirst heof (h _ hinner)
  have hempty : link T ({} : Items) ({} : Items) := ⟨.nil, rfl, rfl, rfl⟩
  exact (loop_mirrors hstrides fun _ => hempty).bind fun a b => .pure fun hp => hp.2.1

end Parser

end Parse

end AvroTree
