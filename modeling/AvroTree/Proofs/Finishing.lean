import AvroTree.Proofs.IdlTaking
import AvroTree.Proofs.Mirroring

/-!
# Ends of declarations

A declaration that nothing is wrong with ends with taking a token (`declaration_ends`), so behind it
no next token has been looked for yet. Only an enum without a default is different: whether there is
a default is seen by the token behind its body.
-/

namespace AvroTree

open Token (Kind)

namespace Parse

open Session (Before Faces Anywhere)

/-- Nodes of which none is kept as a default. -/
def Bare (ns : List Node) : Prop :=
  ∀ n ∈ ns, n.field ≠ some "default"

namespace Bare

variable {ns ms : List Node} {n : Node}

theorem nil : Bare [] :=
  fun _ hn => absurd hn List.not_mem_nil

theorem append (h : Bare ns) (h' : Bare ms) : Bare (ns ++ ms) :=
  fun n hn => (List.mem_append.1 hn).elim (h n) (h' n)

theorem right (h : ¬Bare (ns ++ ms)) (hns : Bare ns) : ¬Bare ms :=
  fun hms => h (hns.append hms)

theorem one (h : n.field ≠ some "default") : Bare [n] := by
  intro m hm
  rwa [List.mem_singleton.1 hm]

theorem one_of_none (h : n.field = none) : Bare [n] :=
  one (by simp [h])

theorem labelled {field : Option String} (hn : n.field = none) (h : field ≠ some "default") :
    Bare [n.label field] := by
  refine one ?_
  cases field with
  | none => rwa [Node.label, hn]
  | some f => exact h

theorem appendList {nodes : Array Node} (h : Bare nodes.toList) (hns : Bare ns) :
    Bare (nodes ++ ns).toList := by
  rw [Array.toList_appendList]
  exact h.append hns

end Bare

namespace Session

/-- What waits for its place are comments, under no label yet. -/
def Loose (s : Session) : Prop :=
  ∀ n ∈ s.extras.toList, n.isExtra ∧ n.field = none

theorem Loose.bare {s : Session} (h : s.Loose) : Bare s.extras.toList :=
  fun n hn => by simp [(h n hn).2]

/-- What happens to a session on the way: it goes forward, stays in its text and keeps its settings,
and nothing but comments comes to wait. -/
structure Onward (s s' : Session) : Prop where
  before : s.Before s'
  depth : s'.maxDepth = s.maxDepth
  loose : s.Loose → s'.Loose
  sits {cap : Nat} {text : List Char} : s.Sits cap text → s'.Sits cap text

variable {s s' t : Session} {la : Lookahead}

theorem Onward.refl (s : Session) : s.Onward s :=
  ⟨.refl s, rfl, id, id⟩

theorem Onward.trans (h : s.Onward s') (h' : s'.Onward t) : s.Onward t :=
  ⟨h.before.trans h'.before, h'.depth.trans h.depth, h'.loose ∘ h.loose, h'.sits ∘ h.sits⟩

theorem takeComment_loose {V : TokenSet} (hk : (s.scan V).scanned.token.kind.isExtra)
    (h : s.Loose) : (s.takeComment V).Loose := by
  intro n hn
  rw [show (s.takeComment V).extras = s.extras.push _ from rfl, Array.toList_push,
    List.mem_append, List.mem_singleton] at hn
  rcases hn with hn | rfl
  · exact h n hn
  · exact ⟨hk, rfl⟩

theorem fetch_loose (V : TokenSet) : ∀ (n : Nat) (s : Session),
    (fetch V n s).2.maxDepth = s.maxDepth ∧ (s.Loose → (fetch V n s).2.Loose)
  | n, s => by
    cases hk : (s.scan V).scanned.token.kind.isExtra with
    | false =>
      rw [fetch_of_not hk]
      exact ⟨rfl, id⟩
    | true =>
      cases n with
      | zero =>
        rw [fetch_zero]
        exact ⟨rfl, id⟩
      | succ n =>
        rw [fetch_succ hk]
        obtain ⟨hdepth, hloose⟩ := fetch_loose V n (s.takeComment V)
        exact ⟨hdepth, fun h => hloose (takeComment_loose hk h)⟩

theorem peek_onward (s : Session) (V : TokenSet) : s.Onward (s.peek V).2 := by
  refine ⟨peek_before s V, ?_, ?_, fun hs => (peek_took hs V).1.sits⟩
  all_goals
    unfold peek
    simp only []
    split
    · split
      · first
        | rfl
        | exact id
      · first
        | exact (fetch_loose _ _ s).1
        | exact (fetch_loose _ _ s).2
    · first
      | exact (fetch_loose _ _ s).1
      | exact (fetch_loose _ _ s).2

theorem commit_onward (hla : s.lookahead = some la) : s.Onward (s.commit la) := by
  refine ⟨commit_before s la, rfl, id, fun hs => ?_⟩
  obtain ⟨p, hp⟩ := hs.stands
  exact ⟨⟨_, hp.commit (hp.lookahead la hla)⟩, fun h => absurd rfl h⟩

theorem bump_onward (s : Session) : s.Onward s.bump.2 := by
  unfold bump
  split
  · exact commit_onward ‹_›
  · simp only []
    split
    · exact (peek_onward s _).trans (commit_onward ‹_›)
    · exact peek_onward s _

theorem bump_lookahead (s : Session) : s.bump.2.lookahead = none := by
  unfold bump
  split
  · rfl
  · simp only []
    split
    · rfl
    · assumption

theorem takeExtras_onward (s : Session) : s.Onward s.takeExtras.2 := by
  refine ⟨⟨le_rfl, [], (List.append_nil _).symm, fun _ h => h⟩, rfl, fun _ n hn => ?_, fun hs => ?_⟩
  · exact absurd hn List.not_mem_nil
  · obtain ⟨p, hp⟩ := hs.stands
    exact ⟨⟨p, hp.takeExtras⟩, hs.plain⟩

/-- The session stands in the text, and only comments wait. -/
structure Seated (cap : Nat) (text : List Char) (s : Session) : Prop where
  sits : s.Sits cap text
  loose : s.Loose

theorem Onward.seated {cap : Nat} {text : List Char} (h : s.Onward s') (hs : s.Seated cap text) :
    s'.Seated cap text :=
  ⟨h.sits hs.sits, h.loose hs.loose⟩

end Session

open Session (Onward Seated)

namespace Parser

variable {α β : Type} {p : Parser α} {f : α → Parser β} {s s' : Session} {a : α} {b : β}
  {cap : Nat} {text : List Char} {Q Q' : α → Prop}

/-- The parser lets sessions go onward. -/
def Steers {α : Type} (p : Parser α) : Prop :=
  ∀ s a s', p s = .ok (a, s') → s.Onward s'

theorem complain_steers (d : Diagnostic) : Steers (complain d) := by
  intro s u s' hr
  have hbefore := complain_forward d s u s' hr
  cases hr
  exact ⟨hbefore, rfl, id, fun hs => (complain_run hs rfl).1.sits⟩

theorem Steers.bind (hp : Steers p) (hf : ∀ a, Steers (f a)) : Steers (p >>= f) := by
  intro s b s' hr
  obtain ⟨a, s₁, h₁, h₂⟩ := bind_ok hr
  exact (hp s a s₁ h₁).trans (hf a s₁ b s' h₂)

/-- What is built of the moves lets sessions go onward. -/
theorem Built.steers (h : Built (fun _ q => Steers q) p) : Steers p := by
  induction h with
  | given h => exact h
  | pure a =>
    intro s b s' hr
    obtain ⟨-, rfl⟩ := pure_ok hr
    exact .refl s
  | bind _ _ hp hf => exact hp.bind hf
  | ask g _ _ hk => exact fun s a s' hr => hk (g s) s a s' hr
  | peek valid =>
    intro s t s' hr
    obtain ⟨-, rfl⟩ := peek_ok hr
    exact s.peek_onward valid
  | flush =>
    intro s ns s' hr
    cases hr
    exact s.takeExtras_onward
  | leaf kind =>
    intro s n s' hr
    cases hr
    exact s.bump_onward
  | complain d => exact complain_steers d

theorem tooDeep_steers (place : Location) : Steers (tooDeep place : Parser α) :=
  fun _ _ _ hr => (tooDeep_ok hr).elim

/-- If nothing is wrong and the result is as `Q` says, the parser has ended with taking a token. -/
structure Ends (p : Parser α) (Q : α → Prop) : Prop where
  steers : Steers p
  taken {cap : Nat} {text : List Char} {s s' : Session} {a : α} (hs : s.Seated cap text)
    (hr : p s = .ok (a, s')) (hfaults : s'.faults = s.faults) (ha : Q a) : s'.lookahead = none

namespace Ends

theorem mono (h : Ends p Q) (hQ : ∀ a, Q' a → Q a) : Ends p Q' :=
  ⟨h.steers, fun hs hr hfaults ha => h.taken hs hr hfaults (hQ _ ha)⟩

/-- Behind something else. -/
theorem after {Q : β → Prop} (hp : Steers p) (hf : ∀ a, Ends (f a) Q) : Ends (p >>= f) Q := by
  refine ⟨hp.bind fun a => (hf a).steers, fun hs hr hfaults hb => ?_⟩
  obtain ⟨a, s₁, h₁, h₂⟩ := bind_ok hr
  have hon := hp _ _ _ h₁
  have hle := hon.before.faults
  have hle' := ((hf a).steers _ _ _ h₂).before.faults
  exact (hf a).taken (hon.seated hs) h₂ (by omega) hb

/-- In front of something that takes no token. -/
theorem ret {g : α → β} {Q' : β → Prop} (h : Ends p Q) (hQ : ∀ a, Q' (g a) → Q a) :
    Ends (p >>= fun a => pure (g a)) Q' := by
  refine ⟨h.steers.bind fun a => (Built.pure _).steers, fun hs hr hfaults hb => ?_⟩
  obtain ⟨a, s₁, h₁, h₂⟩ := bind_ok hr
  obtain ⟨rfl, rfl⟩ := pure_ok h₂
  exact h.taken hs h₁ hfaults (hQ a hb)

theorem wrap {kind : NodeKind} {g : α → List Node} {Q' : Node → Prop} (h : Ends p Q)
    (hQ : ∀ a l, Q' (.branch kind (g a) l) → Q a) : Ends (p >>= fun a => branch kind (g a)) Q' := by
  refine ⟨h.steers.bind fun a => (branch_built _ _).steers, fun hs hr hfaults hb => ?_⟩
  obtain ⟨a, s₁, h₁, h₂⟩ := bind_ok hr
  cases h₂
  exact h.taken hs h₁ hfaults (hQ a _ hb)

/-- Behind a complaint there is nothing to show. -/
theorem complain {d : Diagnostic} {f : Unit → Parser α} (hf : ∀ u, Steers (f u)) :
    Ends (Parser.complain d >>= f) Q := by
  refine ⟨(complain_steers d).bind hf, fun hs hr hfaults _ => ?_⟩
  obtain ⟨u, s₁, h₁, h₂⟩ := bind_ok hr
  have hlt := (complain_run hs.sits h₁).2
  have hle := (hf u _ _ _ h₂).before.faults
  omega

theorem missing {kind : NodeKind} {what : String} {f : Node → Parser α} (hf : ∀ n, Steers (f n)) :
    Ends (Parser.missing kind what >>= f) Q := by
  unfold Parser.missing
  simp only [bind_assoc, pure_bind]
  exact .after here_built.steers fun l => .complain fun _ => hf _

/-- What never gives such a result. -/
theorem vain (h : Steers p) (hQ : ∀ {s a s'}, p s = .ok (a, s') → ¬Q a) : Ends p Q :=
  ⟨h, fun _ hr _ ha => absurd ha (hQ hr)⟩

theorem ite {c : Prop} [Decidable c] {q : Parser α} (hp : Ends p Q) (hq : Ends q Q) :
    Ends (if c then p else q) Q := by
  split
  · exact hp
  · exact hq

theorem none (h : ¬Q a) : Ends (pure a) Q := by
  refine .vain (Built.pure a).steers fun hr ha => ?_
  obtain ⟨rfl, -⟩ := pure_ok hr
  exact h ha

end Ends

theorem get_steers : Steers (get : Parser Session) := by
  intro s t s' hr
  obtain ⟨-, rfl⟩ := get_ok hr
  exact .refl s

theorem progress_ends {element : Parser α} {stop : TokenSet} {k : α → List Node → Parser β}
    {Q : β → Prop} (h : Steers element) (hk : ∀ a l, Ends (k a l) Q) :
    Ends (progress stop element k) Q := by
  refine .after get_steers fun _ => .after h fun a => .after get_steers fun _ => ?_
  dsimp only
  split
  · exact .after (skip_built _).steers fun l => hk a l
  · exact .after (Built.pure _).steers fun l => hk a l

theorem leaf_ends (kind : NodeKind) (Q : Node → Prop) : Ends (leaf kind) Q := by
  refine ⟨(Built.leaf kind).steers, fun _ hr _ _ => ?_⟩
  cases hr
  exact Session.bump_lookahead _

theorem bump_ends (kind : NodeKind) (field : Option String) (Q : List Node → Prop) :
    Ends (bump kind field) Q :=
  .after Built.flush.steers fun _ => (leaf_ends kind fun _ => True).ret fun _ _ => trivial

theorem expectAs?_ends (sync : TokenSet) (want : Kind) (kind : NodeKind) (field : Option String)
    (Q : Bool × List Node → Prop) : Ends (expectAs? sync want kind field) Q := by
  refine .after (recoverTo_built _ _).steers fun r =>
    .ite ?_ (.missing fun _ => (Built.pure _).steers)
  exact .after Built.flush.steers fun _ => (leaf_ends kind fun _ => True).ret fun _ _ => trivial

theorem expect_ends (sync : TokenSet) (want : Kind) (field : Option String)
    (Q : List Node → Prop) : Ends (expect sync want field) Q :=
  (expectAs?_ends _ _ _ _ fun _ => True).ret fun _ _ => trivial

/-- A token that is asked for and missing has been complained about. -/
theorem opened_ends {sync : TokenSet} {want : Kind} {field : Option String}
    {f : Bool × List Node → Parser β} {Q : β → Prop} (hwant : want.isMeant)
    (hsteers : ∀ r, Steers (f r)) (hf : ∀ ns, Ends (f (true, ns)) Q) :
    Ends (expect? sync want field >>= f) Q := by
  refine ⟨(expect?_built _ _ _).steers.bind hsteers, fun hs hr hfaults hb => ?_⟩
  obtain ⟨⟨found, ns⟩, s₁, h₁, h₂⟩ := bind_ok hr
  have hon := (expect?_built (T := fun _ q => Steers q) _ _ _).steers _ _ _ h₁
  have hle := hon.before.faults
  have hle' := (hsteers _ _ _ _ h₂).before.faults
  obtain ⟨-, ts, -, hfound⟩ := expect?_takes (C := Session.Anywhere) sync field hwant _ _ _ hs.sits
    trivial h₁
  obtain ⟨rfl, -⟩ := hfound (by omega)
  exact (hf ns).taken (hon.seated hs) h₂ (by omega) hb

/-! ## Loops -/

/-- A loop ends as its last step does, because it does not end for lack of steps. -/
theorem iterate_ends {step : α → Parser (Bool × α)} (h : ∀ a, Ends (step a) fun r => r.1 = false)
    (hgo : ∀ cap text a, Takes cap text Session.Anywhere (step a) (fun _ _ => True)
      fun r ts => r.1 → ts ≠ []) :
    ∀ (n : Nat) {a c : α} {s s' : Session}, s.Seated cap text → s.remaining < n →
      iterate step n a s = .ok (c, s') → s'.faults = s.faults → s'.lookahead = none
  | 0, a, c, s, s', hs, hn, hr, hfaults => absurd hn (Nat.not_lt_zero _)
  | n + 1, a, c, s, s', hs, hn, hr, hfaults => by
    obtain ⟨⟨go, b⟩, s₁, h₁, h₂⟩ := bind_ok hr
    have hon := (h a).steers _ _ _ h₁
    cases go with
    | false =>
      obtain ⟨rfl, rfl⟩ := pure_ok h₂
      exact (h a).taken hs h₁ hfaults rfl
    | true =>
      have hle := hon.before.faults
      have hle' := (iterate_built (T := fun _ q => Steers q)
        (fun a => .given (h a).steers) n b).steers _ _ _ h₂ |>.before.faults
      obtain ⟨-, ts, htook, hne⟩ := hgo cap text a _ _ _ hs.sits trivial h₁
      have hlt := hs.sits.remaining_lt htook.sits (htook.moved (hne (by omega) rfl))
      exact iterate_ends h hgo n (hon.seated hs) (by omega) h₂ (by omega)

theorem gather_ends {step : Array Node → Parser (Bool × Array Node)}
    (h : ∀ a, Ends (step a) fun r => r.1 = false)
    (hgo : ∀ cap text a, Takes cap text Session.Anywhere (step a) (fun _ _ => True)
      fun r ts => r.1 → ts ≠ []) (first : List Node) (Q : List Node → Prop) :
    Ends (gather step first) Q := by
  have hsteers : Built (fun _ q => Steers q) (gather step first) :=
    gather_built (fun a => .given (h a).steers) first
  refine ⟨hsteers.steers, fun {_ _ s _ _} hs hr hfaults _ => ?_⟩
  obtain ⟨nodes, s₁, h₁, h₂⟩ := bind_ok hr
  obtain ⟨-, rfl⟩ := pure_ok h₂
  exact iterate_ends h hgo (s.remaining + 1) hs (Nat.lt_succ_self _) h₁ hfaults

/-! ## What is not kept as a default -/

/-- None of the nodes `o` of the result is kept as a default. -/
def Spares (p : Parser α) (o : α → List Node) : Prop :=
  ∀ s a s', s.Loose → p s = .ok (a, s') → Bare (o a)

namespace Spares

variable {o : α → List Node} {o' : β → List Node}

theorem pure (h : Bare (o a)) : Spares (pure a) o := by
  intro s b s' _ hr
  obtain ⟨rfl, -⟩ := pure_ok hr
  exact h

theorem bind (hsteers : Steers p) (hp : Spares p o)
    (hf : ∀ a, Bare (o a) → Spares (f a) o') : Spares (p >>= f) o' := by
  intro s b s' hs hr
  obtain ⟨a, s₁, h₁, h₂⟩ := bind_ok hr
  exact hf a (hp s a s₁ hs h₁) s₁ b s' ((hsteers _ _ _ h₁).loose hs) h₂

theorem after (hsteers : Steers p) (hf : ∀ a, Spares (f a) o') : Spares (p >>= f) o' :=
  bind hsteers (o := fun _ => []) (fun _ _ _ _ _ => .nil) fun a _ => hf a

theorem ite {c : Prop} [Decidable c] {q : Parser α} (hp : Spares p o) (hq : Spares q o) :
    Spares (if c then p else q) o := by
  split
  · exact hp
  · exact hq

end Spares

theorem flush_spares : Spares flush id := by
  intro s ns s' hs hr
  cases hr
  exact hs.bare

theorem bump_spares (kind : NodeKind) {field : Option String} (h : field ≠ some "default") :
    Spares (bump kind field) id := by
  refine .bind Built.flush.steers flush_spares fun extras hextras => ?_
  intro s ns s' hs hr
  obtain ⟨n, s₁, h₁, h₂⟩ := bind_ok hr
  obtain ⟨rfl, -⟩ := pure_ok h₂
  cases h₁
  exact hextras.append (.labelled rfl h)

theorem branch_spares (kind : NodeKind) (ns : List Node) :
    Spares (branch kind ns) fun n => [n] := by
  intro s n s' _ hr
  cases hr
  exact .one_of_none rfl

/-- A loop whose steps add nothing that is kept as a default. -/
theorem loop_spares {step : α → Parser (Bool × α)} {o : α → List Node}
    (hsteers : ∀ a, Steers (step a)) (h : ∀ a, Bare (o a) → Spares (step a) fun r => o r.2)
    (ha : Bare (o a)) : Spares (loop step a) o := by
  intro s c s' hs hr
  refine (loop_keeps (fun a s => Bare (o a) ∧ s.Loose) ?_ ⟨ha, hs⟩ hr).1
  exact fun a s r s' hinv hr => ⟨h a hinv.1 s r s' hinv.2 hr, (hsteers a s r s' hr).loose hinv.2⟩

theorem skipStep_spares {stop : TokenSet} {a : Skipped} (ha : Bare a.nodes.toList) :
    Spares (skipStep stop a) fun r => r.2.nodes.toList := by
  refine .after (Built.peek _).steers fun t => .ite (.pure ha) ?_
  refine .bind (bump_built _ _).steers (bump_spares _ (by simp)) fun ns hns => .pure ?_
  exact ha.appendList hns

theorem wrapUp_spares {extras : List Node} {a : Skipped} (hextras : Bare extras)
    (ha : Bare a.nodes.toList) (t : Token) : Spares (wrapUp extras a t) id := by
  have hwrap : Spares (do return extras ++ [← branch .error a.nodes.toList]) id :=
    .bind (branch_built _ _).steers (branch_spares _ _) fun n hn => .pure (hextras.append hn)
  exact .ite (.pure (hextras.append ha)) (.ite (.after (complain_steers _) fun _ => hwrap) hwrap)

theorem skip_spares (stop : TokenSet) : Spares (skip stop) id := by
  rw [skip_eq]
  refine .bind Built.flush.steers flush_spares fun extras hextras => ?_
  refine .bind (loop_built (T := fun _ q => Steers q) (skipStep_built stop) _).steers
    (loop_spares (o := fun a => a.nodes.toList) (fun a => (skipStep_built stop a).steers)
      (fun _ => skipStep_spares) .nil) fun a ha => ?_
  cases a.first with
  | none => exact .pure hextras
  | some t => exact wrapUp_spares hextras ha t

theorem recoverTo_spares (sync first : TokenSet) : Spares (recoverTo sync first) Prod.snd := by
  refine .after (Built.peek _).steers fun t => .ite (.pure .nil) (.ite (.pure .nil) ?_)
  refine .bind (skip_built _).steers (skip_spares _) fun ns hns => ?_
  exact .after (Built.peek _).steers fun t => .pure hns

theorem expect_spares (sync : TokenSet) (want : Kind) {field : Option String}
    (h : field ≠ some "default") : Spares (expect sync want field) id := by
  refine .bind (o := Prod.snd) (expect?_built _ _ _).steers ?_ fun r hr => .pure hr
  refine .bind (recoverTo_built _ _).steers (recoverTo_spares _ _) fun r hskipped => .ite ?_ ?_
  · refine .bind Built.flush.steers flush_spares fun extras hextras => ?_
    intro s a s' _ hr
    obtain ⟨n, s₁, h₁, h₂⟩ := bind_ok hr
    obtain ⟨rfl, -⟩ := pure_ok h₂
    cases h₁
    exact (hskipped.append hextras).append (.labelled rfl h)
  · intro s a s' _ hr
    obtain ⟨n, s₁, h₁, h₂⟩ := bind_ok hr
    obtain ⟨rfl, -⟩ := pure_ok h₂
    cases h₁
    exact hskipped.append (.labelled rfl h)

/-- Behind nodes of which none is kept as a default. -/
theorem Ends.past {o : α → List Node} {Q : β → Prop} (hp : Steers p) (hspares : Spares p o)
    (hsteers : ∀ a, Steers (f a)) (hf : ∀ a, Bare (o a) → Ends (f a) Q) : Ends (p >>= f) Q := by
  refine ⟨hp.bind hsteers, fun hs hr hfaults hb => ?_⟩
  obtain ⟨a, s₁, h₁, h₂⟩ := bind_ok hr
  have hon := hp _ _ _ h₁
  have hle := hon.before.faults
  have hle' := (hsteers a _ _ _ h₂).before.faults
  exact (hf a (hspares _ _ _ hs.loose h₁)).taken (hon.seated hs) h₂ (by omega) hb

end Parser

open AvroTree.Parse.Parser

namespace Idl

variable {cap : Nat} {text : List Char} {s s' : Session} {sync : TokenSet}

theorem type_steers : BuiltType (fun _ q => Steers q) Idl.type :=
  type_built fun place => .given (tooDeep_steers place)

/-! ## Bodies -/

theorem bodyStep_ends {form : BodyForm} {element : Parser Node} (h : Steers element)
    (nodes : Array Node) : Ends (bodyStep sync form element nodes) fun r => r.1 = false := by
  rw [bodyStep_eq]
  refine .after (Built.peek _).steers fun t => .ite ?_ (.ite ?_ (.ite ?_ ?_))
  · exact (bump_ends _ _ fun _ => True).ret fun _ _ => trivial
  · exact .after Built.flush.steers fun _ => progress_ends h fun _ _ => .none Bool.noConfusion
  · exact .missing fun _ => (Built.pure _).steers
  · exact .after (skip_built _).steers fun _ => .none Bool.noConfusion

theorem body_ends {form : BodyForm} {element : TokenSet → Parser Node} {r : Rule}
    (h : ∀ sync, Steers (element sync))
    (hspends : ∀ cap text sync, Spends cap text (Offers form.first) (element sync) (Derived r))
    (hne : ∀ ts, Derived r ts → ts ≠ []) (Q : Node → Prop) : Ends (body sync form element) Q := by
  have hitems (opening : List Node) :
      Ends (gather (bodyStep sync form (element (sync ∪ form.continues))) opening)
        fun _ => True := by
    refine gather_ends (bodyStep_ends (h _)) (fun cap text nodes => ?_) _ _
    refine (bodyStep_takes (hspends cap text _) hne).imp (fun _ h => h) (fun _ _ h => h) ?_
    intro r ts hts hgo
    rw [if_pos hgo] at hts
    exact hts.1
  have hnodes (opening : List Node) (present : Bool) :
      Steers (bodyNodes sync form element opening present) := by
    unfold bodyNodes
    split
    · exact (hitems opening).steers
    · exact (Built.pure _).steers
  rw [body_eq]
  refine opened_ends rfl (fun r => ?_) fun opening => ?_
  · exact (bodyPresent_built _ _ _).steers.bind fun _ => (hnodes _ _).bind fun _ =>
      (branch_built _ _).steers
  · simp only [bodyPresent, bodyNodes, pure_bind, ↓reduceIte]
    exact (hitems opening).wrap fun _ _ _ => trivial

theorem recordRest_ends (Q : List Node → Prop) : Ends (recordRest sync) Q := by
  refine .after (expect_built _ _ _).steers fun name =>
    Ends.ret (Q := fun _ => True) ?_ fun _ _ => trivial
  exact body_ends (fun sync => (fieldDeclaration_built type_steers sync).steers)
    (fun _ _ _ => fieldDeclaration_spends) (fun ts h => h.ne_nil (by repeat constructor)) _

theorem protocolRest_ends (Q : List Node → Prop) : Ends (protocolRest sync) Q := by
  refine .after (expect_built _ _ _).steers fun name =>
    Ends.ret (Q := fun _ => True) ?_ fun _ _ => trivial
  exact body_ends (fun sync => (protocolMember_built type_steers sync).steers)
    (fun _ _ _ => protocolMember_spends) (fun ts h => h.ne_nil (by repeat constructor)) _

/-! ## Declarations -/

theorem semicolon_ends {β : Type} (f : List Node → β) (Q : β → Prop) :
    Ends (expect sync (.punct .semicolon) >>= fun closing => pure (f closing)) Q :=
  (expect_ends _ _ _ fun _ => True).ret fun _ _ => trivial

theorem enumDefault_ends (Q : Node → Prop) : Ends (enumDefault sync) Q :=
  .after (bump_built _ _).steers fun _ => .after (expect_built _ _ _).steers fun _ =>
    (expect_ends _ _ _ fun _ => True).wrap fun _ _ _ => trivial

theorem optionalDefault_ends : Ends (optionalDefault sync) (· ≠ []) :=
  .after (nextIs_built _).steers fun _ => .ite
    (.after Built.flush.steers fun _ => (enumDefault_ends fun _ => True).ret fun _ _ => trivial)
    (.none fun h => h rfl)

/-- An enum with a default ends with a semicolon. -/
theorem enumRest_ends : Ends (enumRest sync) fun ns => ¬Bare ns := by
  rw [enumRest_eq]
  refine .past (expect_built _ _ _).steers (expect_spares _ _ (by simp)) (fun name =>
    (enumBody_built _).steers.bind fun body => (optionalDefault_built _).steers.bind fun _ =>
      (Built.pure _).steers) fun name hname => ?_
  refine .after (enumBody_built _).steers fun body => optionalDefault_ends.ret ?_
  rintro _ h rfl
  exact h ((hname.append (.one (by simp [Node.label]))).append .nil)

theorem importRest_ends (Q : List Node → Prop) : Ends (importRest sync) Q := by
  rw [importRest_eq]
  exact .after (recoverTo_built _ _).steers fun _ => .after (importKind_built _).steers fun _ =>
    .after (expect_built _ _ _).steers fun _ => semicolon_ends _ _

theorem fixedRest_ends (Q : List Node → Prop) : Ends (fixedRest sync) Q :=
  .after (expect_built _ _ _).steers fun _ => .after (expect_built _ _ _).steers fun _ =>
    .after (expect_built _ _ _).steers fun _ => .after (expect_built _ _ _).steers fun _ =>
      semicolon_ends _ _

theorem message_ends (Q : List Node → Prop) : Ends (message sync) Q := by
  rw [message_eq]
  exact .after (messageResult_built type_steers _).steers fun _ =>
    .after (expect_built _ _ _).steers fun _ =>
      .after (parameterList_built type_steers _).steers fun _ =>
        .after (messageClause_built _).steers fun _ => semicolon_ends _ _

theorem declarationRest_ends (kind : NodeKind) :
    Ends (declarationRest protocolRest kind sync)
      fun ns => kind = .enumDeclaration → ¬Bare ns := by
  rw [declarationRest.eq_def]
  split
  · exact .after (expect_built _ _ _).steers fun _ => semicolon_ends _ _
  · exact .after (type_steers _ _).steers fun _ => semicolon_ends _ _
  · exact protocolRest_ends _
  · exact importRest_ends _
  · exact enumRest_ends.mono fun ns h => h rfl
  · exact fixedRest_ends _
  · exact recordRest_ends _

theorem annotationUse_spares : Spares (annotationUse sync) fun n => [n] :=
  .after (bump_built _ _).steers fun _ => .after (expect_built _ _ _).steers fun _ =>
    .after (expect_built _ _ _).steers fun _ => .after (expect_built _ _ _).steers fun _ =>
      branch_spares _ _

theorem annotationStep_spares {nodes : Array Node} (hnodes : Bare nodes.toList) :
    Spares (annotationStep sync nodes) fun r => r.2.toList := by
  refine .after (nextIs_built _).steers fun b => .ite ?_ (.pure hnodes)
  refine .bind Built.flush.steers flush_spares fun extras hextras => ?_
  refine .bind (annotationUse_built _).steers annotationUse_spares fun n hn => .pure ?_
  rw [Array.toList_push]
  exact (hnodes.appendList hextras).append hn

theorem annotations_spares : Spares (annotations sync) id := by
  have hsteers (nodes : Array Node) : Steers (annotationStep sync nodes) :=
    (annotationStep_built sync nodes).steers
  refine .bind (o := Array.toList) (loop_built (fun nodes => .given (hsteers nodes)) _).steers
    (loop_spares (o := Array.toList) hsteers (fun _ => annotationStep_spares) .nil)
      fun _ h => .pure h

theorem settleAnnotations_spares {kind : NodeKind} {notes : List Node} (h : Bare notes) :
    Spares (settleAnnotations kind notes) id := by
  refine .ite (.pure h) ?_
  refine .bind (branch_built _ _).steers (branch_spares _ _) fun wrapped hwrapped => ?_
  exact .after (complain_steers _) fun _ => .pure hwrapped

theorem bareDeclaration_ends (kind : NodeKind) (word : Kind) :
    Ends (bareDeclaration protocolRest kind word sync)
      fun ns => kind = .enumDeclaration → ¬Bare ns := by
  refine .ite (message_ends _) ?_
  refine .past (bump_built _ _).steers (bump_spares _ (by simp))
    (fun _ => (declarationRest_ends _).steers.bind fun _ => (Built.pure _).steers)
      fun word hword => ?_
  exact (declarationRest_ends kind).ret fun rest h hkind => Bare.right (h hkind) hword

/-- A declaration that nothing is wrong with ends with taking a token, unless it is an enum without
a default. -/
theorem declaration_ends :
    Ends (declaration sync) fun d => d.kind = .enumDeclaration → ¬Bare d.children := by
  have hrest (t : Token) (kind : NodeKind) (notes : List Node) : Steers (do
      let rest ← bareDeclaration protocolRest kind t.kind sync
      branch kind (notes ++ rest)) :=
    (bareDeclaration_ends kind t.kind).steers.bind fun _ => (branch_built _ _).steers
  unfold declaration
  rw [declarationWith_eq]
  refine .past (annotations_built _).steers annotations_spares ?_ fun notes hnotes => ?_
  · refine fun notes => (Built.peek _).steers.bind fun t => ?_
    split
    · exact here_built.steers.bind fun _ => (complain_steers _).bind fun _ => (Built.pure _).steers
    · exact (settleAnnotations_built _ _).steers.bind fun notes => hrest t _ notes
  refine .after (Built.peek _).steers fun t => ?_
  split
  · exact .after here_built.steers fun _ => .complain fun _ => (Built.pure _).steers
  · rename_i kind _
    refine .past (settleAnnotations_built _ _).steers (settleAnnotations_spares hnotes)
      (hrest t kind) fun notes hnotes => (bareDeclaration_ends kind t.kind).wrap ?_
    exact fun rest l hd hkind => Bare.right (hd hkind) hnotes

/-- A step of a file that goes on without complaints has read a declaration, and ends as that
does. -/
theorem programStep_ends {nodes nodes' : Array Node} (hs : s.Seated cap text)
    (hr : programStep nodes s = .ok ((true, nodes'), s')) (hfaults : s'.faults = s.faults) :
    ∃ d, nodes'.toList.getLast? = some d
      ∧ ((d.kind = .enumDeclaration → ¬Bare d.children) → s'.lookahead = none) := by
  rw [programStep_eq] at hr
  obtain ⟨t, s₁, hpeek, hr⟩ := bind_ok hr
  have hpeeked := (Built.peek (T := fun _ q => Steers q) _).steers _ _ _ hpeek
  obtain ⟨hfaces, -⟩ := peek_takes (C := Session.Anywhere) _ _ _ _ hs.sits trivial hpeek
  have hle := hpeeked.before.faults
  split at hr
  · obtain ⟨h, -⟩ := pure_ok hr
    cases h
  split at hr
  · obtain ⟨extras, s₂, hflush, hr⟩ := bind_ok hr
    obtain ⟨node, s₃, hnode, hr⟩ := progress_run hr
    have hflushed := (Built.flush (T := fun _ q => Steers q)).steers _ _ _ hflush
    have hseated := hflushed.seated (hpeeked.seated hs)
    have hdeclared := declaration_ends.steers _ _ _ hnode
    have hle₁ := hflushed.before.faults
    have hle₂ := hdeclared.before.faults
    obtain ⟨-, ts, htook, hts⟩ :=
      declaration_spends (C := Session.Anywhere) _ _ _ hseated.sits trivial hnode
    split at hr
    · rename_i hstay
      obtain ⟨skipped, s₄, hskip, hr⟩ := bind_ok hr
      obtain ⟨-, rfl⟩ := pure_ok hr
      have hle₃ := ((skip_built (T := fun _ q => Steers q) _).steers _ _ _ hskip).before.faults
      have hlt := htook.moved ((hts (by omega)).ne_nil (by repeat constructor))
      exact absurd hstay hlt.ne'
    · obtain ⟨h, rfl⟩ := pure_ok hr
      cases h
      refine ⟨node, by simp, fun hnode' => ?_⟩
      exact declaration_ends.taken hseated hnode (by omega) hnode'
  · rename_i heof _
    obtain ⟨ns, s₂, hskip, hr⟩ := bind_ok hr
    obtain ⟨-, rfl⟩ := pure_ok hr
    obtain ⟨-, _, htook, hvain⟩ :=
      skip_vain heof _ _ _ (hpeeked.seated hs).sits hfaces hskip
    have hle₁ := htook.faults
    exact (hvain (by omega)).elim

end Idl

end Parse

end AvroTree
