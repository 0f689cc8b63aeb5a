import AvroTree.Proofs.Rendering
import AvroTree.Proofs.Retracing

/-!
# Brackets are closed again

Every rule of Avro closes the brackets it opens, in the right order, and no others
(`balanced_of_derives`). Behind a text in a known language that is parsed without complaints the
lexer is therefore in the state that it was in in front of it (`Lexer.Trail.turned`).
-/

namespace AvroTree

open Token (Kind)
open Lexer (Stand Trail)

/-- The brackets that are open behind some tokens. -/
def Token.Kind.turns (stack : List Bracket) (ks : List Kind) : Option (List Bracket) :=
  ks.foldlM Kind.turn stack

namespace Grammar

mutual

/-- The brackets that are open behind what a rule derives, as far as the rule tells by itself. What
it refers to is taken to close what it opens. -/
def turnOf (stack : List Bracket) : Rule → Option (List Bracket)
  | .token kind => kind.turn stack
  | .symbol _ => some stack
  | .seq members => turnOfSeq stack members
  | .choice members => if returnsAll stack members then some stack else none
  | .many inner | .many1 inner | .optional inner =>
    if turnOf stack inner = some stack then some stack else none
  | .field _ inner | .renamed inner _ => turnOf stack inner

def turnOfSeq (stack : List Bracket) : List Rule → Option (List Bracket)
  | [] => some stack
  | r :: rest => (turnOf stack r).bind fun stack => turnOfSeq stack rest

/-- Behind each of some rules the same brackets are open again. -/
def returnsAll (stack : List Bracket) : List Rule → Bool
  | [] => true
  | r :: rest => turnOf stack r == some stack && returnsAll stack rest

end

variable {g : Grammar} {r : Rule} {rs : List Rule} {k : Kind} {ks ls : List Kind}
  {stack stack' base : List Bracket}

/-- What is open around a token does not matter to it. -/
theorem turn_append (h : k.turn stack = some stack') (base : List Bracket) :
    k.turn (stack ++ base) = some (stack' ++ base) := by
  cases k with
  | punct p =>
    rw [Kind.turn] at h ⊢
    split at h
    · cases h
      rfl
    · split_ifs at h with hb
      cases h
      obtain ⟨rest, rfl⟩ := List.head?_eq_some_iff.1 hb
      simp
    · cases h
      rfl
  | _ =>
    cases h
    rfl

theorem turns_append (h : Kind.turns stack ks = some stack') (base : List Bracket) :
    Kind.turns (stack ++ base) ks = some (stack' ++ base) := by
  induction ks generalizing stack with
  | nil =>
    cases h
    rfl
  | cons k ks ih =>
    obtain ⟨mid, hk, hks⟩ := Option.bind_eq_some_iff.1 h
    exact Option.bind_eq_some_iff.2 ⟨_, turn_append hk base, ih hks⟩

theorem turnOf_of_mem (h : returnsAll stack rs) (hr : r ∈ rs) : turnOf stack r = some stack := by
  induction rs with
  | nil => cases hr
  | cons r' rs ih =>
    rw [returnsAll, Bool.and_eq_true, beq_iff_eq] at h
    rcases List.mem_cons.1 hr with rfl | hr
    · exact h.1
    · exact ih h.2 hr

/-- Every rule closes what it opens. -/
def Balanced (g : Grammar) : Prop :=
  ∀ e ∈ g.rules, turnOf [] e.2 = some []

instance (g : Grammar) : Decidable g.Balanced :=
  inferInstanceAs (Decidable (∀ e ∈ g.rules, _))

theorem turns_cat {mid : List Bracket} (h : Kind.turns stack ks = some mid)
    (h' : Kind.turns mid ls = some stack') : Kind.turns stack (ks ++ ls) = some stack' := by
  rw [Kind.turns, List.foldlM_append]
  exact Option.bind_eq_some_iff.2 ⟨mid, h, h'⟩

theorem Balanced.turns (hg : g.Balanced) (h : g.Derives r ks) : ∀ {stack stack' : List Bracket},
    turnOf stack r = some stack' → Kind.turns stack ks = some stack' := by
  have hsame {inner : Rule} {stack stack' : List Bracket}
      (h : (if turnOf stack inner = some stack then some stack else none) = some stack') :
      stack' = stack ∧ turnOf stack inner = some stack := by
    split_ifs at h with hinner
    cases h
    exact ⟨rfl, hinner⟩
  induction h with
  | token k => exact fun h => Option.bind_eq_some_iff.2 ⟨_, h, rfl⟩
  | symbol hr _ ih =>
    rintro stack _ ⟨⟩
    exact turns_append (ih (hg _ (mem_bodies.1 hr))) stack
  | seqNil =>
    rintro _ _ ⟨⟩
    rfl
  | seqCons _ _ ih ihs =>
    intro stack stack' h
    obtain ⟨mid, hr, hrs⟩ := Option.bind_eq_some_iff.1 h
    exact turns_cat (ih hr) (ihs hrs)
  | choice hr _ ih =>
    intro stack stack' h
    rw [turnOf] at h
    split_ifs at h with hall
    cases h
    exact ih (turnOf_of_mem hall hr)
  | manyNil =>
    intro stack stack' h
    obtain ⟨rfl, -⟩ := hsame h
    rfl
  | manyCons _ _ ih ihs | many1 _ _ ih ihs =>
    intro stack stack' h
    obtain ⟨rfl, hr⟩ := hsame h
    exact turns_cat (ih hr) (ihs h)
  | absent =>
    intro stack stack' h
    obtain ⟨rfl, -⟩ := hsame h
    rfl
  | present _ ih =>
    intro stack stack' h
    obtain ⟨rfl, hr⟩ := hsame h
    exact ih hr
  | field _ ih | renamed _ ih => exact ih

theorem avro_balanced : avro.Balanced := by
  decide +kernel

/-- What the grammar of Avro derives closes exactly the brackets it opens. -/
theorem balanced_of_derives {name : String} (h : avro.Derives (.symbol name) ks)
    (stack : List Bracket) : Kind.turns stack ks = some stack :=
  avro_balanced.turns h rfl

end Grammar

namespace Lexer

open Token.Kind (turns)

variable {cap : Nat} {V : TokenSet} {p q : Stand} {t : Scanned} {log : List Scanned} {k : Kind}
  {state : State} {stack : List Bracket}

theorem track_turned (h : k.turn state.stack = some stack) (hk : (track cap state k).1 = k) :
    (track cap state k).2 = { state with stack } := by
  cases k with
  | punct p =>
    rw [Kind.turn] at h
    rw [track] at hk ⊢
    cases hopen : Bracket.openedBy? p with
    | some b =>
      simp only [hopen] at h hk ⊢
      cases h
      split_ifs at hk ⊢
      rfl
    | none =>
      cases hclose : Bracket.closedBy? p with
      | some b =>
        simp only [hopen, hclose] at h ⊢
        split_ifs at h with hb
        cases h
        obtain ⟨rest, hrest⟩ := List.head?_eq_some_iff.1 hb
        simp [State.close, hrest]
      | none =>
        simp only [hopen, hclose] at h ⊢
        cases h
        rfl
  | _ =>
    cases h
    rfl

theorem turn_of_isExtra (h : k.isExtra) (stack : List Bracket) : k.turn stack = some stack := by
  cases k with
  | comment | docComment => rfl
  | _ => cases h

namespace Stand

/-- Behind a token of a known language the state differs only in the brackets that are open. -/
theorem next_turned (hp : p.Sound cap) (h : p.token? cap V = some t) (ht : t.token.kind.isMeant)
    (hmode : p.state.mode ≠ .unknown) (hturn : t.token.kind.turn p.state.stack = some stack) :
    (p.next cap V).state = { p.state with stack } := by
  cases hextra : t.token.kind.isExtra with
  | true =>
    rw [turn_of_isExtra hextra, Option.some.injEq] at hturn
    rw [(pass?_of_extra hp h hextra).2, ← hturn]
  | false =>
    obtain ⟨heof, herror⟩ := Kind.isMeant_iff.1 ht
    have hproper : t.token.kind.isProper := by
      rw [Kind.isProper, hextra]
      simpa using heof
    obtain ⟨c, cs, -, -, htrack, hnext, -⟩ := past_of_token? hp h hproper herror
    rw [hnext, past, track_turned hturn htrack, impliedMode_of_ne hmode]

end Stand

theorem Trail.turned (h : Trail cap p log q) (hp : p.Sound cap)
    (hlog : ∀ t ∈ log, t.token.kind.isMeant) (hmode : p.state.mode ≠ .unknown)
    (hturns : turns p.state.stack ((Scanned.proper log).map (·.kind)) = some stack) :
    q.state = { p.state with stack } := by
  induction h with
  | nil p =>
    cases hturns
    rfl
  | @cons p q t log ht _ ih =>
    have hmeant := hlog t List.mem_cons_self
    obtain ⟨mid, hmid, hrest⟩ : ∃ mid, t.token.kind.turn p.state.stack = some mid
        ∧ turns mid ((Scanned.proper log).map (·.kind)) = some stack := by
      cases hextra : t.token.kind.isExtra with
      | true =>
        exact ⟨_, turn_of_isExtra hextra _, by simpa [Scanned.proper, hextra] using hturns⟩
      | false =>
        have hproper : Scanned.proper (t :: log) = t.token :: Scanned.proper log := by
          simp [Scanned.proper, hextra]
        rw [hproper] at hturns
        exact Option.bind_eq_some_iff.1 hturns
    have hstate := Stand.next_turned hp ht hmeant hmode hmid
    have hq := ih (Stand.next_sound hp) (fun u hu => hlog u (List.mem_cons_of_mem t hu))
      (by rwa [hstate]) (by rwa [hstate])
    rw [hq, hstate]

end Lexer

end AvroTree
