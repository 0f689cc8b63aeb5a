import AvroTree.Proofs.Retracing

/-!
# Texts that go on

A text that is parsed without complaints may go on with a newline and another text. Its declarations
are then read as before, step by step, as long as nothing is looked for behind its last token
(`Track.extending`).
-/

namespace AvroTree

open Token (Kind)
open Lexer (Stand Trail ahead)
open Lexer.Stand (Clean Keeps Near)

namespace Lexer.Stand

variable {cap : Nat} {V : TokenSet} {p q : Stand} {t u v : Scanned} {X Y Z : List Char}

/-- What is read for the same text is the same token. -/
theorem Near.token_eq (h : Near X Y Z p q) (ht : p.Keeps cap Y t) (hq : q.Sound cap)
    (hu : p.token? cap V = some u) (hv : q.token? cap V = some v)
    (hkind : v.token.kind = u.token.kind) (hnext : (q.next cap V).pre = (p.next cap V).pre) :
    v.token = u.token := by
  obtain ⟨g, x, -, -, hblanks, hblanks', hrest, hrest', -⟩ := h.parts ht
  have hstart : v.token.span.start = u.token.span.start := by
    rw [start_eq ht.sound hu, start_eq hq hv, hblanks, hblanks', hrest, hrest', h.pre,
      List.take_left, List.take_left]
  have hstop : v.token.span.stop = u.token.span.stop := by
    rw [stop_eq hu, stop_eq hv, hnext]
  obtain ⟨⟨kind, ⟨start, stop⟩⟩, _⟩ := v
  simp only at hkind hstart hstop
  rw [hkind, hstart, hstop]

end Lexer.Stand

namespace Parse

open Session (Before Pair)

/-! ## Steps that go on -/

namespace Parser

variable {α : Type} {step step' : α → Parser (Bool × α)} {a b c : α} {s t u : Session} {n m : Nat}

/-- From `a` and `s` some steps, all of which go on, lead to `b` and `t`. -/
inductive Goes (step : α → Parser (Bool × α)) (a : α) (s : Session) : Nat → α → Session → Prop
  | refl : Goes step a s 0 a s
  | snoc {n : Nat} {b c : α} {t u : Session} (h : Goes step a s n b t)
      (hr : step b t = .ok ((true, c), u)) : Goes step a s (n + 1) c u

namespace Goes

theorem cons (hr : step a s = .ok ((true, b), t)) (h : Goes step b t n c u) :
    Goes step a s (n + 1) c u := by
  induction h with
  | refl => exact .snoc .refl hr
  | snoc _ hr' ih => exact .snoc ih hr'

/-- A loop goes on where the steps have led to. -/
theorem iterate (h : Goes step a s n b t) : ∀ m,
    Parser.iterate step (n + m) a s = Parser.iterate step m b t := by
  induction h with
  | refl =>
    intro m
    rw [Nat.zero_add]
  | snoc _ hr ih =>
    intro m
    rw [Nat.add_assoc, Nat.add_comm 1 m, ih, Parser.iterate, bind_run hr]

/-- What every step lets sessions do the steps together let them do. -/
theorem rel {R : Session → Session → Prop} (h : Goes step a s n b t) (hrefl : R s s)
    (hstep : ∀ {a r t u}, R s t → step a t = .ok (r, u) → R s u) : R s t := by
  induction h with
  | refl => exact hrefl
  | snoc _ hr ih => exact hstep ih hr

end Goes

/-- A loop that has steps enough comes to one that stops. -/
theorem iterate_goes (Inv : α → Session → Prop)
    (hstep : ∀ a s r s', Inv a s → step a s = .ok (r, s') →
      Inv r.2 s' ∧ (r.1 → s'.remaining < s.remaining)) :
    ∀ (n : Nat) {a c : α} {s u : Session}, Inv a s → s.remaining < n →
      Parser.iterate step n a s = .ok (c, u) →
      ∃ m b t, Goes step a s m b t ∧ step b t = .ok ((false, c), u)
  | 0, a, c, s, u, h, hn, hr => absurd hn (Nat.not_lt_zero _)
  | n + 1, a, c, s, u, h, hn, hr => by
    obtain ⟨⟨go, b⟩, t, h₁, h₂⟩ := bind_ok hr
    cases go with
    | false =>
      obtain ⟨rfl, rfl⟩ := pure_ok h₂
      exact ⟨0, a, s, .refl, h₁⟩
    | true =>
      obtain ⟨hinv, hlt⟩ := hstep a s _ t h h₁
      obtain ⟨m, b', t', hgoes, hlast⟩ :=
        iterate_goes Inv hstep n hinv (by have := hlt rfl; omega) h₂
      exact ⟨m + 1, b', t', .cons h₁ hgoes, hlast⟩

/-- A loop over steps that keep to what `g` does to their results does so itself. -/
theorem iterate_map {g : α → α} (h : ∀ a, step (g a) = (fun r => (r.1, g r.2)) <$> step a) :
    ∀ (n : Nat) (a : α), Parser.iterate step n (g a) = g <$> Parser.iterate step n a
  | 0, a => by rw [Parser.iterate, Parser.iterate, map_pure]
  | n + 1, a => by
    rw [Parser.iterate, Parser.iterate, h, bind_map_left, map_bind]
    congr 1
    funext r
    obtain ⟨go, b⟩ := r
    cases go with
    | true => exact iterate_map h n b
    | false => exact (map_pure g b).symm

theorem map_ok {β : Type} {p : Parser α} {g : α → β} {y : β} :
    (g <$> p) s = .ok (y, t) ↔ ∃ x, p s = .ok (x, t) ∧ g x = y := by
  rw [map_eq_pure_bind]
  constructor
  · intro hr
    obtain ⟨x, u, hx, hr⟩ := bind_ok hr
    obtain ⟨rfl, rfl⟩ := pure_ok hr
    exact ⟨x, hx, rfl⟩
  · rintro ⟨x, hx, rfl⟩
    exact bind_run hx

variable [Linked α] {T : Track} {P : Prop}

/-- Steps that go on are taken side by side. Each has taken something. -/
theorem Strides.goes (h : Strides T P step step') (hp : P) {b : α} {t : Session}
    (hab : link T a b) (hst : Pair T s t) (hgoes : Goes step a s n c u) (hgood : T.Good u) :
    ∃ d v, Goes step' b t n d v ∧ link T c d ∧ Pair T u v ∧ v.remaining + n ≤ t.remaining := by
  induction hgoes with
  | refl => exact ⟨b, t, .refl, hab, hst, le_rfl⟩
  | @snoc n c _ _ _ _ hr ih =>
    have hbefore := (h.mirrors c c).forward _ _ _ hr
    obtain ⟨d, v, hgoes, hcd, hpair, hle⟩ := ih (hgood.of_before hbefore)
    obtain ⟨⟨go, e⟩, w, hrun, ⟨hgo, hlink⟩, hpair'⟩ :=
      (h.mirrors _ _).follow ⟨hp, hcd⟩ hpair hr hgood
    obtain rfl : true = go := hgo
    have hsize := h.grows hp hcd hpair hr hgood rfl
    have hlt := ((hpair.moved hpair' hbefore ((h.mirrors c d).forward' _ _ _ hrun) hgood).2 hsize).2
    exact ⟨e, w, .snoc hgoes hrun, hlink, hpair', by omega⟩

end Parser

/-! ## The text in front -/

variable {cap : Nat} {mode : Mode} {log : List Scanned} {front back : List Char}

/-- The track of a parse without complaints beside that of its text with a newline and more behind
it, up to the last token. -/
def Track.extending (cap : Nat) (mode : Mode) (front back : List Char)
    (hsolid : ∀ t ∈ log, t.token.kind ≠ .eof) : Track where
  __ := Track.diagonal cap front mode
  cap
  text := front
  text' := front ++ '\n' :: back
  strict := True
  Runs l p q := ∃ more, l ++ more = log ∧ Trail cap (.start mode front) l p ∧ Clean cap p more
    ∧ Near front [] ('\n' :: back) p q
  Takes l := l <+: log
  Looks l := l <+: log ∧ l ≠ log
  takes_init {l t} h := by
    refine ⟨(List.prefix_append _ _).trans h, (List.prefix_append _ _).trans h, ?_⟩
    rintro rfl
    have := h.length_le
    simp at this
  solid h t ht := hsolid t (h.subset ht)
  meet := by
    rintro l p q la lb ⟨more, rfl, htrail, hp, hnear⟩ ⟨-, hne⟩ - hq htext htext' hla hlb hv hV hfair
    cases more with
    | nil => exact absurd (List.append_nil l).symm hne
    | cons t more =>
      have hmodest : Modest (t :: more) la := by
        refine hfair.imp (fun h => h trivial) (And.imp_left fun htakes => ?_)
        obtain ⟨rest, hrest⟩ := (List.prefix_append_right_inj l).1 htakes
        rw [← hrest]
        rfl
      have hkeeps : p.Keeps cap [] t := by
        refine hp.keeps (X := front) (by rw [htext, List.append_nil]) ?_
        have happend := congrArg Text.size (Stand.next_append cap t.valid p)
        rw [htext, Text.size_append] at happend
        rw [Stand.stop_eq hp.token, Location.behind_byte]
        omega
      have hends : Text.Ends ('\n' :: back) := by
        rintro c ⟨⟩
        rfl
      obtain ⟨hvalid, htwins, hnext⟩ := meets_near hp hq htext htext' hla hlb hv hnear hends hkeeps
        rfl hV hmodest
      -- A line comment at the end of the text ends in front of the newline.
      have hnext := hnext fun u _ cs _ _ => by
        rintro d ⟨⟩
        rfl
      have hsame := hlb.token
      rw [hvalid] at hsame hnext
      refine ⟨hv, hvalid, ?_, fun htakes => ?_⟩
      · exact (hnear.token_eq hkeeps hq hla.token hsame htwins.kind hnext.pre).symm
      · rw [hvalid]
        obtain ⟨rest, hrest⟩ := (List.prefix_append_right_inj l).1 htakes
        cases hrest
        exact ⟨rest, List.append_assoc _ _ _, htrail.snoc hla.token, hp.tail, hnext⟩

end Parse

end AvroTree
