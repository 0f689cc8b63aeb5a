import AvroTree.Proofs.Finishing

/-!
# Every round of a loop moves the cursor

In front of a token a parser that takes one moves the cursor (`Bites`), and nothing behind it moves
the cursor back. The step of a loop goes on only when it has moved the cursor (`Advances`): it has
looked at a token other than the end, and has then taken it, or read an element and skipped what
stands there in case the element has taken nothing.
-/

namespace AvroTree

open Token (Kind)
open Lexer (Stand Trail)

namespace Lexer

variable {cap : Nat} {p q : Stand}

theorem Stand.pre_size_le (cap : Nat) (V : TokenSet) (p : Stand) :
    Text.size p.pre ≤ Text.size (p.next cap V).pre := by
  rw [Stand.next, Text.size_append]
  exact Nat.le_add_right _ _

/-- A run never leads back. -/
theorem Trail.pre_size_le {ts : List Scanned} (h : Trail cap p ts q) :
    Text.size p.pre ≤ Text.size q.pre := by
  induction h with
  | nil => exact le_rfl
  | cons _ _ ih => exact (Stand.pre_size_le _ _ _).trans ih

end Lexer

namespace Parse

namespace Session

variable {cap : Nat} {text : List Char} {s s' : Session}

/-- Whatever has been taken on the way, the cursor has not moved back. -/
theorem Onward.byte_le (h : s.Onward s') (hs : s.Sits cap text) :
    s.cursor.place.byte ≤ s'.cursor.place.byte := by
  obtain ⟨p, hp⟩ := hs.stands
  obtain ⟨q, hq⟩ := (h.sits hs).stands
  obtain ⟨new, hnew, -⟩ := h.before.log
  obtain ⟨mode, hlog⟩ := hp.log
  obtain ⟨mode', hlog'⟩ := hq.log
  rw [hnew] at hlog'
  obtain ⟨r, hr, hrest⟩ := hlog'.split
  rw [hp.cursor.byte_eq, hq.cursor.byte_eq, pre_size_of_log hlog hr]
  exact hrest.pre_size_le

/-- Where a token stands next, taking it moves the cursor. -/
theorem bump_lt (hs : s.Sits cap text) (hf : s.Faced) :
    s.cursor.place.byte < s.bump.2.cursor.place.byte := by
  obtain ⟨p, hp⟩ := hs.stands
  have hcommit {u : Session} {la : Lookahead} (hu : u.Stands cap text p) (hla : la.Reads cap p) :
      s.cursor.place.byte < (u.commit la).cursor.place.byte := by
    have hlt := commit_lt hu hla fun he => hf.2 ((hp.eof_iff hla).1 he)
    rwa [hu.cursor.byte_eq, ← hp.cursor.byte_eq] at hlt
  unfold bump
  cases hla : s.lookahead with
  | some la => exact hcommit hp (hp.lookahead la hla)
  | none =>
    obtain ⟨la, hla, -, -, hreads, hstands⟩ := peek_stays hp hf.1 .lexical
    simp only [hla]
    exact hcommit hstands hreads

end Session

open Session (Anywhere Faced Sits)

namespace Parser

variable {α β : Type} {cap : Nat} {text : List Char} {s s' : Session} {C : Session → Prop}

/-- Where a token stands next the parser moves the cursor. -/
def Bites (p : Parser α) : Prop :=
  ∀ ⦃cap text s a s'⦄, Sits cap text s → s.Faced → p s = .ok (a, s') →
    s.cursor.place.byte < s'.cursor.place.byte

/-- From a session in which `C` holds the rest of a step goes on only when it moves the cursor. -/
def Moves (C : Session → Prop) (p : Parser (Bool × α)) : Prop :=
  ∀ ⦃cap text s a s'⦄, Sits cap text s → C s → p s = .ok ((true, a), s') →
    s.cursor.place.byte < s'.cursor.place.byte

/-- A step that goes on has moved the cursor. -/
def Advances (step : α → Parser (Bool × α)) : Prop :=
  ∀ a, Moves Anywhere (step a)

theorem Steers.pure (a : α) : Steers (pure a : Parser α) :=
  (Built.pure a).steers

theorem Steers.byte_le {p : Parser α} (h : Steers p) {a : α} (hs : s.Sits cap text)
    (hr : p s = .ok (a, s')) : s.cursor.place.byte ≤ s'.cursor.place.byte :=
  (h s a s' hr).byte_le hs

/-! ## Taking something -/

namespace Bites

variable {p q : Parser α} {f : α → Parser β}

/-- In front of something else. -/
theorem bind (h : Bites p) (hp : Steers p) (hf : ∀ a, Steers (f a)) : Bites (p >>= f) := by
  intro cap text s b s' hs hfaced hr
  obtain ⟨a, s₁, h₁, h₂⟩ := bind_ok hr
  exact (h hs hfaced h₁).trans_le ((hf a).byte_le ((hp _ _ _ h₁).sits hs) h₂)

/-- Behind something that leaves the cursor where it is. -/
theorem after (hp : Steers p) (hstay : ∀ {s a s'}, p s = .ok (a, s') → s'.cursor = s.cursor)
    (h : ∀ a, Bites (f a)) : Bites (p >>= f) := by
  intro cap text s b s' hs hfaced hr
  obtain ⟨a, s₁, h₁, h₂⟩ := bind_ok hr
  have hlt := h a ((hp _ _ _ h₁).sits hs) (hfaced.of_cursor (hstay h₁)) h₂
  rwa [hstay h₁] at hlt

theorem flush {f : List Node → Parser β} (h : ∀ ns, Bites (f ns)) : Bites (Parser.flush >>= f) :=
  after Built.flush.steers (fun hr => by cases hr; rfl) h

theorem ite {c : Prop} [Decidable c] (hp : Bites p) (hq : Bites q) :
    Bites (if c then p else q) := by
  split
  · exact hp
  · exact hq

end Bites

theorem leaf_bites (kind : NodeKind) : Bites (leaf kind) := by
  intro cap text s n s' hs hfaced hr
  cases hr
  exact Session.bump_lt hs hfaced

theorem bump_bites (kind : NodeKind) (field : Option String) : Bites (bump kind field) :=
  .flush fun _ => (leaf_bites kind).bind (Built.leaf kind).steers fun _ => .pure _

/-- The first round of a skip takes a token. -/
theorem skipStep_bites (stop : TokenSet) : Bites (skipStep stop {}) := by
  intro cap text s r s' hs hfaced hr
  obtain ⟨t, s₁, hpeek, hr⟩ := bind_ok hr
  have ht := peek_faced_ne hs hfaced hpeek
  obtain ⟨hs₁, hfaced₁⟩ := peek_faced_of_ne hs hpeek ht
  rw [if_neg (by simp [ht])] at hr
  have hbump := (bump_bites (.ofToken t.kind) none).bind (bump_built _ _).steers (fun _ => .pure _)
    hs₁ hfaced₁ hr
  exact ((Built.peek stop).steers.byte_le hs hpeek).trans_lt hbump

theorem skip_bites (stop : TokenSet) : Bites (skip stop) := by
  rw [skip_eq]
  refine .flush fun extras => Bites.bind ?_ (loop_built (skipStep_built stop) _).steers fun a => ?_
  · intro cap text s a s' hs hfaced hr
    have hr : iterate (skipStep stop) (s.remaining + 1) {} s = .ok (a, s') := hr
    refine (skipStep_bites stop).bind (skipStep_built stop _).steers ?_ hs hfaced hr
    rintro ⟨go, b⟩
    cases go with
    | true => exact (iterate_built (skipStep_built stop) _ b).steers
    | false => exact .pure b
  · refine Built.steers ?_
    cases a.first with
    | none => exact .pure _
    | some t => exact wrapUp_built _ _ _

/-- An element takes something, or else the skip behind it does. -/
theorem progress_bites {element : Parser α} {stop : TokenSet} {k : α → List Node → Parser β}
    (h : Steers element) (hk : ∀ a ns, Steers (k a ns)) :
    Bites (progress stop element k) := by
  intro cap text s b s' hs hfaced hr
  obtain ⟨a, s₁, h₁, hr⟩ := progress_run hr
  have hs₁ := (h _ _ _ h₁).sits hs
  have hle := h.byte_le hs h₁
  split at hr
  · rename_i hbyte
    obtain ⟨p, hp⟩ := hs.stands
    obtain ⟨q, hq⟩ := hs₁.stands
    have hskip := (skip_bites stop).bind (skip_built stop).steers (hk a) hs₁
      (hfaced.of_stands hp hq hbyte) hr
    exact hle.trans_lt hskip
  · exact (lt_of_le_of_ne hle (Ne.symm ‹_›)).trans_le ((hk a []).byte_le hs₁ hr)

theorem addItem_bites {element : Parser Node} {stop : TokenSet} {nodes : Array Node}
    (h : Steers element) : Bites (addItem stop element nodes) :=
  .flush fun _ => progress_bites h fun _ _ => .pure _

theorem listItem_bites {element : Parser (List Node)} {stop : TokenSet} {a : Items}
    {comma : List Node} (h : Steers element) : Bites (listItem stop element a comma) := by
  rw [listItem_eq]
  exact .flush fun _ => progress_bites h fun _ _ => .pure _

/-! ## Steps -/

namespace Moves

variable {p q : Parser (Bool × α)}

theorem stop (a : α) : Moves C (pure (false, a)) := by
  intro cap text s b s' _ _ hr
  obtain ⟨h, -⟩ := pure_ok hr
  cases h

theorem ite {c : Prop} [Decidable c] (hp : c → Moves C p) (hq : ¬c → Moves C q) :
    Moves C (if c then p else q) := by
  split
  · exact hp ‹_›
  · exact hq ‹_›

theorem after {r : Parser β} {f : β → Parser (Bool × α)} (hr : Steers r)
    (hf : ∀ b, Moves Anywhere (f b)) : Moves C (r >>= f) := by
  intro cap text s a s' hs _ hrun
  obtain ⟨b, s₁, h₁, h₂⟩ := bind_ok hrun
  exact (hr.byte_le hs h₁).trans_lt (hf b ((hr _ _ _ h₁).sits hs) trivial h₂)

theorem anywhere (h : Moves Anywhere p) : Moves C p :=
  fun _ _ _ _ _ hs _ hr => h hs trivial hr

/-- Where `t` is known to stand next, unless it is the end. -/
theorem taking {t : Token} (h : Bites p) (ht : t.kind ≠ .eof) :
    Moves (fun s => t.kind ≠ .eof → s.Faced) p :=
  fun _ _ _ _ _ hs hc hr => h hs (hc ht) hr

theorem peek {V : TokenSet} {f : Token → Parser (Bool × α)}
    (h : ∀ t, Moves (fun s => t.kind ≠ .eof → s.Faced) (f t)) : Moves C (Parser.peek V >>= f) := by
  intro cap text s a s' hs _ hr
  obtain ⟨t, s₁, hpeek, hr⟩ := bind_ok hr
  have hsteers := (Built.peek V).steers
  refine (hsteers.byte_le hs hpeek).trans_lt
    (h t ((hsteers _ _ _ hpeek).sits hs) (fun ht => (peek_faced_of_ne hs hpeek ht).2) hr)

/-- A step that goes on at one kind of token. -/
theorem nextIs {kind : Kind} (hkind : kind ≠ .eof) (hp : Bites p) (hq : Moves Anywhere q) :
    Moves C (do if ← Parser.nextIs kind then p else q) := by
  unfold Parser.nextIs
  rw [bind_assoc]
  refine .peek fun t => ?_
  rw [pure_bind]
  refine .ite (fun ht => .taking hp ?_) fun _ => hq.anywhere
  rw [of_decide_eq_true ht]
  exact hkind

end Moves

theorem skipStep_advances (stop : TokenSet) : Advances (skipStep stop) := fun a => by
  refine .peek fun t => .ite (fun _ => .stop _) fun ht => .taking ?_ fun he => ht (.inl he)
  exact (bump_bites _ _).bind (bump_built _ _).steers fun _ => .pure _

/-- What an element starts with is not the end. -/
theorem ne_eof_of_contains {first : TokenSet} {k : Kind} (hfirst : first.contains .eof = false)
    (hk : first.contains k) : k ≠ .eof := by
  rintro rfl
  rw [hfirst] at hk
  cases hk

theorem listStep_advances (sync : TokenSet) {form : ListForm} {element : Parser (List Node)}
    (hfirst : form.first.contains .eof = false) (h : Steers element) :
    Advances (listStep sync form element) := fun a => by
  rw [listStep_eq]
  refine .peek fun t => .ite (fun _ => ?_) fun _ => .ite (fun ht => ?_) fun _ =>
    .ite (fun ht => ?_) fun _ => .ite (fun _ => ?_) fun hend => ?_
  · have close (nodes : Array Node) : Moves Anywhere (listClose form a nodes) :=
      .after (bump_built _ _).steers fun _ => .stop _
    exact .ite (fun _ => .after (rejectComma_built a).steers close) fun _ => (close _).anywhere
  · refine .taking (.ite (listItem_bites h) ?_) (ne_eof_of_contains hfirst ht)
    exact .after (missing_built _ _).steers (fun hr => (missing_run hr).2) fun _ => listItem_bites h
  · refine .taking ((bump_bites _ _).bind (bump_built _ _).steers fun _ => .pure _) ?_
    rw [ht.1]
    exact Kind.noConfusion
  · exact .after (missing_built _ _).steers fun _ => .stop _
  · exact .taking ((skip_bites _).bind (skip_built _).steers fun _ => .pure _)
      fun he => hend (.inl he)

end Parser

open AvroTree.Parse.Parser

/-! ## The interface language -/

namespace Idl

theorem annotationUse_bites (sync : TokenSet) : Bites (annotationUse sync) := by
  refine (bump_bites _ _).bind (bump_built _ _).steers fun _ => Built.steers ?_
  exact .bind (expect_built _ _ _) fun _ => .bind (expect_built _ _ _) fun _ =>
    .bind (expect_built _ _ _) fun _ => branch_built _ _

theorem annotations_advances (sync : TokenSet) : Advances (annotationStep sync) := fun _ =>
  .nextIs Kind.noConfusion (.flush fun _ => (annotationUse_bites sync).bind
    (annotationUse_built sync).steers fun _ => .pure _) (.stop _)

theorem fieldDeclaration_advances (inner : TokenSet) : Advances (variableStep inner) := fun _ =>
  .nextIs Kind.noConfusion ((bump_bites _ _).bind (bump_built _ _).steers fun _ =>
    Built.steers (.bind (namedVariable_built inner) fun _ => .pure _)) (.stop _)

theorem throwsClause_advances (inner : TokenSet) : Advances (throwsStep inner) := fun _ =>
  .after (expectAs?_built _ _ _ _).steers fun _ => .nextIs Kind.noConfusion
    ((bump_bites _ _).bind (bump_built _ _).steers fun _ => .pure _) (.stop _)

theorem bodyStep_advances (sync : TokenSet) {form : BodyForm} {element : Parser Node}
    (hfirst : form.first.contains .eof = false) (h : Steers element) :
    Advances (bodyStep sync form element) := fun nodes => by
  rw [bodyStep_eq]
  refine .peek fun t => .ite (fun _ => ?_) fun _ => .ite (fun ht => ?_) fun _ =>
    .ite (fun _ => ?_) fun hend => ?_
  · exact .after (bump_built _ _).steers fun _ => .stop _
  · exact .taking (addItem_bites h) (ne_eof_of_contains hfirst ht)
  · exact .after (missing_built _ _).steers fun _ => .stop _
  · exact .taking ((skip_bites _).bind (skip_built _).steers fun _ => .pure _)
      fun he => hend (.inl he)

theorem programStep_advances : Advances programStep := fun nodes => by
  rw [programStep_eq]
  refine .peek fun t => .ite (fun _ => .stop _) fun hend => .ite (fun _ => ?_) fun _ => ?_
  · exact .taking (addItem_bites (declarationWith_built type_steers true
      (protocolRest_built type_steers) _).steers) hend
  · exact .taking ((skip_bites _).bind (skip_built _).steers fun _ => .pure _) hend

end Idl

/-! ## Schemas -/

theorem Schema.trailing_advances : Advances Schema.trailingStep := fun _ =>
  .peek fun _ => .ite (fun _ => .stop _) fun hend =>
    .taking ((skip_bites _).bind (skip_built _).steers fun _ => .pure _) hend

end Parse

end AvroTree
