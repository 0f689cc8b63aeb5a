import AvroTree.Proofs.Nesting
import AvroTree.Proofs.Soundness

/-!
# Texts that are not too deep

A parse fails only where the text is nested too deep (`parse_fails_only_at_limits`), and there are
three ways to count: the lexer has too many brackets open, a type stands in too many others, or a
schema in too many brackets. None of them comes about while what is left of the text holds few
enough opening marks and few enough of the words that types are nested with, so a parser keeps going
on such a budget (`Fares`).
-/

namespace AvroTree

open Lexer (Stand Trail)
open Text (opens nestings)

namespace Parse

/-! ## What fails at all -/

namespace Parser

/-- A parser that fails only at a limit. -/
def Limited {α : Type} (p : Parser α) : Prop :=
  ∀ s d, p s = .error d → d.category = .resourceLimit

theorem tooDeep_limited {α : Type} (place : Location) : Limited (tooDeep place : Parser α) := by
  rintro s d ⟨⟩
  rfl

theorem Limited.bind {α β : Type} {p : Parser α} {f : α → Parser β} (hp : Limited p)
    (hf : ∀ a, Limited (f a)) : Limited (p >>= f) := by
  intro s d h
  change (p s).bind (fun r => f r.1 r.2) = _ at h
  cases hrun : p s with
  | error e =>
    rw [hrun] at h
    cases h
    exact hp s _ hrun
  | ok r =>
    rw [hrun] at h
    exact hf r.1 r.2 d h

theorem peek_limited (valid : TokenSet) : Limited (peek valid) := by
  intro s d h
  rw [peek_run] at h
  split at h
  · exact Limited.bind (tooDeep_limited _) (fun _ _ _ h => by cases h) _ d h
  · cases h

/-- What is built of parsers that fail only at a limit is one. -/
theorem Built.limited {α : Type} {p : Parser α} (h : Built (fun _ q => Limited q) p) :
    Limited p := by
  induction h with
  | given h => exact h
  | bind _ _ hp hf => exact hp.bind hf
  | ask g _ _ hk => exact fun s => hk (g s) s
  | peek valid => exact peek_limited valid
  | pure | flush | leaf | complain => exact fun s d h => by cases h

end Parser

open AvroTree.Parse.Parser

theorem rootOf_limited (mode : Mode) : Limited (rootOf mode) := by
  unfold rootOf
  split
  · exact (Schema.file_built (Schema.whole_built fun _ => .given (tooDeep_limited _))).limited
  · exact (Idl.program_built (Idl.type_built fun _ => .given (tooDeep_limited _))).limited

/-! ## Sessions with room -/

namespace Session

variable {cap : Nat} {text : List Char} {s t u : Session} {ts : List Token}

/-- The brackets that are open and those that the rest of the text can open are no more than may be
open. -/
structure Roomy (cap : Nat) (text : List Char) (s : Session) : Prop where
  sits : s.Sits cap text
  room : s.state.depth + opens s.cursor.rest ≤ cap

/-- `s'` has room too, and no more of the text in front of it than `s`. -/
structure Later (cap : Nat) (text : List Char) (s s' : Session) : Prop where
  roomy : s'.Roomy cap text
  suffix : s'.cursor.rest <:+ s.cursor.rest

theorem Later.refl (h : s.Roomy cap text) : Later cap text s s :=
  ⟨h, List.suffix_rfl⟩

theorem Later.trans (h : Later cap text s t) (h' : Later cap text t u) : Later cap text s u :=
  ⟨h'.roomy, h'.suffix.trans h.suffix⟩

theorem Trail.room {p q : Stand} {log : List Scanned} (h : Trail cap p log q) (hp : p.Sound cap) :
    q.state.depth + opens q.rest ≤ p.state.depth + opens p.rest ∧ q.rest <:+ p.rest := by
  induction h with
  | nil => exact ⟨le_rfl, List.suffix_rfl⟩
  | cons ht _ ih =>
    obtain ⟨hroom, hsuffix⟩ := ih (Stand.next_sound hp)
    exact ⟨hroom.trans (Stand.next_room hp ht), hsuffix.trans (Stand.next_suffix _ _ _)⟩

theorem Took.later (h : Took cap text s ts t) (hs : s.Roomy cap text) : Later cap text s t := by
  obtain ⟨p, hp⟩ := hs.sits.stands
  obtain ⟨q, hq, log, htrail, -⟩ := h.passage p hp
  obtain ⟨hroom, hsuffix⟩ := Trail.room htrail hp.sound
  have hs := hs.room
  rw [hp.state, hp.cursor.rest_eq] at hs
  refine ⟨⟨h.sits, ?_⟩, ?_⟩
  · rw [hq.state, hq.cursor.rest_eq]
    exact hroom.trans hs
  · rwa [hp.cursor.rest_eq, hq.cursor.rest_eq]

/-- A session with room does not find itself too deep. -/
theorem Roomy.kind_ne (h : s.Roomy cap text) {wanted : TokenSet} {t : Token}
    (hf : s.Faces wanted t) : t.kind ≠ .error .depthExceeded := by
  obtain ⟨la, hla, -, rfl⟩ := hf
  obtain ⟨p, hp⟩ := h.sits.stands
  intro hk
  have hdeep := Stand.room_of_tooDeep hp.sound (hp.lookahead la hla).token hk
  have hroom := h.room
  rw [hp.state, hp.cursor.rest_eq] at hroom
  omega

theorem commit_later {la : Lookahead} (h : s.Roomy cap text) (hla : s.lookahead = some la) :
    Later cap text s (s.commit la) := by
  obtain ⟨p, hp⟩ := h.sits.stands
  have hr := hp.lookahead la hla
  have hq := hp.commit hr
  have hroom := h.room
  rw [hp.state, hp.cursor.rest_eq] at hroom
  refine ⟨⟨⟨⟨_, hq⟩, fun h => absurd rfl h⟩, ?_⟩, ?_⟩
  · rw [hq.state, hq.cursor.rest_eq]
    exact (Stand.next_room hp.sound hr.token).trans hroom
  · rw [hp.cursor.rest_eq, hq.cursor.rest_eq]
    exact Stand.next_suffix _ _ _

theorem bump_later (h : s.Roomy cap text) : Later cap text s s.bump.2 := by
  rw [bump]
  split
  · rename_i la hla
    exact commit_later h hla
  · obtain ⟨htook, la, hla, -, -⟩ := peek_took h.sits .lexical
    have hlater := htook.later h
    simp only [hla]
    exact hlater.trans (commit_later hlater.roomy hla)

theorem takeExtras_later (h : s.Roomy cap text) : Later cap text s s.takeExtras.2 := by
  obtain ⟨p, hp⟩ := h.sits.stands
  exact ⟨⟨⟨⟨p, hp.cap_eq, hp.state, hp.sound, hp.append, hp.cursor, hp.log, hp.lookahead,
    hp.previous⟩, h.sits.plain⟩, h.room⟩, List.suffix_rfl⟩

section Facing

variable {wanted : TokenSet} {t : Token}

/-- Taking an opening mark leaves fewer of them. -/
theorem Faces.opens_lt (hf : s.Faces wanted t) (h : s.Roomy cap text) {q : Punct}
    (hk : t.kind = .punct q) (hq : Bracket.openedBy? q ≠ none) :
    opens s.bump.2.cursor.rest < opens s.cursor.rest := by
  obtain ⟨la, hla, -, rfl⟩ := hf
  obtain ⟨p, hp⟩ := h.sits.stands
  have hr := hp.lookahead la hla
  simp only [bump, hla]
  rw [(hp.commit hr).cursor.rest_eq, hp.cursor.rest_eq]
  exact Stand.next_opens hp.sound hr.token hk hq

/-- Taking a word that types are nested with leaves fewer of them. -/
theorem Faces.nestings_lt (hf : s.Faces wanted t) (h : s.Roomy cap text) {w : Keyword}
    (hk : t.kind = .keyword w) (hw : w ∈ Text.nestingWords) :
    nestings s.bump.2.cursor.rest < nestings s.cursor.rest := by
  obtain ⟨la, hla, -, rfl⟩ := hf
  obtain ⟨p, hp⟩ := h.sits.stands
  have hr := hp.lookahead la hla
  simp only [bump, hla]
  rw [(hp.commit hr).cursor.rest_eq, hp.cursor.rest_eq]
  exact Stand.next_nestings hp.sound hr.token hk hw

end Facing

end Session

open Session (Roomy Later Faces)

/-! ## Parsers that keep going -/

namespace Parser

variable {α β : Type} {cap : Nat} {text : List Char} {s s' : Session} {Q R : List Char → Prop}

/-- From `s` the parser comes to an end, and there is room behind it. -/
def FaresAt (cap : Nat) (text : List Char) (p : Parser α) (s : Session) : Prop :=
  ∃ a s', p s = .ok (a, s') ∧ Later cap text s s'

/-- The parser comes to an end wherever there is room and `Q` holds of the rest of the text. -/
def Fares (cap : Nat) (text : List Char) (Q : List Char → Prop) (p : Parser α) : Prop :=
  ∀ s : Session, s.Roomy cap text → Q s.cursor.rest → FaresAt cap text p s

/-- What holds of a text and then of all its ends. -/
def Lasting (Q : List Char → Prop) : Prop :=
  ∀ ⦃a b⦄, a <:+ b → Q b → Q a

theorem opens_lasting (n : Nat) : Lasting (opens · ≤ n) :=
  fun _ _ h hb => (Text.opens_suffix h).trans hb

theorem nestings_lasting (n : Nat) : Lasting (nestings · < n) :=
  fun _ _ h hb => (Text.nestings_suffix h).trans_lt hb

theorem FaresAt.bind {p : Parser α} {f : α → Parser β} {a : α} (hp : p s = .ok (a, s'))
    (h : Later cap text s s') (hf : FaresAt cap text (f a) s') : FaresAt cap text (p >>= f) s := by
  obtain ⟨b, u, hrun, hlater⟩ := hf
  refine ⟨b, u, ?_, h.trans hlater⟩
  change (p s).bind (fun r => f r.1 r.2) = _
  rw [hp]
  exact hrun

theorem Fares.bind {p : Parser α} {f : α → Parser β} (hQ : Lasting Q) (hp : Fares cap text Q p)
    (hf : ∀ a, Fares cap text Q (f a)) : Fares cap text Q (p >>= f) := by
  intro s hs hq
  obtain ⟨a, s', hrun, hlater⟩ := hp s hs hq
  exact .bind hrun hlater (hf a s' hlater.roomy (hQ hlater.suffix hq))

/-- With room the next token is found, and it is the one that stands there. -/
theorem peek_faces (hs : s.Roomy cap text) (valid : TokenSet) :
    ∃ t s', peek valid s = .ok (t, s') ∧ Later cap text s s' ∧ s'.Faces valid t := by
  obtain ⟨htook, hfaces⟩ := Session.peek_took hs.sits valid
  have hlater := htook.later hs
  refine ⟨_, _, ?_, hlater, hfaces⟩
  rw [peek_run, if_neg (hlater.roomy.kind_ne hfaces)]
  rfl

/-- What is built of parsers that keep going on a budget does so. -/
theorem Built.fares (hQ : Lasting Q) {p : Parser α} (h : Built (fun _ q => Fares cap text Q q) p) :
    Fares cap text Q p := by
  induction h with
  | given h => exact h
  | pure a => exact fun s hs _ => ⟨a, s, rfl, .refl hs⟩
  | bind _ _ hp hf => exact hp.bind hQ hf
  | ask g _ _ hk => exact fun s => hk (g s) s
  | peek valid =>
    intro s hs _
    obtain ⟨t, s', hrun, hlater, -⟩ := peek_faces hs valid
    exact ⟨t, s', hrun, hlater⟩
  | flush => exact fun s hs _ => ⟨_, _, rfl, Session.takeExtras_later hs⟩
  | leaf kind => exact fun s hs _ => ⟨_, _, rfl, Session.bump_later hs⟩
  | complain d =>
    intro s hs _
    obtain ⟨p, hp⟩ := hs.sits.stands
    exact ⟨(), _, rfl, ⟨⟨⟨p, hp.cap_eq, hp.state, hp.sound, hp.append, hp.cursor, hp.log,
      hp.lookahead, hp.previous⟩, hs.sits.plain⟩, hs.room⟩, List.suffix_rfl⟩

/-- Behind a token that uses up some of the budget. -/
theorem leaf_fares {kind : NodeKind} {f : Node → Parser β} (hs : s.Roomy cap text)
    (hq : R s.bump.2.cursor.rest) (hf : ∀ n, Fares cap text R (f n)) :
    FaresAt cap text (leaf kind >>= f) s := by
  have hlater := Session.bump_later hs
  exact .bind rfl hlater (hf _ _ hlater.roomy hq)

theorem bump_fares {kind : NodeKind} {f : List Node → Parser β} (hs : s.Roomy cap text)
    (hq : R s.takeExtras.2.bump.2.cursor.rest) (hf : ∀ n, Fares cap text R (f n)) :
    FaresAt cap text (bump kind >>= f) s := by
  have hflush := Session.takeExtras_later hs
  have hlater := hflush.trans (Session.bump_later hflush.roomy)
  exact .bind rfl hlater (hf _ _ hlater.roomy hq)

end Parser

variable {cap : Nat} {text : List Char} {s : Session}

theorem Session.Roomy.cap_le (h : s.Roomy cap text) : cap ≤ s.maxDepth := by
  obtain ⟨p, hp⟩ := h.sits.stands
  rw [← hp.cap_eq, Session.cap, Lexer.Config.ofDepth, Lexer.Config.cap]
  simp only []
  omega

/-! ## Types -/

namespace Idl

/-- A word that types are nested with stands in front of what is built of types one level down. -/
theorem opens_fares {p : Parser Node} {kind : NodeKind} {n : Nat} {wanted : TokenSet} {t : Token}
    {w : Keyword} (h : ∃ f, p = (leaf kind >>= f)
      ∧ ∀ a, Built (fun _ q => Fares cap text (nestings · < n) q) (f a))
    (hs : s.Roomy cap text) (hq : nestings s.cursor.rest < n + 1) (hf : s.Faces wanted t)
    (hk : t.kind = .keyword w) (hw : w ∈ Text.nestingWords) : FaresAt cap text p s := by
  obtain ⟨f, rfl, hbuilt⟩ := h
  have hlt := hf.nestings_lt hs hk hw
  exact leaf_fares (R := (nestings · < n)) hs (by omega) fun a =>
    (hbuilt a).fares (nestings_lasting n)

theorem baseType_fares {type : TypeReader} {n : Nat}
    (h : ∀ sync field, Fares cap text (nestings · < n) (type sync field)) (sync : TokenSet) :
    Fares cap text (nestings · < n + 1) (baseType type sync) := by
  intro s hs hq
  obtain ⟨t, s', hpeek, hlater, hfaces⟩ := peek_faces hs First.baseType
  have hs' := hlater.roomy
  have hq' := nestings_lasting _ hlater.suffix hq
  have htype : BuiltType (fun _ q => Fares cap text (nestings · < n) q) type :=
    fun sync field => .given (h sync field)
  refine .bind hpeek hlater ?_
  split
  · exact (decimalType_built sync).fares (nestings_lasting _) _ hs' hq'
  · exact opens_fares (container_opens htype _ _ _ sync) hs' hq' hfaces ‹_› (by decide)
  · exact opens_fares (container_opens htype _ _ _ sync) hs' hq' hfaces ‹_› (by decide)
  · exact opens_fares (unionType_opens htype sync) hs' hq' hfaces ‹_› (by decide)
  · exact (plainType_built _).fares (nestings_lasting _) _ hs' hq'
  · exact Built.fares (nestings_lasting _) (.leaf _) _ hs' hq'

theorem typeAt_fares : ∀ (n : Nat) (sync : TokenSet) (field : Option String),
    Fares cap text (nestings · < n) (typeAt n sync field)
  | 0, _, _ => fun _ _ hq => absurd hq (Nat.not_lt_zero _)
  | n + 1, sync, field => (annotatedType_built (fun sync => nullableType_built
      (.given (baseType_fares (typeAt_fares n) sync))) sync field).fares (nestings_lasting _)

theorem type_fares (sync : TokenSet) (field : Option String) :
    Fares cap text (nestings · < cap) (type sync field) :=
  fun s hs hq => typeAt_fares s.maxDepth sync field s hs (hq.trans_le hs.cap_le)

theorem program_fares : Fares cap text (nestings · < cap) program :=
  (program_built fun sync field => .given (type_fares sync field)).fares (nestings_lasting _)

end Idl

/-! ## Schemas -/

namespace Schema

/-- The readers for what stands one level further in, if there is one. -/
def inside : Nat → Option Level
  | 0 => none
  | n + 1 => some (level n)

theorem level_eq (n : Nat) : level n = ⟨value (inside n), object (inside n)⟩ := by
  cases n <;> rfl

/-- What is inside `n` levels keeps going while at most `n` opening marks are left. -/
structure LevelFares (cap : Nat) (text : List Char) (n : Nat) : Prop where
  value : ∀ sync, Fares cap text (opens · ≤ n) (value (inside n) sync)
  member : ∀ key sync, Fares cap text (opens · ≤ n) (member (inside n) key sync)

variable {n : Nat}

theorem LevelFares.object_opens (h : LevelFares cap text n) (kind : Option NodeKind)
    (sync : TokenSet) : ∃ f, (level n).object kind sync
      = (bump (.token (.punct .lBrace)) >>= f)
        ∧ ∀ a, Built (fun _ p => Fares cap text (opens · ≤ n) p) (f a) := by
  rw [level_eq]
  exact Schema.object_opens (fun key sync => .given (h.member key sync)) kind sync

theorem LevelFares.built (h : LevelFares cap text n) :
    (level n).Built fun _ p => Fares cap text (opens · ≤ n) p := by
  refine ⟨fun sync => ?_, fun kind sync => ?_⟩
  · rw [level_eq]
    exact .given (h.value sync)
  · obtain ⟨f, hf, hbuilt⟩ := h.object_opens kind sync
    rw [hf]
    exact .bind (bump_built _ _) hbuilt

/-- An opening mark stands in front of what is built of schemas one level down. -/
theorem deeper_fares {k : Level → Parser Node} {kind : NodeKind} {wanted : TokenSet} {t : Token}
    {q : Punct} (hk : ∀ m, n = m + 1 → ∃ f, k (level m) = (bump kind >>= f)
      ∧ ∀ a, Built (fun _ p => Fares cap text (opens · ≤ m) p) (f a))
    (hs : s.Roomy cap text) (hn : opens s.cursor.rest ≤ n) (hf : s.Faces wanted t)
    (ht : t.kind = .punct q) (hq : Bracket.openedBy? q ≠ none) :
    FaresAt cap text (deeper (inside n) k) s := by
  have hflush := Session.takeExtras_later hs
  have hlt := Faces.opens_lt (s := s.takeExtras.2) hf hflush.roomy ht hq
  have hn : opens s.takeExtras.2.cursor.rest ≤ n := hn
  cases n with
  | zero => omega
  | succ m =>
    obtain ⟨f, hf, hbuilt⟩ := hk m rfl
    rw [inside, deeper, hf]
    exact bump_fares (R := (opens · ≤ m)) hs (by omega) fun a => (hbuilt a).fares (opens_lasting m)

section Outside

variable (h : ∀ m, n = m + 1 → LevelFares cap text m)
include h

theorem value_fares (sync : TokenSet) : Fares cap text (opens · ≤ n) (value (inside n) sync) := by
  intro s hs hn
  obtain ⟨t, s', hpeek, hlater, hfaces⟩ := peek_faces hs First.schemaValue
  have hs' := hlater.roomy
  have hn' := opens_lasting n hlater.suffix hn
  refine .bind hpeek hlater ?_
  split
  · exact deeper_fares (fun m hm => (h m hm).object_opens none sync) hs' hn' hfaces ‹_› (by decide)
  · have hitem (m : Nat) (hm : n = m + 1) (sync : TokenSet) :
        Built (fun _ p => Fares cap text (opens · ≤ m) p) (do
          return [← (level m).value sync]) :=
      .bind ((h m hm).built.value sync) fun _ => .pure _
    exact deeper_fares (k := fun level => brackets _ _
      (fun sync => do return [← level.value sync]) _)
      (fun m hm => brackets_opens _ _ (hitem m hm) sync) hs' hn' hfaces ‹_› (by decide)
  · exact Built.fares (opens_lasting n) (.bind unquotedAhead_built fun _ => .leaf _) _ hs' hn'

theorem listMember_fares (kind : NodeKind) (first : TokenSet)
    {element : Level → TokenSet → Parser (List Node)}
    (he : ∀ m, LevelFares cap text m → ∀ sync,
      Built (fun _ p => Fares cap text (opens · ≤ m) p) (element (level m) sync))
    (sync : TokenSet) :
    Fares cap text (opens · ≤ n) (listMember (inside n) kind first element sync) := by
  intro s hs hn
  obtain ⟨t, s', hpeek, hlater, hfaces⟩ := peek_faces hs (.single (.punct .lBracket))
  have hs' := hlater.roomy
  have hn' := opens_lasting n hlater.suffix hn
  have hnext : nextIs (.punct .lBracket) s = .ok (decide (t.kind = .punct .lBracket), s') := by
    change (peek _ s).bind _ = _
    rw [hpeek]
    rfl
  refine .bind hnext hlater ?_
  split
  · have hflush := Session.takeExtras_later hs'
    obtain ⟨items, u, hrun, hu⟩ := deeper_fares (s := s'.takeExtras.2)
      (k := fun level => brackets kind first (element level) sync)
      (fun m hm => brackets_opens kind first (he m (h m hm)) sync) hflush.roomy hn' hfaces
      (of_decide_eq_true ‹_›) (by decide)
    exact .bind rfl hflush (.bind hrun hu ⟨_, _, rfl, .refl hu.roomy⟩)
  · exact (wholeMember_built sync).fares (opens_lasting n) _ hs' hn'

theorem member_fares (key : String) (sync : TokenSet) :
    Fares cap text (opens · ≤ n) (member (inside n) key sync) := by
  have hschema (sync : TokenSet) : Fares cap text (opens · ≤ n) (schemaMember (inside n) sync) :=
    (schemaMember_built (fun sync => .given (value_fares h sync)) sync).fares (opens_lasting n)
  rw [member.eq_def]
  split
  · exact hschema sync
  · exact hschema sync
  · exact hschema sync
  · exact listMember_fares h _ _ (fun m hm _ => .bind (hm.built.object _ _) fun _ => .pure _) sync
  · exact listMember_fares h _ _ (fun _ _ _ => bump_built _ _) sync
  · exact listMember_fares h _ _ (fun m hm _ => .bind (hm.built.value _) fun _ => .pure _) sync
  · exact (wholeMember_built sync).fares (opens_lasting n)

end Outside

theorem levelFares : ∀ n : Nat, LevelFares cap text n
  | 0 => ⟨value_fares (by simp), member_fares (by simp)⟩
  | n + 1 =>
    have h : ∀ m, n + 1 = m + 1 → LevelFares cap text m := fun _ hm =>
      Nat.succ.inj hm ▸ levelFares n
    ⟨value_fares h, member_fares h⟩

theorem file_fares : Fares cap text (opens · ≤ cap) file := by
  refine (file_built (.given fun s hs hq => ?_)).fares (opens_lasting cap)
  have hvalue := (levelFares s.maxDepth).value (.single .eof) s hs (hq.trans hs.cap_le)
  show FaresAt cap text ((level s.maxDepth).value (.single .eof)) s
  rwa [level_eq]

end Schema

/-! ## Whole texts -/

theorem rootOf_fares {config : Config} {text : String} (mode : Mode)
    (hvalid : config.validate = .ok ()) (hopens : opens text.toList ≤ config.maxDepth)
    (hnestings : nestings text.toList < config.maxDepth) :
    ∃ r, rootOf mode (.start text config.maxDepth mode none) = .ok r := by
  rw [← cap_of_validate hvalid] at hopens hnestings
  have hstart : (Session.start text config.maxDepth mode none).Roomy
      (Lexer.Config.ofDepth config.maxDepth).cap text.toList := by
    refine ⟨start_sits _ _ _, ?_⟩
    rw [(start_stands fun _ h => by cases h).cursor.rest_eq]
    exact (Nat.zero_add _).trans_le hopens
  have hrest : (Session.start text config.maxDepth mode none).cursor.rest = text.toList :=
    (start_stands fun _ h => by cases h).cursor.rest_eq
  unfold rootOf
  split
  · obtain ⟨a, s, hrun, -⟩ := Schema.file_fares _ hstart (by rwa [hrest])
    exact ⟨_, hrun⟩
  · obtain ⟨a, s, hrun, -⟩ := Idl.program_fares _ hstart (by rwa [hrest])
    exact ⟨_, hrun⟩

/-- A text that is not too large and cannot nest too deep has a tree. -/
theorem parse_of_shallow {config : Config} {text : String} (hvalid : config.validate = .ok ())
    (hsize : text.utf8ByteSize ≤ config.maxBytes) (hopens : opens text.toList ≤ config.maxDepth)
    (hnestings : nestings text.toList < config.maxDepth) :
    ∃ tree, parse config text = .ok tree := by
  obtain ⟨r, hr⟩ := rootOf_fares (modeFor config text) hvalid hopens hnestings
  exact ⟨_, by rw [parse, run_read hvalid (Nat.not_lt.2 hsize), hr]; rfl⟩

end Parse

open Parse in
/-- Only limits make a parse fail: where the settings are valid and the text is not too large, a
failure is a limit that was met, and there is none while the text has few enough opening marks and
few enough of the words that types are nested with. -/
theorem parse_fails_only_at_limits {config : Config} {text : String}
    (hvalid : config.validate = .ok ()) (hsize : text.utf8ByteSize ≤ config.maxBytes) :
    ((∃ tree, parse config text = .ok tree)
        ∨ ∃ d, parse config text = .error d ∧ d.category = .resourceLimit)
      ∧ (opens text.toList ≤ config.maxDepth → nestings text.toList < config.maxDepth →
        ∃ tree, parse config text = .ok tree) := by
  refine ⟨?_, parse_of_shallow hvalid hsize⟩
  rw [parse, run_read hvalid (Nat.not_lt.2 hsize)]
  cases hrun : rootOf (modeFor config text)
      (.start text config.maxDepth (modeFor config text) none) with
  | ok r => exact .inl ⟨_, rfl⟩
  | error d => exact .inr ⟨d, rfl, rootOf_limited _ _ _ hrun⟩

theorem parse_fails_only_at_limits_union :
    let config : Parse.Config := { maxDepth := 3 }
    let text := "schema union \x7b array<int>, string \x7d;"
    opens text.toList = 2 ∧ nestings text.toList = 2 ∧ ∃ tree, parse config text = .ok tree :=
  ⟨by decide, by decide, (parse_fails_only_at_limits rfl (by decide)).2 (by decide) (by decide)⟩

end AvroTree
