import AvroTree.Proofs.Completeness
import AvroTree.Proofs.Finishing

/-!
# Starts of declarations

Where a session has come to, its frontier, tells where something absent is put. A step of reading a
file does not ask for it before it has taken a token, so the steps from a place on are the same
whatever the frontier is there (`iterate_indifferent`): the first token of a declaration is found
again with whatever kinds it is looked for.
-/

namespace AvroTree

open Token (Kind)
open Lexer (Stand)

namespace Parse

namespace Session

/-- The session with another frontier. -/
def fronted (s : Session) (l : Location) : Session :=
  { s with frontier := l }

variable {s : Session} {l : Location} {la : Lookahead} {V : TokenSet}

theorem takeComment_fronted (h : (s.scan V).scanned.token.kind.isExtra) (l : Location) :
    (s.fronted l).takeComment V = (s.takeComment V).fronted l := by
  have hscan : (s.fronted l).scan V = s.scan V := rfl
  unfold takeComment commit
  simp only [hscan, h]
  rfl

theorem fetch_fronted (V : TokenSet) (l : Location) : ∀ (n : Nat) (s : Session),
    fetch V n (s.fronted l) = ((fetch V n s).1, (fetch V n s).2.fronted l)
  | n, s => by
    have hscan : (s.fronted l).scan V = s.scan V := rfl
    cases hk : (s.scan V).scanned.token.kind.isExtra with
    | false =>
      rw [fetch_of_not hk, fetch_of_not (hscan ▸ hk), hscan]
      rfl
    | true =>
      cases n with
      | zero =>
        rw [fetch_zero, fetch_zero, hscan]
        rfl
      | succ n =>
        rw [fetch_succ hk, fetch_succ (hscan ▸ hk), takeComment_fronted hk]
        exact fetch_fronted V l n _

/-- Finding a token, the frontier is left alone. -/
theorem peek_fronted (s : Session) (V : TokenSet) (l : Location) :
    (s.fronted l).peek V = ((s.peek V).1, (s.peek V).2.fronted l) := by
  have hfetch := fetch_fronted (V ∪ .ambient) l s.remaining s
  have hahead : (s.fronted l).lookahead = s.lookahead := rfl
  unfold peek
  simp only [hahead]
  split
  · split
    · rfl
    · exact hfetch
  · exact hfetch

/-- Behind a token the frontier is where the token stops. -/
theorem bump_fronted (hla : s.lookahead = some la) (hk : la.scanned.token.kind.isExtra = false)
    (l : Location) : (s.fronted l).bump = s.bump := by
  have hahead : (s.fronted l).lookahead = some la := hla
  unfold bump commit
  simp only [hahead, hla, hk]
  rfl

theorem takeExtras_empty (h : s.extras = #[]) (l : Location) :
    (s.fronted l).takeExtras = ([], s.fronted l) := by
  obtain ⟨_, _, _, _, _, extras⟩ := s
  obtain rfl : extras = #[] := h
  rfl

/-- Comments that are handed over take the frontier with them. -/
theorem takeExtras_fronted (h : s.extras ≠ #[]) (l : Location) :
    (s.fronted l).takeExtras = s.takeExtras := by
  have hextras : (s.fronted l).extras = s.extras := rfl
  unfold takeExtras
  cases hlast : s.extras.back? with
  | none => exact absurd (Array.back?_eq_none_iff.1 hlast) h
  | some n =>
    simp only [hextras, hlast]
    rfl

/-- No comment stands next, all comments have their place, and there may be types. -/
structure Poised (cap : Nat) (text : List Char) (p : Stand) (s : Session) : Prop where
  stands : s.Stands cap text p
  plain : s.Plain
  extras : s.extras = #[]
  depth : s.maxDepth ≠ 0

theorem peek_cases {cap : Nat} {text : List Char} {p : Stand} (hs : s.Stands cap text p)
    (hplain : s.Plain) (V : TokenSet) :
    (s.peek V).2 = s ∨ (s.peek V).2 = s.look (V ∪ .ambient) := by
  have hk : (s.scan (V ∪ .ambient)).scanned.token.kind.isExtra = false := by
    rw [hs.isExtra_eq (scan_reads hs _).1]
    exact hplain
  unfold peek
  simp only [fetch_of_not hk]
  split
  · split
    · exact .inl rfl
    · exact .inr rfl
  · exact .inr rfl

theorem Poised.peek {cap : Nat} {text : List Char} {p : Stand} (h : s.Poised cap text p)
    (V : TokenSet) : (s.peek V).2.Poised cap text p ∧ ∃ la, (s.peek V).2.lookahead = some la
      ∧ la.valid = V ∪ .ambient ∧ la.scanned.token = (s.peek V).1 ∧ la.Reads cap p := by
  obtain ⟨la, hla, hv, htoken, hreads, hstands⟩ := peek_stays h.stands h.plain V
  have hlook : (s.look (V ∪ .ambient)).Poised cap text p :=
    ⟨h.stands.look _, h.plain, h.extras, h.depth⟩
  refine ⟨?_, la, hla, hv, htoken, hreads⟩
  rcases peek_cases h.stands h.plain V with hs | hs
  · rw [hs]
    exact h
  · rw [hs]
    exact hlook

end Session

open Session (Poised)

namespace Parser

variable {α β : Type} {cap : Nat} {text : List Char} {p : Stand} {s t : Session} {q : Parser α}
  {f : α → Parser β} {a : α} {b : β} {V sync first : TokenSet}

/-- Whatever the frontier is, the parser does the same. -/
def Resets (q : Parser α) (s : Session) : Prop :=
  ∀ l, q (s.fronted l) = q s

/-- Whatever the frontier is, the parser gives `a` and leads to `t` with the same frontier. -/
def Passes (q : Parser α) (s : Session) (a : α) (t : Session) : Prop :=
  ∀ l, q (s.fronted l) = .ok (a, t.fronted l)

/-- The parser gives the same whatever the frontier is. -/
def Indifferent (q : Parser α) (s : Session) : Prop :=
  Resets q s ∨ ∃ a t, Passes q s a t

theorem Resets.bind (h : Resets q s) (f : α → Parser β) : Resets (q >>= f) s := by
  intro l
  show (q (s.fronted l)).bind _ = (q s).bind _
  rw [h l]

theorem Passes.run (h : Passes q s a t) : q s = .ok (a, t.fronted s.frontier) :=
  h s.frontier

theorem Passes.bind (h : Passes q s a t) (hf : Resets (f a) t) : Resets (q >>= f) s := by
  intro l
  rw [bind_run (h l), bind_run h.run, hf, hf]

theorem Passes.trans {u : Session} (h : Passes q s a t) (hf : Passes (f a) t b u) :
    Passes (q >>= f) s b u := by
  intro l
  rw [bind_run (h l), hf]

theorem Passes.pure (a : α) (s : Session) : Passes (pure a) s a s :=
  fun _ => rfl

/-- With another frontier an indifferent parser gives the same, and the session that it leads to can
only have another frontier. -/
theorem Indifferent.exchange (h : Indifferent q s) {l : Location} :
    (∀ {a t}, q s = .ok (a, t) → ∃ l', q (s.fronted l) = .ok (a, t.fronted l'))
      ∧ ∀ {a t}, q (s.fronted l) = .ok (a, t) → ∃ l', q s = .ok (a, t.fronted l') := by
  rcases h with h | ⟨a, t, h⟩
  · rw [h l]
    exact ⟨fun hr => ⟨_, hr⟩, fun hr => ⟨_, hr⟩⟩
  · rw [h l, h.run]
    constructor
    · rintro _ _ ⟨⟩
      exact ⟨l, rfl⟩
    · rintro _ _ ⟨⟩
      exact ⟨s.frontier, rfl⟩

theorem loop_then {step : α → Parser (Bool × α)} {f : α → Parser β}
    (h : ∀ n, Resets (iterate step (n + 1) a >>= f) s) : Resets (loop step a >>= f) s :=
  h s.remaining

/-! ## Single moves -/

theorem peek_front (V : TokenSet) (s : Session) :
    Resets (peek V) s ∨ Passes (peek V) s (s.peek V).1 (s.peek V).2 := by
  by_cases hk : (s.peek V).1.kind = .error .depthExceeded
  · refine .inl fun l => ?_
    rw [peek_run, peek_run, Session.peek_fronted, if_pos hk]
    rfl
  · refine .inr fun l => ?_
    rw [peek_run, Session.peek_fronted, if_neg hk]
    rfl

theorem peek_then {f : Token → Parser β} (h : s.Poised cap text p)
    (hf : ∀ t la, t.Poised cap text p → t.lookahead = some la → la.valid = V ∪ .ambient →
      la.Reads cap p → Resets (f la.scanned.token) t) : Resets (peek V >>= f) s := by
  rcases peek_front V s with hpeek | hpeek
  · exact hpeek.bind f
  · obtain ⟨ht, la, hla, hv, htoken, hreads⟩ := h.peek V
    exact hpeek.bind (htoken ▸ hf _ la ht hla hv hreads)

theorem nextIs_then {kind : Kind} {f : Bool → Parser β} (h : s.Poised cap text p)
    (hf : ∀ t la, t.Poised cap text p → t.lookahead = some la →
      la.valid = .single kind ∪ .ambient → la.Reads cap p →
        Resets (f (decide (la.scanned.token.kind = kind))) t) : Resets (nextIs kind >>= f) s := by
  unfold nextIs
  simp only [bind_assoc, pure_bind]
  exact peek_then h hf

theorem flush_then {f : List Node → Parser β} (h : s.extras = #[] → Resets (f []) s) :
    Resets (flush >>= f) s := by
  by_cases hs : s.extras = #[]
  · have hpass : Passes flush s [] s := fun l =>
      congrArg Except.ok (Session.takeExtras_empty hs l)
    exact hpass.bind (h hs)
  · have hflush : Resets flush s := fun l =>
      congrArg Except.ok (s.takeExtras_fronted hs l)
    exact hflush.bind f

theorem leaf_resets {la : Lookahead} (h : s.Poised cap text p) (hla : s.lookahead = some la)
    (kind : NodeKind) : Resets (leaf kind) s := by
  have hk : la.scanned.token.kind.isExtra = false := by
    rw [h.stands.isExtra_eq (h.stands.lookahead la hla)]
    exact h.plain
  intro l
  show Except.ok (Node.leaf kind (s.fronted l).bump.1, (s.fronted l).bump.2) = _
  rw [Session.bump_fronted hla hk]
  rfl

theorem bump_resets {la : Lookahead} (h : s.Poised cap text p) (hla : s.lookahead = some la)
    (kind : NodeKind) (field : Option String) : Resets (bump kind field) s :=
  flush_then fun _ => (leaf_resets h hla kind).bind _

theorem recoverTo_then {f : Bool × List Node → Parser β} (h : s.Poised cap text p)
    (hfound : ∀ la : Lookahead, la.Reads cap p →
      la.valid = first ∪ recoverSet sync first ∪ .ambient →
      first.contains la.scanned.token.kind)
    (hf : ∀ t, t.Poised cap text p → Resets (f (true, [])) t) :
    Resets (recoverTo sync first >>= f) s := by
  unfold recoverTo
  simp only [bind_assoc]
  refine peek_then h fun t la ht hla hv hreads => ?_
  rw [if_pos (hfound la hreads hv), pure_bind]
  exact hf t ht

end Parser

namespace Idl

open AvroTree.Parse.Parser

variable {α : Type} {cap : Nat} {text : List Char} {p : Stand} {s : Session} {sync : TokenSet}
  {k : Kind}

/-! ## The first token of a declaration -/

/-- The tokens at which a file can go on. -/
def restart : TokenSet :=
  .single .eof ∪ First.declaration

theorem heads_wanted : First.declaration ∪ restart ∪ .ambient = First.declaration ∪ .ambient := by
  rw [restart, First.declaration_eq]
  decide

theorem type_wanted :
    First.type ∪ recoverSet restart First.type ∪ .ambient = First.declaration ∪ .ambient := by
  rw [restart, First.declaration_eq, First.type_eq]
  decide

theorem baseType_wanted :
    First.baseType ∪ recoverSet restart First.baseType ∪ .ambient
      = First.declaration ∪ .ambient := by
  rw [restart, First.declaration_eq, First.baseType_eq]
  decide

/-- A token of the kind `k` is found next when declarations are wanted. -/
def Starts (cap : Nat) (p : Stand) (k : Kind) : Prop :=
  ∀ la : Lookahead, la.Reads cap p → la.valid = First.declaration ∪ .ambient →
    la.scanned.token.kind = k

theorem declaration_orderly {k : Kind} (hk : k ∈ Grammar.declarationKinds) :
    Orderly (.single k) := by
  intro j hj
  have hplain : ∀ k ∈ Grammar.declarationKinds, k.isProper ∧ k.isError = false ∧ k ≠ .jsonSpan := by
    decide
  rw [TokenSet.eq_of_contains_single (hplain k hk).2.1 hj]
  exact hplain k hk

/-- What a declaration starts with is found when it alone is wanted. -/
theorem Starts.again (hp : p.Sound cap) (h : Starts cap p k) (hk : k ∈ Grammar.declarationKinds)
    {la la' : Lookahead} (hla : la.Reads cap p) (hv : la.valid = First.declaration ∪ .ambient)
    (hla' : la'.Reads cap p) (hv' : la'.valid = .single k ∪ .ambient) :
    la'.scanned.token.kind = k := by
  have hsame := h la hla hv
  have hcontains : First.declaration.contains k :=
    contains_first First.declaration_eq (fun k hk => ((declaration_orderly hk) k (by simp)).2.1) hk
  rw [← hsame]
  refine Parser.Session.look_again (declaration_orderly hk) hp hla hv ?_ (by simp [hsame]) hla' hv'
  intro j hj
  rw [TokenSet.eq_of_contains_single ((declaration_orderly hk) k (by simp)).2.1 hj]
  exact hcontains

theorem annotations_then {f : List Node → Parser α} (h : s.Poised cap text p)
    (hf : ∀ t (la : Lookahead), t.Poised cap text p → la.Reads cap p →
      la.valid = .single .atName ∪ .ambient → la.scanned.token.kind ≠ .atName → Resets (f []) t) :
    Resets (annotations sync >>= f) s := by
  unfold annotations gather
  simp only [bind_assoc, pure_bind]
  refine loop_then fun n => ?_
  simp only [iterate, bind_assoc]
  refine nextIs_then h fun t la ht hla hv hreads => ?_
  by_cases hk : la.scanned.token.kind = .atName
  · simp only [hk, decide_true, ↓reduceIte, bind_assoc]
    refine flush_then fun _ => ?_
    simp only [annotationUse, bind_assoc]
    exact (bump_resets ht hla _ _).bind _
  · simp only [hk, decide_false, Bool.false_eq_true, ↓reduceIte, pure_bind]
    exact hf t la ht hreads hv hk

/-! ## Before a token is taken -/

theorem baseType_resets {type : TypeReader} (h : s.Poised cap text p) :
    Resets (baseType type sync) s := by
  unfold baseType
  refine peek_then h fun t la ht hla hv hreads => ?_
  split
  · exact (leaf_resets ht hla _).bind _
  · exact (leaf_resets ht hla _).bind _
  · exact (leaf_resets ht hla _).bind _
  · exact (leaf_resets ht hla _).bind _
  · split_ifs <;> exact leaf_resets ht hla _
  · exact leaf_resets ht hla _

theorem type_resets {field : Option String} (h : s.Poised cap text p) (hstarts : Starts cap p k)
    (hk : k ∈ Grammar.typeKinds) : Resets (type restart field) s := by
  obtain ⟨levels, hlevels⟩ := Nat.exists_eq_succ_of_ne_zero h.depth
  have hplain : ∀ k ∈ Grammar.typeKinds, k.isError = false := by decide
  have hread : Resets (annotatedType (nullableType (typeAt levels)) restart field) s := by
    unfold annotatedType
    refine recoverTo_then h (fun la hla hv => ?_) fun t ht => ?_
    · rw [hstarts la hla (hv.trans type_wanted)]
      exact contains_first First.type_eq hplain hk
    refine annotations_then ht fun t la ht hla hv hname =>
      recoverTo_then ht (fun la' hla' hv' => ?_)
      fun t ht => flush_then fun _ => ?_
    · have hfirst := hv'.trans baseType_wanted
      rw [hstarts la' hla' hfirst]
      have hne : k ≠ .atName := by
        rintro rfl
        exact hname (hstarts.again ht.stands.sound (by decide) hla' hfirst hla hv)
      have hbase : ∀ k ∈ Grammar.baseTypeKinds, k.isError = false := by decide
      exact contains_first First.baseType_eq hbase ((List.mem_cons.1 hk).resolve_left hne)
    · unfold nullableType
      simp only [bind_assoc]
      exact (baseType_resets ht).bind _
  intro l
  show typeAt s.maxDepth restart field (s.fronted l) = typeAt s.maxDepth restart field s
  rw [hlevels]
  exact hread l

theorem message_resets (h : s.Poised cap text p) (hstarts : Starts cap p k)
    (hk : k ∈ Grammar.returnTypeKinds) {la : Lookahead} (hla : la.Reads cap p)
    (hv : la.valid = First.declaration ∪ .ambient) : Resets (message restart) s := by
  unfold message
  refine nextIs_then h fun t la' ht hla' hv' hreads => ?_
  by_cases hvoid : la'.scanned.token.kind = .keyword .void
  · simp only [hvoid, decide_true, ↓reduceIte]
    exact (bump_resets ht hla' _ _).bind _
  · simp only [hvoid, decide_false, Bool.false_eq_true, ↓reduceIte]
    have hne : k ≠ .keyword .void := by
      rintro rfl
      exact hvoid (hstarts.again ht.stands.sound (by decide) hla hv hreads hv')
    exact (type_resets ht hstarts ((List.mem_cons.1 hk).resolve_left hne)).bind _

/-- A declaration starts with a token whatever the frontier is. -/
theorem declaration_resets (h : s.Poised cap text p) (hstarts : Starts cap p k)
    (hk : k ∈ Grammar.declarationKinds) : Resets (declaration restart) s := by
  unfold declaration declarationWith
  simp only [↓reduceIte]
  refine annotations_then h fun t la ht hla hv hname =>
    peek_then ht fun u la' hu hla' hv' hreads => ?_
  have hfirst := hv'.trans heads_wanted
  rw [hstarts la' hreads hfirst]
  have hne : k ≠ .atName := by
    rintro rfl
    exact hname (hstarts.again ht.stands.sound hk hreads hfirst hla hv)
  have hheads : ∀ k ∈ Grammar.declarationKinds, k = .atName ∨ (headKind? true k).isSome
      ∧ (headKind? true k = some .messageDeclaration → k ∈ Grammar.returnTypeKinds) := by
    unfold headKind?
    simp only [First.returnType_eq]
    decide
  obtain ⟨hsome, hmessage⟩ := (hheads k hk).resolve_left hne
  obtain ⟨kind, hkind⟩ := Option.isSome_iff_exists.1 hsome
  rw [hkind] at hmessage ⊢
  have hsettle : settleAnnotations kind [] = pure [] := by
    unfold settleAnnotations
    rw [List.isEmpty_nil, Bool.or_true, if_pos rfl]
  simp only [hsettle, pure_bind]
  split_ifs with hm
  · exact (message_resets hu hstarts (hmessage (congrArg some hm)) hreads hfirst).bind _
  · exact (bump_resets hu hla' _ _).bind _

/-- In front of a token the tokens that are skipped start with it. -/
theorem skip_resets {V : TokenSet} {t : Token} {la : Lookahead} (h : s.Poised cap text p)
    (hla : s.lookahead = some la) (hf : s.Faces V t) (ht : t.kind ≠ .eof) : Resets (skip V) s := by
  unfold skip
  refine flush_then fun _ => loop_then fun n => ?_
  simp only [iterate, skipStep, bind_assoc]
  rcases peek_front V s with hpeek | hpeek
  · exact hpeek.bind _
  · rw [Session.peek_of_faces hf] at hpeek
    refine hpeek.bind ?_
    rw [if_neg (by simp [ht])]
    simp only [bind_assoc]
    exact (bump_resets h hla _ _).bind _

/-! ## Steps of reading a file -/

theorem progress_resets {β : Type} {element : Parser α} {stop : TokenSet}
    {f : α → List Node → Parser β} (h : Resets element s) : Resets (progress stop element f) s := by
  intro l
  show (element (s.fronted l)).bind _ = (element s).bind _
  rw [h l]
  rfl

/-- A step of reading a file takes a token first or has come to the end. -/
theorem programStep_front (hs : s.Sits cap text) (hdepth : s.maxDepth ≠ 0) (nodes : Array Node) :
    Resets (programStep nodes) s ∨ ∃ t, Passes (programStep nodes) s (false, nodes) t := by
  rw [programStep_eq]
  rcases peek_front First.declaration s with hpeek | hpeek
  · exact .inl (hpeek.bind _)
  obtain ⟨htook, la, hla, hv, htoken⟩ := Session.peek_took hs First.declaration
  have hfaces : (s.peek First.declaration).2.Faces First.declaration (s.peek First.declaration).1 :=
    ⟨la, hla, hv, htoken⟩
  have hdepth : (s.peek First.declaration).2.maxDepth ≠ 0 := by
    rwa [(Session.peek_onward s First.declaration).depth]
  generalize (s.peek First.declaration).1 = t at *
  generalize (s.peek First.declaration).2 = s₁ at *
  obtain ⟨p, hp⟩ := htook.sits.stands
  have hpoised (hextras : s₁.extras = #[]) : s₁.Poised cap text p :=
    ⟨hp, htook.sits.plain (by simp [hla]), hextras, hdepth⟩
  by_cases heof : t.kind = .eof
  · refine .inr ⟨s₁, hpeek.trans ?_⟩
    rw [if_pos heof]
    exact .pure _ _
  refine .inl (hpeek.bind ?_)
  rw [if_neg heof]
  have hstarts : Starts cap p t.kind := by
    intro la' hla' hv'
    obtain ⟨hsame, -⟩ := hla'.unique (hp.lookahead la hla) (hv'.trans hv.symm)
    rw [hsame, htoken]
  split_ifs with hcontains
  · refine flush_then fun hextras =>
      progress_resets (declaration_resets (hpoised hextras) hstarts ?_)
    rw [First.declaration_eq] at hcontains
    exact TokenSet.mem_of_contains (by decide) hcontains
  · refine Resets.bind ?_ _
    by_cases hextras : s₁.extras = #[]
    · exact skip_resets (hpoised hextras) hla hfaces heof
    · exact flush_then fun h => absurd h hextras

/-- What a file goes on with from a place is read the same whatever the frontier is there. -/
theorem iterate_indifferent (hs : s.Sits cap text) (hdepth : s.maxDepth ≠ 0) (nodes : Array Node) :
    ∀ n, Indifferent (iterate programStep n nodes) s
  | 0 => .inr ⟨nodes, s, .pure _ _⟩
  | n + 1 => by
    rcases programStep_front hs hdepth nodes with hstep | ⟨t, hstep⟩
    · exact .inl (hstep.bind _)
    · exact .inr ⟨nodes, t, hstep.trans (.pure _ _)⟩

end Idl

end Parse

end AvroTree
