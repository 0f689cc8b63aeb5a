import AvroTree.Proofs.IdlMirroring
import AvroTree.Proofs.SchemaRunning

/-!
# Schemas side by side

Schemas do the same to both sessions of a pair as well, on a track along which names are spelled
alike and objects declare the same (`Track.Schematic`). An object that says itself what it declares
is only read where an opening brace has been found, and there its text starts with this brace.
-/

namespace AvroTree

open Token (Kind)

namespace Parse

open AvroTree.Parse.Parser
open Session (Pair)

/-- Tokens are spelled alike along the track, and an object declares the same in both texts. -/
structure Track.Schematic (T : Track) : Prop where
  spelled {t t' : Token} : T.Tok t t' → t.kind.isExtra = false →
    spelled T.text' t' = spelled T.text t
  object {extras extras' ns ns' : List Node} {t t' : Token} {l l' : Location} :
    (∀ n ∈ extras, n.isExtra) → t.kind = .punct .lBrace → List.Forall₂ T.Same extras extras' →
    T.Tok t t' → List.Forall₂ T.Same ns ns' → T.Loc l l' →
    let opening := extras ++ [.leaf (.token (.punct .lBrace)) t]
    let opening' := extras' ++ [.leaf (.token (.punct .lBrace)) t']
    T.Same (.branch (Schema.objectKind T.text (opening ++ ns)) (opening ++ ns) l)
      (.branch (Schema.objectKind T.text' (opening' ++ ns')) (opening' ++ ns') l')

variable {T : Track} {P : Prop} {sync : TokenSet}

theorem Session.Pair.textAhead (hT : T.Schematic) {s t : Session} (h : Pair T s t) :
    t.textAhead = s.textAhead := by
  obtain ⟨p, q, hp, hq, -, hfound⟩ := h.stands
  generalize hla : s.lookahead = la at hfound
  generalize hlb : t.lookahead = lb at hfound
  cases hfound with
  | none => simp only [Session.textAhead, hla, hlb]
  | some hmeet =>
    rename_i la lb
    have hplain : la.scanned.token.kind.isExtra = false := by
      rw [hp.isExtra_eq (hp.lookahead la hla)]
      exact h.plain (by simp [hla])
    rw [Session.textAhead_eq hq hlb, Session.textAhead_eq hp hla]
    exact hT.spelled hmeet.token hplain

instance : Linked String := ⟨fun _ => Eq⟩

namespace Schema

theorem unquotedAhead_mirrors (hT : T.Schematic) : Mirrors T P unquotedAhead unquotedAhead := by
  have hask (cs : List Char) : Mirrors T P (pure (String.ofList (unquote cs)))
      (pure (String.ofList (unquote cs))) := .pure fun _ => rfl
  have hasked := Mirrors.ask (fun h => h.textAhead hT) hask
  exact hasked

theorem brackets_mirrors {kind : NodeKind} {first : TokenSet}
    {element : TokenSet → Parser (List Node)} (hkind : kind.names = false) (hfirst : T.Fit first)
    (heof : first.contains .eof = false)
    (h : ∀ (Q : Prop) (sync : TokenSet), T.Fit sync → Mirrors T Q (element sync) (element sync))
    (hsync : T.Fit sync) :
    Mirrors T P (brackets kind first element sync) (brackets kind first element sync) :=
  (bump_mirrors _ _).bind fun _ _ => (list_mirrors hsync hfirst heof (h _)).bind fun _ _ =>
    branch_mirrors hkind fun hp => List.rel_append hp.1.2 hp.2

theorem wholeMember_mirrors (hsync : T.Fit sync) :
    Mirrors T P (wholeMember sync) (wholeMember sync) :=
  expect_mirrors _ _ hsync

theorem schemaValue_fit : T.Fit First.schemaValue :=
  fun _ => schemaValue_jsonSpan

variable {inner : Option Level}

theorem schemaMember_mirrors (h : ∀ Q : Prop, Mirrors T Q (value inner sync) (value inner sync))
    (hsync : T.Fit sync) :
    Mirrors T P (schemaMember inner sync) (schemaMember inner sync) := by
  refine (peek_mirrors schemaValue_fit).bind fun t u => .ite (fun hp => by rw [T.kind_eq hp.2]) ?_
    (wholeMember_mirrors hsync)
  exact flush_mirrors.bind fun _ _ => (h _).bind fun _ _ => .pure fun hp =>
    List.rel_append hp.1.2 (.cons (T.label _ hp.2) .nil)

theorem pair_mirrors (hT : T.Schematic) (hsync : T.Fit sync)
    (h : ∀ (Q : Prop) (key : String), Mirrors T Q (member inner key sync) (member inner key sync)) :
    Mirrors T P (pair inner sync) (pair inner sync) := by
  refine flush_mirrors.bind fun extras extras' =>
    .alike id (unquotedAhead_mirrors hT) fun name => ?_
  refine (leaf_mirrors _).bind fun key key' => (expect_mirrors _ _ hsync).bind fun colon colon' =>
    (h _ name).bind fun value value' => (branch_mirrors rfl fun hp => ?_).bind fun _ _ =>
      .pure fun hp => T.label _ hp.2
  obtain ⟨⟨⟨⟨-, hextras⟩, hkey⟩, hcolon⟩, hvalue⟩ := hp
  exact List.rel_append (List.rel_append hextras (.cons (T.label _ hkey) hcolon)) hvalue

/-- The next token is an opening brace. -/
def Braced (s : Session) : Prop :=
  ∃ la, s.lookahead = some la ∧ la.scanned.token.kind = .punct .lBrace

/-- Readers for one level that do the same to both sessions of a pair, objects of their own kind
only where a brace has been found. -/
structure Level.Mirrored (T : Track) (level : Level) : Prop where
  value : ∀ (Q : Prop) (sync : TokenSet), T.Fit sync →
    Mirrors T Q (level.value sync) (level.value sync)
  entry : ∀ (Q : Prop) (sync : TokenSet), T.Fit sync →
    Mirrors T Q (level.object (some .fieldDeclaration) sync)
      (level.object (some .fieldDeclaration) sync)
  forward : ∀ sync, T.Fit sync → Forward (level.object none sync)
  object : ∀ sync, T.Fit sync → ∀ {s t : Session} {a : Node} {s' : Session}, Pair T s t →
    Braced s → level.object none sync s = .ok (a, s') → T.Good s' →
    ∃ b t', level.object none sync t = .ok (b, t') ∧ link T a b ∧ Pair T s' t'

section Levels

variable (hinner : ∀ level ∈ inner, level.Mirrored T)
include hinner

theorem deeper_mirrors {k : Level → Parser Node}
    (hk : ∀ level, level.Mirrored T → Mirrors T P (k level) (k level)) :
    Mirrors T P (deeper inner k) (deeper inner k) := by
  cases inner with
  | none => exact tooDeep_mirrors here here_built.forward
  | some level => exact hk level (hinner level rfl)

theorem listMember_mirrors {kind : NodeKind} {first : TokenSet}
    {element : Level → TokenSet → Parser (List Node)} (hkind : kind.names = false)
    (hfirst : T.Fit first) (heof : first.contains .eof = false)
    (h : ∀ level, level.Mirrored T → ∀ (Q : Prop) (sync : TokenSet), T.Fit sync →
      Mirrors T Q (element level sync) (element level sync)) (hsync : T.Fit sync) :
    Mirrors T P (listMember inner kind first element sync)
      (listMember inner kind first element sync) := by
  refine (nextIs_mirrors Kind.noConfusion).choose fun c => .ite (fun _ => Iff.rfl) ?_
    (wholeMember_mirrors hsync)
  exact flush_mirrors.bind fun _ _ => (deeper_mirrors hinner fun level hl =>
    brackets_mirrors hkind hfirst heof (h level hl) hsync).bind fun _ _ => .pure fun hp =>
      List.rel_append hp.1.2 (.cons (T.label _ hp.2) .nil)

theorem member_mirrors (hvalue : ∀ Q : Prop, Mirrors T Q (value inner sync) (value inner sync))
    (hsync : T.Fit sync) (key : String) :
    Mirrors T P (member inner key sync) (member inner key sync) := by
  rw [member.eq_def]
  split
  · exact schemaMember_mirrors hvalue hsync
  · exact schemaMember_mirrors hvalue hsync
  · exact schemaMember_mirrors hvalue hsync
  · exact listMember_mirrors hinner rfl (fit_punct _) rfl (fun level hl _ _ hsync =>
      (hl.entry _ _ hsync).bind fun _ _ => .pure fun hp => .cons hp.2 .nil) hsync
  · exact listMember_mirrors hinner rfl (fit_single Kind.noConfusion) rfl
      (fun _ _ _ _ _ => bump_mirrors _ _) hsync
  · exact listMember_mirrors hinner rfl schemaValue_fit First.schemaValue_eof
      (fun level hl _ _ hsync =>
      (hl.value _ _ hsync).bind fun _ _ => .pure fun hp => .cons hp.2 .nil) hsync
  · exact wholeMember_mirrors hsync

end Levels

theorem bump_found {s : Session} {la : Lookahead} (h : s.lookahead = some la) (kind : NodeKind) :
    bump kind none s
      = .ok (s.extras.toList ++ [.leaf kind la.scanned.token], s.takeExtras.2.commit la) := by
  have hbump : s.takeExtras.2.bump = (la.scanned.token, s.takeExtras.2.commit la) := by
    unfold Session.bump
    rw [show s.takeExtras.2.lookahead = some la from h]
  have hleaf : leaf kind s.takeExtras.2
      = .ok (.leaf kind la.scanned.token, s.takeExtras.2.commit la) := by
    show Except.ok (Node.leaf kind s.takeExtras.2.bump.1, s.takeExtras.2.bump.2) = _
    rw [hbump]
  have hflush : flush s = .ok (s.extras.toList, s.takeExtras.2) := rfl
  exact (bind_run hflush).trans (bind_run hleaf)

section Objects

variable (hT : T.Schematic)
  (hmember : ∀ (Q : Prop) (sync : TokenSet), T.Fit sync → ∀ key : String,
    Mirrors T Q (member inner key sync) (member inner key sync))
include hT hmember

/-- What stands behind an opening brace makes the same of what stands in front of it. -/
theorem members_mirrors (kind : Option NodeKind) (opening opening' : List Node)
    (hsync : T.Fit sync) (h : P → ∀ {ns ns' : List Node} {l l' : Location},
      List.Forall₂ T.Same ns ns' → T.Loc l l' →
      T.Same (.branch (kind.getD (objectKind T.text (opening ++ ns))) (opening ++ ns) l)
        (.branch (kind.getD (objectKind T.text' (opening' ++ ns'))) (opening' ++ ns') l')) :
    Mirrors T P
      (do
        let members ← list sync ⟨.rBrace, .single .string, true⟩ fun sync => do
          return [← pair inner sync]
        let children := opening ++ members
        branch (kind.getD (objectKind (← get).source children)) children)
      (do
        let members ← list sync ⟨.rBrace, .single .string, true⟩ fun sync => do
          return [← pair inner sync]
        let children := opening' ++ members
        branch (kind.getD (objectKind (← get).source children)) children) := by
  refine (list_mirrors hsync (fit_single Kind.noConfusion) rfl fun _ hsync =>
    (pair_mirrors hT hsync fun _ => hmember _ _ hsync).bind fun _ _ => .pure fun hp =>
      .cons hp.2 .nil).bind fun members members' => ?_
  have hbranch (c d : List Char) :
      Mirrors T ((P ∧ link T members members') ∧ c = T.text ∧ d = T.text')
        (branch (kind.getD (objectKind c (opening ++ members))) (opening ++ members))
        (branch (kind.getD (objectKind d (opening' ++ members'))) (opening' ++ members')) :=
    branch_mirrors_of fun ⟨⟨hp, hmembers⟩, hc, hd⟩ l l' hl => by
      subst hc hd
      exact h hp hmembers hl
  have hasked := Mirrors.asking (g := Session.source) (R := fun c d => c = T.text ∧ d = T.text')
    (fun hst => ⟨hst.source, hst.source'⟩) hbranch
  exact hasked

theorem entry_mirrors (hsync : T.Fit sync) :
    Mirrors T P (object inner (some .fieldDeclaration) sync)
      (object inner (some .fieldDeclaration) sync) :=
  (bump_mirrors _ _).bind fun _ _ => members_mirrors hT hmember _ _ _ hsync fun hp _ _ _ _ hns hl =>
    T.branch rfl (List.rel_append hp.2 hns) hl

theorem object_mirrors (hsync : T.Fit sync) {s t : Session} {a : Node} {s' : Session}
    (hst : Pair T s t) (hbrace : Braced s) (hr : object inner none sync s = .ok (a, s'))
    (hgood : T.Good s') :
    ∃ b t', object inner none sync t = .ok (b, t') ∧ link T a b ∧ Pair T s' t' := by
  obtain ⟨la, hla, hkind⟩ := hbrace
  obtain ⟨p, q, -, -, -, hfound⟩ := hst.stands
  generalize hlb : t.lookahead = lb at hfound
  rw [hla] at hfound
  cases hfound with
  | some hmeet =>
    rename_i lb
    have hbump := bump_found hla (.token (.punct .lBrace))
    have hbump' := bump_found hlb (.token (.punct .lBrace))
    have hrest := members_mirrors (P := True) hT hmember none
      (s.extras.toList ++ [Node.leaf (.token (.punct .lBrace)) la.scanned.token])
      (t.extras.toList ++ [Node.leaf (.token (.punct .lBrace)) lb.scanned.token]) hsync
      fun _ _ _ _ _ hns hl => hT.object hst.comments hkind hst.extras hmeet.token hns hl
    obtain ⟨opening, s₁, h₁, hr⟩ := bind_ok hr
    obtain ⟨rfl, rfl⟩ := Prod.mk.inj (Except.ok.inj (h₁.symm.trans hbump))
    have hgood₁ := hgood.of_before (hrest.forward _ _ _ hr)
    obtain ⟨opening', t₁, h₂, -, hst₁⟩ :=
      (bump_mirrors (P := True) _ _).follow trivial hst hbump hgood₁
    obtain ⟨rfl, rfl⟩ := Prod.mk.inj (Except.ok.inj (h₂.symm.trans hbump'))
    obtain ⟨b, t', ht', hab, hst'⟩ := hrest.follow trivial hst₁ hr hgood
    exact ⟨b, t', (bind_run hbump').trans ht', hab, hst'⟩

end Objects

section Values

/-- Behind a look at the kind of the next token, which is dealt with by itself if it is an opening
brace. -/
theorem peek_braced {V : TokenSet} {f : Token → Parser Node} (hV : T.Fit V)
    (hkind : ∀ x y, x.kind = y.kind → f x = f y)
    (h : ∀ x, x.kind ≠ .punct .lBrace → Mirrors T P (f x) (f x))
    (hf : ∀ x, x.kind = .punct .lBrace → Forward (f x))
    (hbrace : P → ∀ {x : Token} {s t : Session} {a : Node} {s' : Session},
      x.kind = .punct .lBrace → Pair T s t → Braced s → f x s = .ok (a, s') → T.Good s' →
      ∃ b t', f x t = .ok (b, t') ∧ link T a b ∧ Pair T s' t') :
    Mirrors T P (peek V >>= f) (peek V >>= f) := by
  have hforward (x : Token) : Forward (f x) := by
    by_cases hk : x.kind = .punct .lBrace
    · exact hf x hk
    · exact (h x hk).forward
  have hbind : Forward (peek V >>= f) := .bind (peek_forward V) hforward
  refine ⟨hbind, hbind, fun hp s t a s' hst hr hgood => ?_⟩
  obtain ⟨x, s₁, hpeek, hr⟩ := bind_ok hr
  have hgood₁ := hgood.of_before (hforward _ _ _ _ hr)
  obtain ⟨y, t₁, hpeek', hxy, hst₁⟩ := (peek_mirrors hV).follow hp hst hpeek hgood₁
  have hsame : f y = f x := hkind y x (T.kind_eq hxy)
  suffices hfollow : ∃ b t', f x t₁ = .ok (b, t') ∧ link T a b ∧ Pair T s' t' by
    obtain ⟨b, t', ht', hab, hst'⟩ := hfollow
    exact ⟨b, t', (bind_run hpeek').trans (by rwa [hsame]), hab, hst'⟩
  by_cases hk : x.kind = .punct .lBrace
  · obtain ⟨-, la, hla, -, htoken⟩ := Session.peek_took hst.sits V
    obtain ⟨rfl, rfl⟩ := peek_ok hpeek
    exact hbrace hp hk hst₁ ⟨la, hla, by rw [htoken, hk]⟩ hr hgood
  · exact (h x hk).follow hp hst₁ hr hgood

variable (hinner : ∀ level ∈ inner, level.Mirrored T)
include hinner

theorem value_mirrors (hT : T.Schematic) (hsync : T.Fit sync) :
    Mirrors T P (value inner sync) (value inner sync) := by
  have hforward : Forward (deeper inner fun level => level.object none sync) := by
    cases hi : inner with
    | none => exact .bind here_built.forward tooDeep_forward
    | some level => exact (hinner level hi).forward sync hsync
  refine peek_braced schemaValue_fit (fun x y hxy => by simp only [hxy]) (fun x => ?_)
    (fun x hx => by simpa only [hx] using hforward)
    fun _ x s t a s' hx hst hbrace hr hgood => ?_
  · split
    · exact fun hk => absurd ‹x.kind = _› hk
    · exact fun _ => deeper_mirrors hinner fun level hl => brackets_mirrors rfl schemaValue_fit
        First.schemaValue_eof (fun _ _ hsync => (hl.value _ _ hsync).bind fun _ _ =>
          .pure fun hp => .cons hp.2 .nil) hsync
    · exact fun _ => .alike id (unquotedAhead_mirrors hT) fun name => leaf_mirrors _
  · simp only [hx] at hr ⊢
    cases hi : inner with
    | none =>
      subst hi
      obtain ⟨l, s₁, -, hr⟩ := bind_ok hr
      exact (tooDeep_ok hr).elim
    | some level =>
      subst hi
      exact (hinner level rfl).object sync hsync hst hbrace hr hgood

end Values

theorem level_mirrored (hT : T.Schematic) : ∀ levels : Nat, (level levels).Mirrored T := by
  have hstep {inner : Option Level} (hinner : ∀ level ∈ inner, level.Mirrored T) :
      Level.Mirrored T ⟨value inner, object inner⟩ := by
    have hvalue (Q : Prop) (sync : TokenSet) (hsync : T.Fit sync) :
        Mirrors T Q (value inner sync) (value inner sync) := value_mirrors hinner hT hsync
    have hmember (Q : Prop) (sync : TokenSet) (hsync : T.Fit sync) (key : String) :
        Mirrors T Q (member inner key sync) (member inner key sync) :=
      member_mirrors hinner (fun Q => hvalue Q sync hsync) hsync key
    refine ⟨hvalue, fun _ _ => entry_mirrors hT hmember, fun sync hsync => ?_, fun _ hsync =>
      object_mirrors hT hmember hsync⟩
    exact .bind (bump_built _ _).forward fun opening =>
      (members_mirrors (P := False) hT hmember none opening opening hsync False.elim).forward
  intro levels
  induction levels with
  | zero => exact hstep (by simp)
  | succ levels ih =>
    refine hstep fun l hl => ?_
    obtain rfl := Option.some.inj hl
    exact ih

/-! ## Whole files -/

theorem end_fit : T.Fit (.single .eof) :=
  fit_single Kind.noConfusion

theorem trailingStep_strides : Strides T P trailingStep trailingStep where
  mirrors a b := (peek_mirrors end_fit).bind fun t u => .ite (fun hp => by rw [T.kind_eq hp.2])
    (.pure fun hp => ⟨rfl, hp.1.2⟩) ((skip_mirrors end_fit).bind fun _ _ => .pure fun hp =>
      ⟨rfl, link_append hp.1.1.2 hp.2⟩)
  grows hp a b s t r s' hab hst hr hgood hgo := by
    obtain ⟨u, s₁, hpeek, hr⟩ := bind_ok hr
    split at hr
    · obtain ⟨rfl, -⟩ := pure_ok hr
      cases hgo
    · rename_i hne
      obtain ⟨hsits, hf⟩ := peek_faced_of_ne hst.sits hpeek hne
      obtain ⟨ns, s₂, hskip, hr⟩ := bind_ok hr
      obtain ⟨-, rfl⟩ := pure_ok hr
      exact ((peek_forward _).size_le hpeek).trans_lt (skip_grows hsits hf hskip)

theorem whole_mirrors (hT : T.Schematic) : Mirrors T P whole whole :=
  .ask (g := Session.maxDepth) (k := fun n => (level n).value (.single .eof)) (fun hst => hst.depth)
    fun levels => (level_mirrored hT levels).value _ _ end_fit

theorem fileSchema_mirrors (hT : T.Schematic) {found found' : Bool} (hf : P → found = found') :
    Mirrors T P (fileSchema found) (fileSchema found') :=
  .ite (fun hp => by rw [hf hp])
    (flush_mirrors.bind fun _ _ => (whole_mirrors hT).bind fun _ _ => .pure fun hp =>
      List.rel_append hp.1.2 (.cons hp.2 .nil))
    ((missing_mirrors _ _).bind fun _ _ => .pure fun hp => .cons hp.2 .nil)

/-- A whole file does the same to both sessions of a pair. -/
theorem file_mirrors (hT : T.Schematic) : Mirrors T P file file := by
  rw [file_eq]
  refine (recoverTo_mirrors end_fit schemaValue_fit).bind fun _ _ =>
    (fileSchema_mirrors hT fun hp => hp.2.1).bind fun _ _ =>
      (gather_mirrors trailingStep_strides fun _ => .nil).bind fun _ _ =>
        flush_mirrors.bind fun _ _ => branch_mirrors rfl fun hp => ?_
  obtain ⟨⟨⟨⟨-, -, hskipped⟩, hschema⟩, hrest⟩, hextras⟩ := hp
  exact List.rel_append (List.rel_append (List.rel_append hskipped hschema) hrest) hextras

end Schema

end Parse

end AvroTree
