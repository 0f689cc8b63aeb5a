import AvroTree.Proofs.Parting
import AvroTree.Proofs.Taking

/-!
# Two sessions side by side

Two parses of different texts can be followed token by token when the texts have the same tokens
(`Track`). What they have found, taken and complained about then stays in pairs
(`Session.Pair`). In a strict track the first parse is known to end without complaints. Its tokens
are known beforehand there, and JSON values need only be looked for where one stands.
-/

namespace AvroTree

open Token (Kind)
open Lexer (Stand Trail Welcomes)

/-- The text of a node of this kind may say what the object around it declares. -/
def NodeKind.names (kind : NodeKind) : Bool :=
  kind == .jsonValue || kind == .primitiveType

namespace Parse

open Session (lexicalComplaint?)

/-- What is paired off in two parses: the places of two lexers behind the tokens that the first has
taken, and by them locations, tokens, nodes and complaints. -/
structure Course where
  cap : Nat
  text : List Char
  text' : List Char
  /-- The first parse has no complaints. -/
  strict : Prop
  /-- The stands in front of which the lexers read on when the first has taken these tokens. -/
  Runs : List Scanned → Stand → Stand → Prop
  /-- The first parse may come to have taken these tokens. -/
  Takes : List Scanned → Prop
  /-- Behind these tokens it may look for the next. -/
  Looks : List Scanned → Prop
  Loc : Location → Location → Prop
  Tok : Token → Token → Prop
  Same : Node → Node → Prop
  Diag : Diagnostic → Diagnostic → Prop
  /-- The tokens that were taken before. -/
  before : List Scanned
  before' : List Scanned

namespace Course

/-- JSON values are not looked for where they need not stand. -/
def Fit (T : Course) (V : TokenSet) : Prop :=
  T.strict → V.contains .jsonSpan = false

/-- The next tokens that two parses have found in front of two stands. -/
structure Meets (T : Course) (l : List Scanned) (p q : Stand) (la lb : Lookahead) : Prop where
  valid : lb.valid = la.valid
  used : lb.scanned.valid = la.scanned.valid
  token : T.Tok la.scanned.token lb.scanned.token
  runs : T.Takes (l ++ [la.scanned]) →
    T.Runs (l ++ [la.scanned]) (p.next T.cap la.scanned.valid) (q.next T.cap lb.scanned.valid)

/-- The tokens that two parses have taken, from where their ways began. -/
def Logged (T : Course) (l l' : List Scanned) : Prop :=
  ∃ new new', l = T.before ++ new ∧ l' = T.before' ++ new'
    ∧ List.Forall₂ (fun t u => T.Tok t.token u.token) new new'

/-- The first parse is still one that the track is about. -/
structure Good (T : Course) (s : Session) : Prop where
  clean : T.strict → s.faults = 0
  takes : T.Takes s.log.toList
  looks : s.lookahead.isSome → T.Looks s.log.toList

end Course

/-- A course along which what belongs together stays together. -/
structure Track extends Course where
  takes_init {l : List Scanned} {t : Scanned} : Takes (l ++ [t]) → Takes l ∧ Looks l
  solid {l : List Scanned} : Takes l → ∀ t ∈ l, t.token.kind ≠ .eof
  meet {l : List Scanned} {p q : Stand} {la lb : Lookahead} : Runs l p q → Looks l →
    p.Sound cap → q.Sound cap → p.pre ++ p.rest = text → q.pre ++ q.rest = text' →
    la.Reads cap p → lb.Reads cap q → lb.valid = la.valid → Welcomes la.valid →
    (toCourse.Fit la.valid ∨ Takes (l ++ [la.scanned])
      ∧ (la.scanned.token.kind = .jsonSpan ∨ la.scanned.token.kind.isExtra)) →
    toCourse.Meets l p q la lb
  kind_eq {t t' : Token} : Tok t t' → t'.kind = t.kind
  start {t t' : Token} : Tok t t' → Loc t.span.start t'.span.start
  stop {t t' : Token} : Tok t t' → Loc t.span.stop t'.span.stop
  complaint {l l' : Location} (category : Diagnostic.Category) (message : String) : Loc l l' →
    Diag (.located category message l) (.located category message l')
  leaf {t t' : Token} (kind : NodeKind) : Tok t t' → Same (.leaf kind t) (.leaf kind t')
  branch {ns ns' : List Node} {l l' : Location} {kind : NodeKind} (hkind : kind.names = false) :
    List.Forall₂ Same ns ns' → Loc l l' → Same (.branch kind ns l) (.branch kind ns' l')
  missing {l l' : Location} (kind : NodeKind) : Loc l l' →
    Same (.missing kind l) (.missing kind l')
  label {n n' : Node} (field : Option String) : Same n n' →
    Same (n.label field) (n'.label field)
  span_start {n n' : Node} : Same n n' → Loc n.span.start n'.span.start
  span_stop {n n' : Node} : Same n n' → Loc n.span.stop n'.span.stop

namespace Session

/-- What happens to a session on the way: no token is given back and no complaint withdrawn, and a
token that has been found stays found until one is taken. -/
structure Before (s s' : Session) : Prop where
  faults : s.faults ≤ s'.faults
  log : ∃ new, s'.log.toList = s.log.toList ++ new
    ∧ (new = [] → s.lookahead.isSome → s'.lookahead.isSome)

theorem Before.refl (s : Session) : s.Before s :=
  ⟨le_rfl, [], (List.append_nil _).symm, fun _ h => h⟩

theorem Before.trans {s t u : Session} (h : s.Before t) (h' : t.Before u) : s.Before u := by
  obtain ⟨new, hnew, hlook⟩ := h.log
  obtain ⟨new', hnew', hlook'⟩ := h'.log
  refine ⟨h.faults.trans h'.faults, new ++ new', ?_, fun hnil hs => ?_⟩
  · rw [hnew', hnew, List.append_assoc]
  · obtain ⟨hnil, hnil'⟩ := List.append_eq_nil_iff.1 hnil
    exact hlook' hnil' (hlook hnil hs)

theorem Before.size_le {s s' : Session} (h : s.Before s') : s.log.size ≤ s'.log.size := by
  obtain ⟨new, hnew, -⟩ := h.log
  rw [← Array.length_toList, ← Array.length_toList, hnew, List.length_append]
  exact Nat.le_add_right _ _

theorem commit_before (s : Session) (la : Lookahead) : s.Before (s.commit la) :=
  ⟨by rw [faults_commit]; exact Nat.le_add_right _ _, [la.scanned], Array.toList_push,
    fun h => nomatch h⟩

theorem look_before (s : Session) (valid : TokenSet) : s.Before (s.look valid) :=
  ⟨le_rfl, [], (List.append_nil _).symm, fun _ _ => rfl⟩

theorem takeComment_before (s : Session) (valid : TokenSet) : s.Before (s.takeComment valid) :=
  ⟨(commit_before s (s.scan valid)).faults, [(s.scan valid).scanned], Array.toList_push,
    fun h => nomatch h⟩

theorem takeComment_log (s : Session) (valid : TokenSet) :
    (s.takeComment valid).log.toList = s.log.toList ++ [(s.scan valid).scanned] :=
  Array.toList_push

theorem takeComment_rest {cap : Nat} {text : List Char} {s : Session} {p : Stand}
    {valid : TokenSet} (hp : s.Stands cap text p) (hk : (s.scan valid).scanned.token.kind.isExtra) :
    (s.takeComment valid).cursor.rest.length < s.cursor.rest.length := by
  obtain ⟨hla, -⟩ := scan_reads hp valid
  show (s.scan valid).cursor.rest.length < _
  rw [hla.cursor.rest_eq, hp.cursor.rest_eq]
  exact Stand.next_lt hp.sound hla.token (not_eof_of_isExtra hk)

theorem fetch_before (valid : TokenSet) : ∀ (n : Nat) (s : Session),
    s.Before (fetch valid n s).2
  | n, s => by
    cases hk : (s.scan valid).scanned.token.kind.isExtra with
    | false =>
      rw [fetch_of_not hk]
      exact look_before s valid
    | true =>
      cases n with
      | zero =>
        rw [fetch_zero]
        exact look_before s valid
      | succ n =>
        rw [fetch_succ hk]
        exact (takeComment_before s valid).trans (fetch_before valid n _)

theorem peek_before (s : Session) (valid : TokenSet) : s.Before (s.peek valid).2 := by
  unfold peek
  simp only []
  split
  · split
    · exact .refl s
    · exact fetch_before _ _ s
  · exact fetch_before _ _ s

theorem bump_before (s : Session) : s.Before s.bump.2 := by
  unfold bump
  split
  · exact commit_before s _
  · simp only []
    split
    · exact (peek_before s _).trans (commit_before _ _)
    · exact peek_before s _

end Session

open Session (Before)

theorem Track.takes_append (T : Track) {l : List Scanned} : ∀ {new : List Scanned},
    T.Takes (l ++ new) → T.Takes l ∧ (new ≠ [] → T.Looks l)
  | [], h => ⟨by rwa [List.append_nil] at h, fun hne => absurd rfl hne⟩
  | t :: new, h => by
    rw [List.append_cons] at h
    obtain ⟨htakes, -⟩ := T.takes_append h
    obtain ⟨htakes, hlooks⟩ := T.takes_init htakes
    exact ⟨htakes, fun _ => hlooks⟩

/-- What is known of a session in the end holds all the way. -/
theorem Course.Good.of_before {T : Track} {s s' : Session} (h : T.Good s') (hs : s.Before s') :
    T.Good s := by
  obtain ⟨new, hnew, hlook⟩ := hs.log
  obtain ⟨htakes, hlooks⟩ := T.takes_append (hnew ▸ h.takes)
  refine ⟨fun hstrict => Nat.le_zero.1 (hs.faults.trans (h.clean hstrict).le),
    htakes, fun hla => ?_⟩
  by_cases hnil : new = []
  · have hlooks := h.looks (hlook hnil hla)
    rwa [hnew, hnil, List.append_nil] at hlooks
  · exact hlooks hnil

namespace Session

/-- The next tokens that two sessions have found, if they have found any. -/
inductive Found (T : Track) (l : List Scanned) (p q : Stand) :
    (la lb : Option Lookahead) → Prop
  | none : Found T l p q none none
  | some {la lb : Lookahead} (h : T.Meets l p q la lb) : Found T l p q (some la) (some lb)

/-- Two sessions side by side: what the first has found and made has its counterpart in the
second. -/
structure Pair (T : Track) (s t : Session) : Prop where
  stands : ∃ p q, s.Stands T.cap T.text p ∧ t.Stands T.cap T.text' q ∧ T.Runs s.log.toList p q
    ∧ Found T s.log.toList p q s.lookahead t.lookahead
  plain : s.lookahead ≠ none → s.Plain
  plain' : t.lookahead ≠ none → t.Plain
  source : s.source = T.text
  source' : t.source = T.text'
  comments : ∀ n ∈ s.extras.toList, n.isExtra
  extras : List.Forall₂ T.Same s.extras.toList t.extras.toList
  log : T.Logged s.log.toList t.log.toList
  lexical : List.Forall₂ T.Diag s.lexical.toList t.lexical.toList
  syntactic : List.Forall₂ T.Diag s.syntactic.toList t.syntactic.toList
  frontier : T.Loc s.frontier t.frontier
  depth : t.maxDepth = s.maxDepth

namespace Pair

variable {T : Track} {s t : Session} {la lb : Lookahead} {p q : Stand} {valid V : TokenSet}

theorem sits (h : Pair T s t) : s.Sits T.cap T.text := by
  obtain ⟨p, -, hp, -⟩ := h.stands
  exact ⟨⟨p, hp⟩, h.plain⟩

theorem sits' (h : Pair T s t) : t.Sits T.cap T.text' := by
  obtain ⟨-, q, -, hq, -⟩ := h.stands
  exact ⟨⟨q, hq⟩, h.plain'⟩

theorem push_rel {α : Type} {R : α → α → Prop} {a b : Array α} {x y : α}
    (h : List.Forall₂ R a.toList b.toList) (hxy : R x y) :
    List.Forall₂ R (a.push x).toList (b.push y).toList := by
  rw [Array.toList_push, Array.toList_push]
  exact List.rel_append h (.cons hxy .nil)

theorem logged_push {l l' : Array Scanned} {a b : Scanned} (h : T.Logged l.toList l'.toList)
    (hab : T.Tok a.token b.token) : T.Logged (l.push a).toList (l'.push b).toList := by
  obtain ⟨new, new', hl, hl', hnew⟩ := h
  exact ⟨new ++ [a], new' ++ [b], by simp [hl], by simp [hl'],
    List.rel_append hnew (.cons hab .nil)⟩

theorem lexical_commit (h : Pair T s t)
    (hab : T.Tok la.scanned.token lb.scanned.token) :
    List.Forall₂ T.Diag (s.commit la).lexical.toList (t.commit lb).lexical.toList := by
  have hkind := T.kind_eq hab
  simp only [commit, lexicalComplaint?, hkind]
  cases la.scanned.token.kind with
  | error e =>
    refine push_rel h.lexical (T.complaint _ _ ?_)
    split
    · exact T.stop hab
    · exact T.start hab
  | _ => exact h.lexical

/-- Taking the next tokens of both. -/
theorem commit (h : Pair T s t) (hp : s.Stands T.cap T.text p)
    (hq : t.Stands T.cap T.text' q) (hla : la.Reads T.cap p) (hlb : lb.Reads T.cap q)
    (hmeet : T.Meets s.log.toList p q la lb) (hgood : T.Takes (s.log.toList ++ [la.scanned])) :
    Pair T (s.commit la) (t.commit lb) where
  stands := by
    refine ⟨_, _, hp.commit hla, hq.commit hlb, ?_, .none⟩
    show T.Runs (s.log.push la.scanned).toList _ _
    rw [Array.toList_push]
    exact hmeet.runs hgood
  plain h := absurd rfl h
  plain' h := absurd rfl h
  source := h.source
  source' := h.source'
  comments := h.comments
  extras := h.extras
  log := logged_push h.log hmeet.token
  lexical := h.lexical_commit hmeet.token
  syntactic := h.syntactic
  frontier := by
    show T.Loc (if la.scanned.token.kind.isExtra then _ else _)
      (if lb.scanned.token.kind.isExtra then _ else _)
    rw [T.kind_eq hmeet.token]
    split
    · exact h.frontier
    · exact T.stop hmeet.token
  depth := h.depth

/-- Comments that wait for their place. -/
theorem withExtras {a b : Array Node} (h : Pair T s t) (ha : ∀ n ∈ a.toList, n.isExtra)
    (hab : List.Forall₂ T.Same a.toList b.toList) :
    Pair T { s with extras := a } { t with extras := b } where
  stands := by
    obtain ⟨p, q, hp, hq, hr, hf⟩ := h.stands
    exact ⟨p, q, hp.withExtras a, hq.withExtras b, hr, hf⟩
  plain := h.plain
  plain' := h.plain'
  source := h.source
  source' := h.source'
  comments := ha
  extras := hab
  log := h.log
  lexical := h.lexical
  syntactic := h.syntactic
  frontier := h.frontier
  depth := h.depth

theorem takeComment (h : Pair T s t)
    (hp : s.Stands T.cap T.text p) (hq : t.Stands T.cap T.text' q)
    (hk : (s.scan valid).scanned.token.kind.isExtra)
    (hmeet : T.Meets s.log.toList p q (s.scan valid) (t.scan valid))
    (hgood : T.Takes (s.log.toList ++ [(s.scan valid).scanned])) :
    Pair T (s.takeComment valid) (t.takeComment valid) := by
  have hcommit := h.commit hp hq (scan_reads hp valid).1 (scan_reads hq valid).1 hmeet hgood
  refine hcommit.withExtras (fun n hn => ?_) ?_
  · rw [Array.toList_push, List.mem_append, List.mem_singleton] at hn
    rcases hn with hn | rfl
    · exact h.comments n hn
    · exact hk
  rw [T.kind_eq hmeet.token]
  exact push_rel hcommit.extras (T.leaf _ hmeet.token)

/-- Both have found their next tokens. -/
theorem look (h : Pair T s t) (hp : s.Stands T.cap T.text p) (hq : t.Stands T.cap T.text' q)
    (hr : T.Runs s.log.toList p q) (hs : s.Plain) (ht : t.Plain)
    (hmeet : T.Meets s.log.toList p q (s.scan valid) (t.scan valid)) :
    Pair T (s.look valid) (t.look valid) where
  stands := ⟨p, q, hp.look valid, hq.look valid, hr, .some hmeet⟩
  plain _ := hs
  plain' _ := ht
  source := h.source
  source' := h.source'
  comments := h.comments
  extras := h.extras
  log := h.log
  lexical := h.lexical
  syntactic := h.syntactic
  frontier := h.frontier
  depth := h.depth

/-- The next token may be looked for among these kinds: no JSON value is among them, or one is found
that the first parse comes to take. -/
def Sought (T : Track) (wanted : TokenSet) (s : Session) : Prop :=
  T.Fit wanted ∨ ∃ la, s.lookahead = some la ∧ T.Takes (s.log.toList ++ [la.scanned])
    ∧ la.scanned.token.kind = .jsonSpan

theorem meets (hp : s.Stands T.cap T.text p) (hq : t.Stands T.cap T.text' q)
    (hr : T.Runs s.log.toList p q) (hlooks : T.Looks s.log.toList) (hV : Welcomes V)
    (hfair : T.Fit V ∨ T.Takes (s.log.toList ++ [(s.scan V).scanned])
      ∧ ((s.scan V).scanned.token.kind = .jsonSpan ∨ (s.scan V).scanned.token.kind.isExtra)) :
    T.Meets s.log.toList p q (s.scan V) (t.scan V) := by
  obtain ⟨hla, hv⟩ := scan_reads hp V
  obtain ⟨hlb, hv'⟩ := scan_reads hq V
  refine T.meet hr hlooks hp.sound hq.sound hp.append hq.append hla hlb (hv'.trans hv.symm) ?_ ?_
  · rwa [hv]
  · rwa [hv]

/-- Both take the same comments and find the same token behind them. -/
theorem fetch (hV : Welcomes V) : ∀ (n m : Nat) {s t : Session}, Pair T s t →
    s.cursor.rest.length ≤ n → t.cursor.rest.length ≤ m → T.Good (Session.fetch V n s).2 →
    Sought T V (Session.fetch V n s).2 →
    T.Tok (Session.fetch V n s).1 (Session.fetch V m t).1
      ∧ Pair T (Session.fetch V n s).2 (Session.fetch V m t).2
  | n, m, s, t, h, hn, hm, hgood, hsought => by
    obtain ⟨p, q, hp, hq, hr, -⟩ := h.stands
    obtain ⟨hla, -⟩ := scan_reads hp V
    obtain ⟨hlb, -⟩ := scan_reads hq V
    cases hk : (s.scan V).scanned.token.kind.isExtra with
    | false =>
      rw [fetch_of_not hk] at hgood hsought ⊢
      have hmeet := meets hp hq hr (hgood.looks rfl) hV (hsought.imp_right (by
        rintro ⟨la, ⟨⟩, htakes, hjson⟩
        exact ⟨htakes, .inl hjson⟩))
      have hk' : (t.scan V).scanned.token.kind.isExtra = false := by
        rw [T.kind_eq hmeet.token, hk]
      rw [fetch_of_not hk']
      refine ⟨hmeet.token, h.look hp hq hr ?_ ?_ hmeet⟩
      · rw [Plain, ← hp.isExtra_eq hla, hk]
      · rw [Plain, ← hq.isExtra_eq hlb, hk']
    | true =>
      have hlt := takeComment_rest hp hk
      cases n with
      | zero => omega
      | succ n =>
        rw [fetch_succ hk] at hgood hsought ⊢
        have htakes := (hgood.of_before (fetch_before V n _)).takes
        rw [takeComment_log] at htakes
        have hmeet := meets hp hq hr (T.takes_init htakes).2 hV (.inr ⟨htakes, .inr hk⟩)
        have hk' : (t.scan V).scanned.token.kind.isExtra := by
          rw [T.kind_eq hmeet.token, hk]
        have hlt' := takeComment_rest hq hk'
        cases m with
        | zero => omega
        | succ m =>
          rw [fetch_succ hk']
          exact fetch hV n m (h.takeComment hp hq hk hmeet htakes) (by omega) (by omega) hgood
            hsought

theorem welcomes_union (V : TokenSet) : Welcomes (V ∪ .ambient) := by
  have hambient : TokenSet.ambient.contains .comment ∧ TokenSet.ambient.contains .docComment := by
    decide
  refine ⟨?_, ?_⟩
  · rw [TokenSet.contains_union, hambient.1, Bool.or_true]
  · rw [TokenSet.contains_union, hambient.2, Bool.or_true]

theorem fit_union (hV : T.Fit V) : T.Fit (V ∪ .ambient) := by
  intro hs
  rw [TokenSet.contains_union, hV hs]
  decide

/-- Finding the next token. -/
theorem peek (h : Pair T s t) (hgood : T.Good (s.peek V).2)
    (hsought : Sought T V (s.peek V).2) :
    T.Tok (s.peek V).1 (t.peek V).1 ∧ Pair T (s.peek V).2 (t.peek V).2 := by
  have hsought : Sought T (V ∪ .ambient) (s.peek V).2 := hsought.imp_left fit_union
  obtain ⟨p, q, hp, hq, hr, hfound⟩ := h.stands
  have hs := hp.cursor.rest_eq ▸ hp.length_le_remaining
  have ht := hq.cursor.rest_eq ▸ hq.length_le_remaining
  have hfetch := h.fetch (welcomes_union V) s.remaining t.remaining hs ht
  unfold Session.peek at hgood hsought ⊢
  generalize hl : s.lookahead = la at *
  generalize hl' : t.lookahead = lb at *
  cases hfound with
  | none => exact hfetch hgood hsought
  | some hmeet =>
    simp only [hmeet.valid] at hgood hsought ⊢
    split_ifs at hgood hsought ⊢
    · exact ⟨hmeet.token, h⟩
    · exact hfetch hgood hsought

theorem commit_found (h : Pair T s t) (hla : s.lookahead = some la)
    (hlb : t.lookahead = some lb) (hgood : T.Good (s.commit la)) :
    T.Tok la.scanned.token lb.scanned.token ∧ Pair T (s.commit la) (t.commit lb) := by
  obtain ⟨p, q, hp, hq, -, hfound⟩ := h.stands
  rw [hla, hlb] at hfound
  cases hfound with
  | some hmeet =>
    have htakes : T.Takes (s.log.push la.scanned).toList := hgood.takes
    rw [Array.toList_push] at htakes
    exact ⟨hmeet.token, h.commit hp hq (hp.lookahead la hla) (hq.lookahead lb hlb) hmeet htakes⟩

theorem fit_lexical : T.Fit .lexical := by
  intro _
  rw [TokenSet.contains_lexical]
  rfl

/-- Taking the next token. -/
theorem bump (h : Pair T s t) (hgood : T.Good s.bump.2) :
    T.Tok s.bump.1 t.bump.1 ∧ Pair T s.bump.2 t.bump.2 := by
  obtain ⟨p, q, hp, hq, -, hfound⟩ := h.stands
  unfold Session.bump at hgood ⊢
  generalize hl : s.lookahead = la at *
  generalize hl' : t.lookahead = lb at *
  cases hfound with
  | some hmeet => exact h.commit_found hl hl' hgood
  | none =>
    obtain ⟨-, la, hla, -, htoken⟩ := peek_took h.sits .lexical
    obtain ⟨-, lb, hlb, -, htoken'⟩ := peek_took h.sits' .lexical
    simp only [hla, hlb] at hgood ⊢
    have hpeek := h.peek (hgood.of_before (commit_before _ _)) (.inl fit_lexical)
    rw [← htoken, ← htoken']
    exact hpeek.2.commit_found hla hlb hgood

theorem rel_getLast? {α : Type} {R : α → α → Prop} {l l' : List α} (h : List.Forall₂ R l l') :
    Option.Rel R l.getLast? l'.getLast? := by
  induction h with
  | nil => exact .none
  | cons hab h ih =>
    cases h with
    | nil => exact .some hab
    | cons => exact ih

/-- Handing over the comments that wait. -/
theorem takeExtras (h : Pair T s t) :
    List.Forall₂ T.Same s.takeExtras.1 t.takeExtras.1 ∧ Pair T s.takeExtras.2 t.takeExtras.2 := by
  obtain ⟨p, q, hp, hq, hr, hfound⟩ := h.stands
  have hlast := rel_getLast? h.extras
  rw [Array.getLast?_toList, Array.getLast?_toList] at hlast
  refine ⟨h.extras, ⟨p, q, hp.takeExtras, hq.takeExtras, hr, hfound⟩, h.plain, h.plain', h.source,
    h.source',
    by simp [Session.takeExtras], .nil, h.log, h.lexical, h.syntactic, ?_, h.depth⟩
  unfold Session.takeExtras
  generalize s.extras.back? = a at hlast ⊢
  generalize t.extras.back? = b at hlast ⊢
  cases hlast with
  | none => exact h.frontier
  | some hab => exact T.span_stop hab

/-- Complaining about places that belong together. -/
theorem complain (h : Pair T s t) {d d' : Diagnostic} (hd : T.Diag d d') :
    Pair T { s with syntactic := s.syntactic.push d }
      { t with syntactic := t.syntactic.push d' } := by
  obtain ⟨p, q, hp, hq, hr, hfound⟩ := h.stands
  have hstands {cap : Nat} {text : List Char} {u : Session} {o : Stand} (d : Diagnostic)
      (hu : u.Stands cap text o) :
      Stands cap text { u with syntactic := u.syntactic.push d } o :=
    ⟨hu.cap_eq, hu.state, hu.sound, hu.append, hu.cursor, hu.log, hu.lookahead, hu.previous⟩
  exact ⟨⟨p, q, hstands d hp, hstands d' hq, hr, hfound⟩, h.plain, h.plain', h.source, h.source',
    h.comments, h.extras, h.log, h.lexical, push_rel h.syntactic hd, h.frontier, h.depth⟩

end Pair

/-! ## How far a session has come -/

theorem pre_size_of_log {cap : Nat} {text : List Char} {mode mode' : Mode} {l : List Scanned}
    {p q : Stand} (h : Trail cap (.start mode text) l p) (h' : Trail cap (.start mode' text) l q) :
    Text.size p.pre = Text.size q.pre := by
  cases hl : l.getLast? with
  | none =>
    obtain rfl := List.getLast?_eq_none_iff.1 hl
    rw [h.eq_of_nil, h'.eq_of_nil]
    rfl
  | some t =>
    have hstop := (h.last_eq hl).1.symm.trans (h'.last_eq hl).1
    rw [← Location.behind_byte, ← Location.behind_byte, hstop]

theorem trail_size {cap : Nat} {p q : Stand} {l : List Scanned} (h : Trail cap p l q)
    (hp : p.Sound cap) (hl : ∀ t ∈ l, t.token.kind ≠ .eof) :
    Text.size p.pre ≤ Text.size q.pre ∧ (l ≠ [] → Text.size p.pre < Text.size q.pre) := by
  induction h with
  | nil p => exact ⟨le_rfl, fun hne => absurd rfl hne⟩
  | cons ht rest ih =>
    obtain ⟨hle, -⟩ := ih (Stand.next_sound hp) fun t ht => hl t (List.mem_cons_of_mem _ ht)
    have hstart := Stand.le_start hp ht
    have hlt := Stand.start_lt_stop hp ht (hl _ List.mem_cons_self)
    rw [Stand.stop_eq ht, Location.behind_byte] at hlt
    exact ⟨by omega, fun _ => by omega⟩

/-- A session has moved if and only if it has taken tokens. -/
theorem Stands.byte_of_log {cap : Nat} {text : List Char} {s s' : Session} {p p' : Stand}
    {new : List Scanned} (hp : s.Stands cap text p) (hp' : s'.Stands cap text p')
    (hlog : s'.log.toList = s.log.toList ++ new) (hnew : ∀ t ∈ new, t.token.kind ≠ .eof) :
    (new = [] → s'.cursor.place.byte = s.cursor.place.byte)
      ∧ (new ≠ [] → s.cursor.place.byte < s'.cursor.place.byte) := by
  obtain ⟨mode, hs⟩ := hp.log
  obtain ⟨mode', hs'⟩ := hp'.log
  rw [hlog] at hs'
  obtain ⟨r, hr, hrest⟩ := hs'.split
  have hsize := pre_size_of_log hs hr
  rw [hp.cursor.byte_eq, hp'.cursor.byte_eq, hsize]
  refine ⟨?_, (trail_size hrest (hr.sound (Stand.start_sound _ _)) hnew).2⟩
  rintro rfl
  rw [hrest.eq_of_nil]

theorem exists_of_rel {α : Type} {R : α → α → Prop} {l l' : List α} {b : α}
    (h : List.Forall₂ R l l') (hb : b ∈ l') : ∃ a ∈ l, R a b := by
  induction h with
  | nil => cases hb
  | cons hxy _ ih =>
    rcases List.mem_cons.1 hb with rfl | hb
    · exact ⟨_, List.mem_cons_self, hxy⟩
    · obtain ⟨a, ha, hab⟩ := ih hb
      exact ⟨a, List.mem_cons_of_mem _ ha, hab⟩

namespace Pair

variable {T : Track} {s s' t t' : Session}

/-- What both have taken on the way belongs together, and so both have moved or none has. -/
theorem moved (h : Pair T s t) (h' : Pair T s' t') (hs : s.Before s')
    (ht : t.Before t') (hgood : T.Good s') :
    (s'.cursor.place.byte = s.cursor.place.byte ↔ t'.cursor.place.byte = t.cursor.place.byte)
      ∧ (s.log.size < s'.log.size → s'.remaining < s.remaining ∧ t'.remaining < t.remaining) := by
  obtain ⟨new, hnew, -⟩ := hs.log
  obtain ⟨new', hnew', -⟩ := ht.log
  obtain ⟨a, b, ha, hb, hab⟩ := h.log
  obtain ⟨a', b', ha', hb', hab'⟩ := h'.log
  obtain ⟨p, q, hp, hq, -⟩ := h.stands
  obtain ⟨p', q', hp', hq', -⟩ := h'.stands
  have hrel : List.Forall₂ (fun t u => T.Tok t.token u.token) new new' := by
    rw [ha, ha', List.append_assoc] at hnew
    rw [hb, hb', List.append_assoc] at hnew'
    rw [List.append_cancel_left hnew, List.append_cancel_left hnew'] at hab'
    have hdrop := List.forall₂_drop a.length hab'
    rwa [List.drop_left, hab.length_eq, List.drop_left] at hdrop
  have hsolid : ∀ t ∈ new, t.token.kind ≠ .eof := fun t ht =>
    T.solid hgood.takes t (hnew ▸ List.mem_append_right _ ht)
  have hsolid' : ∀ u ∈ new', u.token.kind ≠ .eof := by
    intro u hu
    obtain ⟨t, ht, htu⟩ := exists_of_rel hrel hu
    rw [T.kind_eq htu]
    exact hsolid t ht
  obtain ⟨hstay, hgo⟩ := hp.byte_of_log hp' hnew hsolid
  obtain ⟨hstay', hgo'⟩ := hq.byte_of_log hq' hnew' hsolid'
  have hsize : s'.log.size = s.log.size + new.length := by
    rw [← Array.length_toList, hnew, List.length_append, Array.length_toList]
  cases hrel with
  | nil =>
    refine ⟨⟨fun _ => hstay' rfl, fun _ => hstay rfl⟩, fun hlt => ?_⟩
    rw [hsize] at hlt
    exact absurd hlt (Nat.lt_irrefl _)
  | cons =>
    have hlt := hgo (List.cons_ne_nil _ _)
    have hlt' := hgo' (List.cons_ne_nil _ _)
    exact ⟨⟨fun he => absurd he hlt.ne', fun he => absurd he hlt'.ne'⟩, fun _ =>
      ⟨h.sits.remaining_lt h'.sits hlt, h.sits'.remaining_lt h'.sits' hlt'⟩⟩

end Pair

end Session

end Parse

end AvroTree
