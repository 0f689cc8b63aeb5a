import AvroTree.Proofs.Balance
import AvroTree.Proofs.Extending
import AvroTree.Proofs.Frontiers
import AvroTree.Proofs.Insertion
import AvroTree.Proofs.Partition
import AvroTree.Proofs.Relocation

/-!
# Declarations by themselves

Behind declarations that nothing is wrong with a parse is where it was at its start: no bracket is
open, no comment waits, nothing has been looked for and nothing complained about. What comes behind
a newline is then read as if it stood alone (`parse_isolated`), however much is wrong with it.
-/

namespace AvroTree

open Token (Kind)
open Lexer (Stand Trail Blank ahead)
open Lexer.Stand (Clean Near Past)

namespace Parse

open AvroTree.Parse.Parser
open Session (Pair)

/-! ## The last declaration -/

namespace Session

/-- Where no comments wait behind the search for the next token none have been taken. -/
theorem fetch_idle (V : TokenSet) : ∀ (n : Nat) (s : Session), (fetch V n s).2.extras = #[] →
    s.extras = #[] ∧ (fetch V n s).2.log = s.log
  | n, s => by
    cases hk : (s.scan V).scanned.token.kind.isExtra with
    | false =>
      rw [fetch_of_not hk]
      exact fun h => ⟨h, rfl⟩
    | true =>
      cases n with
      | zero =>
        rw [fetch_zero]
        exact fun h => ⟨h, rfl⟩
      | succ n =>
        rw [fetch_succ hk]
        intro h
        obtain ⟨hextras, -⟩ := fetch_idle V n _ h
        exact absurd hextras Array.push_ne_empty

theorem peek_idle {s : Session} {V : TokenSet} (h : (s.peek V).2.extras = #[]) :
    s.extras = #[] ∧ (s.peek V).2.log = s.log := by
  unfold peek at h ⊢
  simp only [] at h ⊢
  split at h
  · split_ifs at h ⊢
    · exact ⟨h, rfl⟩
    · exact fetch_idle _ _ s h
  · exact fetch_idle _ _ s h

end Session

namespace Idl

variable {cap : Nat} {text : List Char} {s s' : Session} {nodes nodes' : Array Node} {d : Node}

theorem programStep_steers (nodes : Array Node) : Steers (programStep nodes) :=
  (programStep_built type_steers nodes).steers

/-- The last step of reading a file only looks for the end. -/
theorem programStep_stops (hr : programStep nodes s = .ok ((false, nodes'), s')) :
    nodes' = nodes ∧ s' = (s.peek First.declaration).2 := by
  rw [programStep_eq] at hr
  obtain ⟨t, s₁, hpeek, hr⟩ := bind_ok hr
  obtain ⟨-, rfl⟩ := peek_ok hpeek
  split at hr
  · obtain ⟨h, rfl⟩ := pure_ok hr
    cases h
    exact ⟨rfl, rfl⟩
  split at hr
  · cases addItem_goes hr
  · obtain ⟨_, _, -, hr⟩ := bind_ok hr
    obtain ⟨h, -⟩ := pure_ok hr
    cases h

/-- Where a file has been read without complaints up to a declaration it ends with, the steps up to
there have taken all tokens and have not looked for more. -/
theorem program_settles {root : Node} {u : Session} (hs : s.Ordered cap text) (hloose : s.Loose)
    (hr : program s = .ok (root, u)) (hfaults : u.faults = s.faults)
    (hlast : root.children.getLast? = some d) (hd : d.isExtra = false)
    (hdefault : d.kind = .enumDeclaration → ¬Bare d.children) :
    ∃ n nodes t, Goes programStep #[] s n nodes t ∧ nodes.toList = root.children
      ∧ t.lookahead = none ∧ t.extras = #[] ∧ t.log = u.log ∧ t.faults = u.faults := by
  unfold program gather at hr
  obtain ⟨declarations, s₁, hgather, hr⟩ := bind_ok hr
  obtain ⟨extras, s₂, hflush, hr⟩ := bind_ok hr
  obtain ⟨nodes, s₃, hloop, hpure⟩ := bind_ok hgather
  obtain ⟨rfl, rfl⟩ := pure_ok hpure
  cases hflush
  cases hr
  obtain ⟨n, b, t, hgoes, hstop⟩ := iterate_goes
    (fun nodes t => Session.Grew cap text s nodes.toList t)
    (fun _ _ _ _ hgrew hr => by
      obtain ⟨h, hlt⟩ := programStep_made hgrew hr
      exact ⟨h, fun hgo => by rwa [if_pos hgo] at hlt⟩)
    (s.remaining + 1) (a := #[]) (.refl hs) (Nat.lt_succ_self _) hloop
  obtain ⟨rfl, rfl⟩ := programStep_stops hstop
  have hgone {n : Nat} {nodes : Array Node} {t : Session} (h : Goes programStep #[] s n nodes t) :
      s.Onward t :=
    h.rel (.refl s) fun h hr => h.trans (programStep_steers _ _ _ _ hr)
  have hpeeked := t.peek_onward First.declaration
  have hloose' := hpeeked.loose ((hgone hgoes).loose hloose)
  have hle := (hgone hgoes).before.faults
  have hle' := hpeeked.before.faults
  have hfaults : (t.peek First.declaration).2.faults = s.faults := hfaults
  have hchildren : (nodes.toList ++ (t.peek First.declaration).2.extras.toList).getLast? = some d :=
    hlast
  have hempty : (t.peek First.declaration).2.extras = #[] := by
    by_contra hne
    rw [List.getLast?_append_of_ne_nil _ (by simpa using hne)] at hchildren
    have hextra := (hloose' d (List.mem_of_getLast? hchildren)).1
    rw [hd] at hextra
    cases hextra
  obtain ⟨hextras, hlog⟩ := Session.peek_idle hempty
  rw [hempty, List.append_nil] at hchildren
  refine ⟨n, nodes, t, hgoes, ?_, ?_, hextras, hlog.symm, by show t.faults = _; omega⟩
  · show nodes.toList = nodes.toList ++ (t.peek First.declaration).2.extras.toList
    rw [hempty, List.append_nil]
  · cases hgoes with
    | refl => cases hchildren
    | @snoc n c _ t' _ hgoes hstep =>
      have hon := hgone hgoes
      have hle := hon.before.faults
      have hle' := (programStep_steers _ _ _ _ hstep).before.faults
      obtain ⟨d', hd', hends⟩ :=
        programStep_ends (hon.seated ⟨⟨hs.stands, hs.plain⟩, hloose⟩) hstep (by omega)
      rw [hchildren, Option.some.injEq] at hd'
      exact hends (hd' ▸ hdefault)

theorem append_appendList (a b : Array Node) (ns : List Node) : a ++ b ++ ns = a ++ (b ++ ns) :=
  Array.toList_inj.1 (by simp)

theorem addItem_behind (stop : TokenSet) (element : Parser Node) (front nodes : Array Node) :
    addItem stop element (front ++ nodes)
      = (fun r => (r.1, front ++ r.2)) <$> addItem stop element nodes := by
  have hpush (extras skipped : List Node) (node : Node) :
      (front ++ nodes ++ extras).push node ++ skipped
        = front ++ ((nodes ++ extras).push node ++ skipped) := by
    rw [append_appendList, ← Array.append_push, append_appendList]
  unfold addItem
  rw [map_bind]
  refine bind_congr fun extras => ?_
  simp only [map_progress, map_pure, hpush]

/-- What has been read before is kept in front of what is read. -/
theorem programStep_behind (front nodes : Array Node) : programStep (front ++ nodes)
    = (fun r => (r.1, front ++ r.2)) <$> programStep nodes := by
  rw [programStep_eq, programStep_eq, map_bind]
  refine bind_congr fun t => ?_
  split_ifs
  · rw [map_pure]
  · exact addItem_behind _ _ front nodes
  · rw [map_bind]
    refine bind_congr fun skipped => ?_
    rw [map_pure, append_appendList]

end Idl

/-! ## In front of what follows -/

/-- Nothing waits in the session, nothing has been looked for and nothing complained about. -/
structure Session.Fresh (cap : Nat) (text : List Char) (p : Stand) (s : Session) : Prop where
  stands : s.Stands cap text p
  source : s.source = text
  lookahead : s.lookahead = none
  extras : s.extras = #[]
  lexical : s.lexical = #[]
  syntactic : s.syntactic = #[]

variable {cap : Nat} {text text' P P' : List Char} {p q : Stand} {s t : Session} {m m' : Nat × Nat}

theorem start_fresh (text : String) (maxDepth : Nat) (mode : Mode) :
    (Session.start text maxDepth mode none).Fresh (Lexer.Config.ofDepth maxDepth).cap text.toList
      (.start mode text.toList) :=
  ⟨start_stands (fun _ h => nomatch h), rfl, rfl, rfl, rfl, rfl⟩

namespace Session.Fresh

theorem fronted (h : s.Fresh cap text p) (l : Location) : (s.fronted l).Fresh cap text p where
  stands := ⟨h.stands.cap_eq, h.stands.state, h.stands.sound, h.stands.append, h.stands.cursor,
    h.stands.log, h.stands.lookahead, h.stands.previous⟩
  source := h.source
  lookahead := h.lookahead
  extras := h.extras
  lexical := h.lexical
  syntactic := h.syntactic

/-- Fresh sessions in front of the same text are a pair. -/
theorem pair (hs : s.Fresh cap text p) (ht : t.Fresh cap text' q) (hpast : Past P P' p q)
    (h : ∀ n, (Location.behind (P ++ n)).down m = (Location.behind (P' ++ n)).down m')
    (hfrontier : s.frontier.down m = t.frontier.down m') (hdepth : t.maxDepth = s.maxDepth) :
    Pair (Track.relocating cap text text' h s.log.toList t.log.toList) s t where
  stands := ⟨p, q, hs.stands, ht.stands, hpast, by
    rw [hs.lookahead, ht.lookahead]
    exact .none⟩
  plain hla := absurd hs.lookahead hla
  plain' hla := absurd ht.lookahead hla
  source := hs.source
  source' := ht.source
  comments n hn := by
    rw [hs.extras] at hn
    exact absurd hn List.not_mem_nil
  extras := by
    rw [hs.extras, ht.extras]
    exact .nil
  log := ⟨[], [], (List.append_nil _).symm, (List.append_nil _).symm, .nil⟩
  lexical := by
    rw [hs.lexical, ht.lexical]
    exact .nil
  syntactic := by
    rw [hs.syntactic, ht.syntactic]
    exact .nil
  frontier := hfrontier
  depth := hdepth

/-- Declarations in front of which nothing waits are read the same wherever they stand. -/
theorem follow (hs : s.Fresh cap text p) (ht : t.Fresh cap text' q) (hpast : Past P P' p q)
    (h : ∀ n, (Location.behind (P ++ n)).down m = (Location.behind (P' ++ n)).down m')
    (hfrontier : s.frontier.down m = t.frontier.down m') (hdepth : t.maxDepth = s.maxDepth)
    {n k : Nat} (hn : s.remaining < n) (hk : t.remaining < k) {nodes : Array Node} {s' : Session}
    (hr : iterate Idl.programStep n #[] s = .ok (nodes, s'))
    (hsolid : ∀ t ∈ s'.log.toList, t.token.kind ≠ .eof) :
    ∃ nodes' t', iterate Idl.programStep k #[] t = .ok (nodes', t')
      ∧ nodes.toList.map (Node.down m) = nodes'.toList.map (Node.down m')
      ∧ s'.extras.toList.map (Node.down m) = t'.extras.toList.map (Node.down m')
      ∧ s'.lexical.toList.map (Diagnostic.down m) = t'.lexical.toList.map (Diagnostic.down m')
      ∧ s'.syntactic.toList.map (Diagnostic.down m)
        = t'.syntactic.toList.map (Diagnostic.down m') := by
  obtain ⟨nodes', t', hr', hnodes, hpair⟩ :=
    (Idl.programStep_strides (P := True)).iterate trivial n k
    (a := #[]) (b := #[]) .nil (hs.pair ht hpast h hfrontier hdepth) hn hk hr
    ⟨False.elim, hsolid, fun _ => trivial⟩
  exact ⟨nodes', t', hr', map_down_eq hnodes, map_down_eq hpair.extras, map_down_eq hpair.lexical,
    map_down_eq hpair.syntactic⟩

end Session.Fresh

/-- After `n` steps, with the declarations `nodes` read, the session `t` of a parse of two texts
with a newline between them is in front of the second as it would be at its start. -/
structure Arrives (maxDepth : Nat) (front back : String) (n : Nat) (nodes : Array Node)
    (t : Session)
    (q : Stand) : Prop where
  goes : Goes Idl.programStep #[] (.start (front ++ "\n" ++ back) maxDepth .idl none) n nodes t
  remaining : t.remaining + n
    ≤ (Session.start (front ++ "\n" ++ back) maxDepth .idl none).remaining
  depth : t.maxDepth = maxDepth
  fresh : t.Fresh (Lexer.Config.ofDepth maxDepth).cap (front ++ "\n" ++ back).toList q
  past : Past [] (front.toList ++ ['\n']) (.start .idl back.toList) q

/-- Beside a session in which nothing waits stands a session like that. -/
theorem fresh_of_pair {T : Track} {l : List Scanned} (h : Pair T s t)
    (hq : t.Stands T.cap T.text' q)
    (hfound : Session.Found T l p q s.lookahead t.lookahead) (hlook : s.lookahead = none)
    (hextras : s.extras = #[]) (hfaults : s.faults = 0) : t.Fresh T.cap T.text' q := by
  rw [Session.faults, Nat.add_eq_zero_iff] at hfaults
  refine ⟨hq, h.source', ?_, ?_, ?_, ?_⟩
  · rw [hlook] at hfound
    generalize t.lookahead = la at hfound ⊢
    cases hfound
    rfl
  · have hwait := h.extras.length_eq
    rw [hextras] at hwait
    exact Array.size_eq_zero_iff.1 hwait.symm
  · exact Array.size_eq_zero_iff.1 (h.lexical.length_eq.symm.trans hfaults.1)
  · exact Array.size_eq_zero_iff.1 (h.syntactic.length_eq.symm.trans hfaults.2)

/-- Where only blanks are left of a text, what comes behind a newline is next. -/
theorem past_of_near {cap : Nat} {mode : Mode} {front back : List Char} {p q : Stand}
    (hnear : Near front [] ('\n' :: back) p q) (hleft : Clean cap p [])
    (hstate : p.state = { mode }) : Past [] (front ++ ['\n']) (.start mode back) q := by
  obtain ⟨w, hfront, hrest, hrest'⟩ := hnear.split
  have hblank : Blank w := by
    refine Lexer.blank_of_ahead ?_
    have hahead := hleft.ahead_eq_nil
    rwa [hrest, List.append_nil] at hahead
  refine ⟨?_, [], w ++ ['\n'], [], back, rfl, ?_, rfl, ?_, rfl, ?_⟩
  · rw [hnear.state, hstate]
    rfl
  · rw [Blank, List.all_append, hblank]
    rfl
  · rw [hrest', List.append_assoc]
    rfl
  · rw [hnear.pre, ← List.append_assoc, hfront, List.append_nil]

/-- Behind a text that is parsed without complaints and ends with a declaration a parse is in front
of the rest as it would be at its start. -/
theorem exists_arrives {config : Config} {front : String} {tree : Tree} {d : Node}
    (hmode : config.mode = some .idl) (hparse : parse config front = .ok tree)
    (hclean : tree.diagnostics = []) (hlast : tree.root.children.getLast? = some d)
    (hd : d.isExtra = false) (hdefault : d.kind = .enumDeclaration → ¬Bare d.children)
    (back : String) : ∃ n nodes t q, Arrives config.maxDepth front back n nodes t q
      ∧ nodes.toList = tree.root.children := by
  have hp := parse_clean hparse hclean
  obtain ⟨s, hs, htree⟩ := parse_ok hparse
  have htokens : tree.tokens = s.log.toList := by rw [htree]; rfl
  have hfaults : s.faults = 0 := by
    rw [htree] at hclean
    exact diagnostics_eq_nil_iff.1 hclean
  rw [modeFor_idl hmode] at hp hs
  rw [rootOf_idl] at hs
  obtain ⟨n, nodes, t, hgoes, hnodes, hlook, hextras, hlog, hfaults'⟩ :=
    Idl.program_settles (start_ordered _ _ _) (fun _ h => nomatch h) hs hfaults hlast hd hdefault
  have hdepth : t.maxDepth = config.maxDepth :=
    (hgoes.rel (R := Session.Onward) (.refl _) fun h hr =>
      h.trans (Idl.programStep_steers _ _ _ _ hr)).depth
  set cap := (Lexer.Config.ofDepth config.maxDepth).cap
  have htext : (front ++ "\n" ++ back).toList = front.toList ++ '\n' :: back.toList := by
    simp [String.toList_append]
  have hsolid : ∀ t ∈ tree.tokens, t.token.kind ≠ .eof := fun t ht =>
    (Kind.isMeant_iff.1 (hp.meant t ht)).1
  set T := Track.extending cap .idl front.toList back.toList hsolid
  have hruns :
      T.Runs [] (.start .idl front.toList) (.start .idl (front ++ "\n" ++ back).toList) := by
    refine ⟨tree.tokens, rfl, .nil _, hp, rfl, rfl, front.toList, rfl, ?_, htext⟩
    exact (List.append_nil _).symm
  have hpair : Pair T (.start front config.maxDepth .idl none)
      (.start (front ++ "\n" ++ back) config.maxDepth .idl none) :=
    .start rfl rfl htext.symm rfl rfl hruns rfl
  have hgood : T.Good t := by
    refine ⟨fun _ => hfaults'.trans hfaults, ?_, fun hla => ?_⟩
    · show t.log.toList <+: tree.tokens
      rw [hlog, htokens]
    · rw [hlook] at hla
      cases hla
  obtain ⟨nodes', v, hgoes', hlink, hpair', hle⟩ :=
    (Idl.programStep_strides (P := True)).goes trivial (b := #[]) .nil hpair hgoes hgood
  have hsame : nodes'.toList = nodes.toList := (List.forall₂_eq_eq_eq ▸ hlink : _ = _).symm
  obtain ⟨o, q, ho, hq, ⟨more, hmore, htrail, hleft, hnear⟩, hfound⟩ := hpair'.stands
  obtain rfl : more = [] := by
    rw [hlog, htokens] at hmore
    exact List.append_right_eq_self.1 hmore
  have hstate : o.state = { mode := .idl } := by
    obtain ⟨name, hderives⟩ : ∃ name, Grammar.avro.Derives (.symbol name) tree.kinds :=
      parse_taken hparse hclean (rootOf_spends _)
    have hturns : Token.Kind.turns [] ((Scanned.proper t.log.toList).map (·.kind)) = some [] := by
      rw [hlog, ← htokens]
      exact Grammar.balanced_of_derives hderives []
    refine htrail.turned (Stand.start_sound _ _) ?_ Mode.noConfusion hturns
    rw [hlog, ← htokens]
    exact hp.meant
  refine ⟨n, nodes', v, q, ⟨hgoes', hle, hpair'.depth.trans hdepth, ?_, ?_⟩, hsame.trans hnodes⟩
  · rw [htext]
    exact fresh_of_pair hpair' hq hfound hlook hextras (hfaults'.trans hfaults)
  · exact past_of_near hnear hleft hstate

/-! ## Whole texts -/

/-- The tree of a file of which the declarations have been read. -/
def fileOf (r : Array Node × Session) : Tree :=
  treeOf .idl (.branch .program (r.1.toList ++ r.2.extras.toList) r.2.takeExtras.2.frontier,
    r.2.takeExtras.2)

/-- In the interface language a text is parsed by reading its declarations. -/
theorem parse_idl_iff {config : Config} {text : String} {tree : Tree}
    (hvalid : config.validate = .ok ()) (hmode : config.mode = some .idl)
    (hsize : text.utf8ByteSize ≤ config.maxBytes) : parse config text = .ok tree ↔
      ∃ r, loop Idl.programStep #[] (.start text config.maxDepth .idl none) = .ok r
        ∧ fileOf r = tree := by
  have hprogram : Idl.program = loop Idl.programStep #[] >>= fun nodes => flush >>= fun extras =>
      branch .program (nodes.toList ++ extras) := by
    unfold Idl.program gather
    rw [bind_assoc]
    rfl
  rw [parse, run_read hvalid (Nat.not_lt.2 hsize), modeFor_idl hmode, rootOf_idl, hprogram]
  show ((loop Idl.programStep #[] (.start text config.maxDepth .idl none)).bind _).map _ = _ ↔ _
  cases loop Idl.programStep #[] (.start text config.maxDepth .idl none) with
  | error d =>
    constructor
    · rintro ⟨⟩
    · rintro ⟨_, ⟨⟩, -⟩
  | ok r =>
    constructor
    · rintro ⟨⟩
      exact ⟨r, rfl, rfl⟩
    · rintro ⟨_, ⟨⟩, rfl⟩
      rfl

/-- Every complaint is about a place. -/
theorem parse_located {config : Config} {text : String} {tree : Tree}
    (h : parse config text = .ok tree) : ∀ d ∈ tree.diagnostics, d.offset.isSome := by
  intro d hd
  obtain ⟨mode, s, htree, hgrew, -, -⟩ := parse_made h
  have hdiagnostics : tree.diagnostics = sortByOffset (s.lexical.toList ++ s.syntactic.toList) := by
    rw [htree]
    rfl
  rw [hdiagnostics, mem_sortByOffset, List.mem_append] at hd
  obtain ⟨category, message, l, -, rfl⟩ :=
    hd.elim (hgrew.ordered.lexical d) (hgrew.ordered.syntactic d)
  rfl

/-- The tokens of a tree do not include the end. -/
theorem parse_solid {config : Config} {text : String} {tree : Tree}
    (h : parse config text = .ok tree) : ∀ t ∈ tree.tokens, t.token.kind ≠ .eof := by
  intro t ht heof
  obtain ⟨mode, s, htree, hgrew, -, -⟩ := parse_made h
  have htokens : tree.tokens = s.log.toList := by rw [htree]; rfl
  rw [htokens] at ht
  obtain ⟨new, hlog, hmarks⟩ := hgrew.log
  obtain ⟨p, hp⟩ := hgrew.ordered.stands
  obtain ⟨mode, htrail⟩ := hp.log
  have hfrom : t.token.span.start = t.token.span.stop := by
    obtain ⟨before, after, hsplit⟩ := List.append_of_mem ht
    rw [hsplit] at htrail
    obtain ⟨q, hbefore, hq⟩ := htrail.split
    cases hq with
    | cons htoken =>
      obtain ⟨hstart, hpre⟩ := Stand.eof_stands (hbefore.sound (Stand.start_sound _ _)) htoken heof
      rw [hstart, Stand.stop_eq htoken, hpre]
  have hmark : Scanned.mark t ∈ Node.marks [tree.root] ++ Node.marks s.extras.toList := by
    rw [hmarks]
    refine List.mem_append_right _ (List.mem_map_of_mem ?_)
    rw [hlog] at ht
    exact ht
  rw [← Node.marks_append] at hmark
  obtain ⟨n, hn, hspan⟩ := List.mem_map.1 hmark
  have htoken := (List.mem_filter.1 hn).2
  have hspan : n.span = t.token.span := congrArg Prod.fst hspan
  simp [Node.isToken, hspan, Span.isEmpty, hfrom] at htoken

/-- How much further down the text stands that comes behind another one and a newline. -/
def shift (front : String) : Nat × Nat :=
  (front.utf8ByteSize + 1, front.toList.count '\n' + 1)

theorem behind_shift (front : String) (n : List Char) :
    (Location.behind ([] ++ n)).down (shift front)
    = (Location.behind (front.toList ++ ['\n'] ++ n)).down (0, 0) := by
  rw [Location.down_zero, Location.behind_newline, shift, Text.utf8ByteSize_eq]
  rfl

namespace Arrives

variable {maxDepth n : Nat} {front back : String} {nodes : Array Node} {t : Session} {q : Stand}

/-- Whatever the frontier is there, what follows is read the same. -/
theorem indifferent (h : Arrives maxDepth front back n nodes t q) (hdepth : maxDepth ≠ 0)
    (k : Nat) :
    Indifferent (iterate Idl.programStep k #[]) t :=
  Idl.iterate_indifferent ⟨⟨q, h.fresh.stands⟩, fun hla => absurd h.fresh.lookahead hla⟩
    (h.depth ▸ hdepth) #[] k

/-- Both texts are read as the first and then the second. -/
theorem loop_eq (h : Arrives maxDepth front back n nodes t q) :
    ∃ k, t.remaining < k
      ∧ loop Idl.programStep #[] (.start (front ++ "\n" ++ back) maxDepth .idl none)
        = ((nodes ++ ·) <$> iterate Idl.programStep k #[] : Parser (Array Node)) t := by
  show ∃ k, t.remaining < k ∧ iterate Idl.programStep (Session.remaining _ + 1) #[] _ = _
  have hle := h.remaining
  generalize (Session.start (front ++ "\n" ++ back) maxDepth .idl none).remaining = size at hle ⊢
  refine ⟨size + 1 - n, by omega, ?_⟩
  have hsplit := h.goes.iterate (size + 1 - n)
  rw [show n + (size + 1 - n) = size + 1 by omega] at hsplit
  rw [hsplit, ← iterate_map (Idl.programStep_behind nodes), Array.append_empty]

/-- What is read of the second text by itself is read behind the first. -/
theorem found (h : Arrives maxDepth front back n nodes t q) (hdepth : maxDepth ≠ 0) {k : Nat}
    {own : Array Node} {u : Session} (hk : t.remaining < k)
    (hr : loop Idl.programStep #[] (.start back maxDepth .idl none) = .ok (own, u))
    (hsolid : ∀ t ∈ u.log.toList, t.token.kind ≠ .eof) :
    ∃ own' u', iterate Idl.programStep k #[] t = .ok (own', u')
      ∧ own'.toList = own.toList.map (Node.down (shift front))
      ∧ u'.extras.toList = u.extras.toList.map (Node.down (shift front))
      ∧ u'.lexical.toList = u.lexical.toList.map (Diagnostic.down (shift front))
      ∧ u'.syntactic.toList = u.syntactic.toList.map (Diagnostic.down (shift front)) := by
  have hzero : Diagnostic.down (0, 0) = id := funext Diagnostic.down_zero
  obtain ⟨own', u', hr', hown, hextras, hlexical, hsyntactic⟩ :=
    (start_fresh back maxDepth .idl).follow (h.fresh.fronted (({} : Location).down (shift front)))
      h.past (behind_shift front) rfl h.depth (Nat.lt_succ_self _) hk hr hsolid
  obtain ⟨l, hrun⟩ := (h.indifferent hdepth k).exchange.2 hr'
  rw [Node.map_down_zero] at hown hextras
  rw [hzero, List.map_id] at hlexical hsyntactic
  exact ⟨own', _, hrun, hown.symm, hextras.symm, hlexical.symm, hsyntactic.symm⟩

/-- What can be read behind the first text can be read by itself. -/
theorem lost (h : Arrives maxDepth front back n nodes t q) (hdepth : maxDepth ≠ 0) {k : Nat}
    {own : Array Node} {u : Session} (hk : t.remaining < k)
    (hr : iterate Idl.programStep k #[] t = .ok (own, u))
    (hsolid : ∀ t ∈ u.log.toList, t.token.kind ≠ .eof) :
    ∃ own' u', loop Idl.programStep #[] (.start back maxDepth .idl none) = .ok (own', u') := by
  obtain ⟨l, hrun⟩ :=
    ((h.indifferent hdepth k).exchange (l := ({} : Location).down (shift front))).1 hr
  obtain ⟨own', u', hr', -⟩ := (h.fresh.fronted (({} : Location).down (shift front))).follow
    (start_fresh back maxDepth .idl) h.past.symm (fun n => (behind_shift front n).symm) rfl
    h.depth.symm hk (Nat.lt_succ_self _) hrun hsolid
  exact ⟨own', u', hr'⟩

end Arrives

end Parse

open Parse in
/-- Declarations that nothing is wrong with do not touch what follows. If a text without complaints
ends with a declaration, and that is no enum without a default, then a newline and any other text
may come behind it: parsing both succeeds just if the other text parses by itself, its nodes are
found behind the declarations as they are found there, only further down, and so are its
complaints. -/
theorem parse_isolated {config : Parse.Config} {front : String} {tree : Tree} {d : Node}
    (hmode : config.mode = some .idl) (hparse : parse config front = .ok tree)
    (hclean : tree.diagnostics = []) (hlast : tree.root.children.getLast? = some d)
    (hd : d.isExtra = false)
    (hdefault : d.kind = .enumDeclaration → (d.childNamed? "default").isSome) (back : String)
    (hsize : (front ++ "\n" ++ back).utf8ByteSize ≤ config.maxBytes) :
    let m := shift front
    ((∃ t, parse config (front ++ "\n" ++ back) = .ok t) ↔ ∃ t, parse config back = .ok t)
      ∧ ∀ t t', parse config back = .ok t → parse config (front ++ "\n" ++ back) = .ok t' →
        t'.root.children = tree.root.children ++ t.root.children.map (Node.down m)
          ∧ t'.diagnostics = t.diagnostics.map (Diagnostic.down m) := by
  intro m
  have hvalid := validate_of_parse hparse
  have hdepth : config.maxDepth ≠ 0 := by
    rintro h
    rw [Parse.Config.validate, if_pos (.inl h)] at hvalid
    cases hvalid
  have hsize' : back.utf8ByteSize ≤ config.maxBytes := by
    rw [String.utf8ByteSize_append] at hsize
    omega
  have hbare : d.kind = .enumDeclaration → ¬Bare d.children := by
    intro hkind hbare
    obtain ⟨c, hc⟩ := Option.isSome_iff_exists.1 (hdefault hkind)
    exact hbare c (List.mem_of_find?_eq_some hc) (by simpa using List.find?_some hc)
  obtain ⟨n, nodes, s, q, harrives, hnodes⟩ :=
    exists_arrives hmode hparse hclean hlast hd hbare back
  obtain ⟨k, hk, hiterate⟩ := harrives.loop_eq
  have hfound {t : Tree} (ht : parse config back = .ok t) :
      ∃ t', parse config (front ++ "\n" ++ back) = .ok t'
        ∧ t'.root.children = tree.root.children ++ t.root.children.map (Node.down m)
        ∧ t'.diagnostics = t.diagnostics.map (Diagnostic.down m) := by
    obtain ⟨⟨own, u⟩, hr, rfl⟩ := (parse_idl_iff hvalid hmode hsize').1 ht
    obtain ⟨own', u', hr', hown, hextras, hlexical, hsyntactic⟩ :=
      harrives.found hdepth hk hr (parse_solid ht)
    refine ⟨fileOf (nodes ++ own', u'), (parse_idl_iff hvalid hmode hsize).2
      ⟨_, hiterate.trans (Parser.map_ok.2 ⟨own', hr', rfl⟩), rfl⟩, ?_, ?_⟩
    · show (nodes ++ own').toList ++ u'.extras.toList
        = tree.root.children ++ (own.toList ++ u.extras.toList).map (Node.down m)
      rw [Array.toList_append, hnodes, hown, hextras, List.map_append, List.append_assoc]
    · show sortByOffset (u'.lexical.toList ++ u'.syntactic.toList)
        = (sortByOffset (u.lexical.toList ++ u.syntactic.toList)).map (Diagnostic.down m)
      rw [hlexical, hsyntactic, ← List.map_append, sortByOffset_down]
      exact fun e he => parse_located ht e (mem_sortByOffset.2 he)
  have hlost {t' : Tree} (ht' : parse config (front ++ "\n" ++ back) = .ok t') :
      ∃ t, parse config back = .ok t := by
    obtain ⟨⟨all, u⟩, hr, rfl⟩ := (parse_idl_iff hvalid hmode hsize).1 ht'
    obtain ⟨own, hr, -⟩ := Parser.map_ok.1 (hiterate.symm.trans hr)
    obtain ⟨own', u', hr'⟩ := harrives.lost hdepth hk hr (parse_solid ht')
    exact ⟨_, (parse_idl_iff hvalid hmode hsize').2 ⟨_, hr', rfl⟩⟩
  refine ⟨⟨?_, ?_⟩, ?_⟩
  · rintro ⟨t', ht'⟩
    exact hlost ht'
  · rintro ⟨t, ht⟩
    obtain ⟨t', ht', -⟩ := hfound ht
    exact ⟨t', ht'⟩
  · intro t t' ht ht'
    obtain ⟨u, hu, hchildren, hdiagnostics⟩ := hfound ht
    obtain rfl : t' = u := Except.ok.inj (ht'.symm.trans hu)
    exact ⟨hchildren, hdiagnostics⟩

open Parse in
/-- An enum that breaks off is read behind one with a default as it is by itself. -/
theorem parse_isolated_enum :
    let config : Parse.Config := { mode := some .idl }
    ∃ tree d t t', parse config "enum E \x7bA\x7d = A;" = .ok tree ∧ tree.diagnostics = []
      ∧ tree.root.children.getLast? = some d ∧ d.isExtra = false ∧ d.kind = .enumDeclaration
      ∧ (d.childNamed? "default").isSome
      ∧ parse config "enum \x7b" = .ok t ∧ t.root.hasError
      ∧ parse config ("enum E \x7bA\x7d = A;" ++ "\n" ++ "enum \x7b") = .ok t'
      ∧ t'.root.children = tree.root.children ++ t.root.children.map (Node.down (16, 1))
      ∧ t'.diagnostics = t.diagnostics.map (Diagnostic.down (16, 1)) := by
  intro config
  have hfront : (Parser.loop Idl.programStep #[]
      (.start "enum E \x7bA\x7d = A;" 64 .idl none)).toOption.any fun r =>
        (fileOf r).diagnostics.isEmpty && (fileOf r).root.children.getLast?.any fun d =>
          !d.isExtra && d.kind == .enumDeclaration && (d.childNamed? "default").isSome := by
    unfold Idl.programStep Idl.declaration Idl.declarationWith
    simp only [First.declaration_eq]
    decide +kernel
  have hback : (Parser.loop Idl.programStep #[]
      (.start "enum \x7b" 64 .idl none)).toOption.any fun r => (fileOf r).root.hasError := by
    unfold Idl.programStep Idl.declaration Idl.declarationWith
    simp only [First.declaration_eq]
    decide +kernel
  obtain ⟨r, hr, hfront⟩ := ok_of_any hfront
  obtain ⟨u, hu, herror⟩ := ok_of_any hback
  have hparse : parse config "enum E \x7bA\x7d = A;" = .ok (fileOf r) :=
    (parse_idl_iff rfl rfl (by decide)).2 ⟨r, hr, rfl⟩
  have hown : parse config "enum \x7b" = .ok (fileOf u) :=
    (parse_idl_iff rfl rfl (by decide)).2 ⟨u, hu, rfl⟩
  simp only [Bool.and_eq_true, List.isEmpty_iff, Option.any_eq_true, Bool.not_eq_true',
    beq_iff_eq] at hfront
  obtain ⟨hclean, d, hlast, ⟨hd, hkind⟩, hdefault⟩ := hfront
  obtain ⟨hiff, htrees⟩ := @parse_isolated config _ _ d rfl hparse hclean hlast hd
    (fun _ => hdefault) "enum \x7b" (by decide)
  obtain ⟨t', ht'⟩ := hiff.2 ⟨_, hown⟩
  obtain ⟨hchildren, hdiagnostics⟩ := htrees _ t' hown ht'
  exact ⟨_, d, _, t', hparse, hclean, hlast, hd, hkind, hdefault, hown, herror, ht', hchildren,
    hdiagnostics⟩

end AvroTree
