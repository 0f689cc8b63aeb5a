import AvroTree.Proofs.Acceptance
import AvroTree.Proofs.Likeness
import AvroTree.Proofs.Retracing

/-!
# Blanks between tokens

Layout does not matter: blanks that are put in where no token stands leave a text without complaints
without complaints, in the same language, and of the same short form (`parse_blanks`).
-/

namespace AvroTree

open Token (Kind)
open Lexer (Stand Trail Blank ahead)
open Lexer.Stand (Abreast Apart Clean)

namespace Lexer

open Text (Gap pass?)

variable {cap : Nat} {V : TokenSet} {mode : Mode} {u r : List Char}

/-- A plain token of a language that is known is one of a language that is not. -/
theorem plain_unsettled {c : Char} {s : List Char} {k : Kind}
    (h : (plain V mode c s).value = .ok k) : plain V .unknown c s = plain V mode c s := by
  by_cases hc : c = '\'' ∧ mode = .json
  · obtain ⟨rfl, rfl⟩ := hc
    cases h
  · have hsame : (c = '\'' ∧ (Mode.unknown : Mode) ≠ .json) ↔ (c = '\'' ∧ mode ≠ .json) := by
      refine and_congr_right fun hquote => ?_
      simp only [ne_eq, reduceCtorEq, not_false_eq_true, true_iff]
      exact fun hmode => hc ⟨hquote, hmode⟩
    unfold plain
    simp only [hsame]

/-- What is a token in order in a language is one before the language is known. -/
theorem Whole.unsettled (h : Whole cap { mode } u r) : Whole cap {} u r := by
  cases h with
  | line h => exact .line h
  | block hclosed h => exact .block hclosed h
  | plain h hu =>
    have hsame := plain_unsettled h
    exact .plain (by rw [← h, ← hsame]) (by rw [hsame]; exact hu)
  | json hc h hu hend => exact .json hc h hu hend

theorem Trail.start_le_stop {p q : Stand} {log : List Scanned} (h : Trail cap p log q)
    (hp : p.Sound cap) (hlog : ∀ t ∈ log, t.token.kind ≠ .eof) :
    ∀ t ∈ log, t.token.span.start.byte ≤ t.token.span.stop.byte := by
  induction h with
  | nil => exact fun _ h => nomatch h
  | @cons p q t log ht _ ih =>
    intro u hu
    rcases List.mem_cons.1 hu with rfl | hu
    · exact (Stand.start_lt_stop hp ht (hlog u List.mem_cons_self)).le
    · exact ih (Stand.next_sound hp) (fun t ht => hlog t (List.mem_cons_of_mem _ ht)) u hu

namespace Stand

variable {p q : Stand} {X Y w : List Char} {log : List Scanned}

/-- A plain pass always has a next token. -/
theorem exists_lookahead (hp : p.Sound cap) :
    ∃ la : Parse.Lookahead, la.valid = .lexical ∧ la.Reads cap p := by
  obtain ⟨t, ht⟩ := Option.isSome_iff_exists.1 (lexical_isSome hp)
  exact ⟨_, rfl, .of_token false ht (cursor_between cap .lexical p) (.inl rfl)⟩

/-- A comment ends at the same place whatever it was looked for with. -/
theorem next_of_extra {t t' : Scanned} {W : TokenSet} (hp : p.Sound cap)
    (h : p.token? cap V = some t) (h' : p.token? cap W = some t') (hextra : t.token.kind.isExtra)
    (hextra' : t'.token.kind.isExtra) : p.next cap V = p.next cap W := by
  obtain ⟨hpass, hstate⟩ := pass?_of_extra hp h hextra
  obtain ⟨hpass', hstate'⟩ := pass?_of_extra hp h' hextra'
  have hrest := Option.some.inj (hpass.symm.trans hpass')
  have htext := (next_append cap V p).trans (next_append cap W p).symm
  rw [hrest] at htext
  generalize p.next cap V = o at *
  generalize p.next cap W = o' at *
  obtain ⟨state, pre, rest⟩ := o
  obtain ⟨state', pre', rest'⟩ := o'
  obtain rfl : state = state' := hstate.trans hstate'.symm
  obtain rfl : rest = rest' := hrest
  obtain rfl : pre = pre' := List.append_cancel_right htext
  rfl

/-- Behind the comments in front of them two lexers stand abreast in front of something else. -/
theorem Abreast.exists_front (hw : Blank w) (hne : w ≠ []) : ∀ {log : List Scanned} {p q : Stand},
    Abreast X Y w p q → Clean cap p log → q.Sound cap → Apart X log →
    ∃ o o' more, Abreast X Y w o o' ∧ Clean cap o more ∧ Apart X more ∧ o.state = p.state
      ∧ Gap p.rest (ahead o.rest) ∧ pass? (ahead o.rest) = none
      ∧ Gap q.rest (ahead o'.rest) ∧ pass? (ahead o'.rest) = none
  | log, p, q, h, hp, hq, hapart => by
    obtain ⟨la, hla, hreads⟩ := exists_lookahead hp.sound
    obtain ⟨lb, hlb, hreads'⟩ := exists_lookahead hq
    obtain ⟨-, htwins, hnext⟩ := Parse.meets_abreast hp hq rfl rfl hreads hreads'
      (hlb.trans hla.symm)
      h hw hne hapart (hla ▸ Parse.welcomes_lexical)
      (.inl (by rw [hla, TokenSet.contains_lexical]; rfl))
    have hleads := isExtra_eq hp.sound hreads.token
    have hleads' := isExtra_eq hq hreads'.token
    rw [htwins.kind] at hleads'
    cases hextra : la.scanned.token.kind.isExtra with
    | false =>
      rw [hextra] at hleads hleads'
      exact ⟨p, q, log, h, hp, hapart, rfl, gap_ahead _,
        pass?_of_leadsComment (ahead_head _) hleads.symm,
        gap_ahead _, pass?_of_leadsComment (ahead_head _) hleads'.symm⟩
    | true =>
      cases log with
      | nil =>
        rw [hp.ahead_eq_nil, hextra] at hleads
        cases hleads
      | cons t more =>
        have ht : t.token.kind.isExtra := by
          rw [isExtra_eq hp.sound hp.token, ← hleads, hextra]
        have hsame := next_of_extra hp.sound hreads.token hp.token hextra ht
        obtain ⟨hgap, hstate⟩ := gap_of_extra hp.sound hreads.token hextra
        obtain ⟨hgap', -⟩ := gap_of_extra hq hreads'.token (by rw [htwins.kind, hextra])
        obtain ⟨o, o', rest, ho, hclean, hrest, hstate', hfront, hend, hfront', hend'⟩ :=
          Abreast.exists_front hw hne hnext (hsame ▸ hp.tail) (next_sound hq)
            fun u hu => hapart u (List.mem_cons_of_mem t hu)
        exact ⟨o, o', rest, ho, hclean, hrest, hstate'.trans hstate, hgap.trans hfront, hend,
          hgap'.trans hfront', hend'⟩

end Stand

end Lexer

namespace Parse

open AvroTree.Parse.Parser
open Session (Pair)

/-! ## The language -/

open Text (Gap pass?) in
/-- The language is settled by what stands behind the comments at the front. -/
theorem inferMode_eq {cap : Nat} {r : List Char} (hend : pass? r = none) :
    ∀ {n : Nat} {p : Stand} {c : Cursor}, p.Sound cap → c.Between p.pre p.rest →
      p.rest.length < n → Gap p.rest r →
      inferMode cap n p.state c = (Lexer.tokenHere cap .lexical false p.state r).value.state.mode
  | 0, _, _, _, _, hn, _ => absurd hn (Nat.not_lt_zero _)
  | n + 1, p, c, hp, hc, hn, hgap => by
    obtain ⟨t, ht⟩ := Option.isSome_iff_exists.1 (Stand.lexical_isSome hp)
    rw [inferMode, Lexer.scan_eq cap .lexical hp.comment hc, ht]
    simp only [Option.map_some]
    cases hextra : t.token.kind.isExtra with
    | true =>
      rw [if_pos rfl]
      obtain ⟨hpass, hstate⟩ := Stand.gap_of_extra hp ht hextra
      have hlt := Stand.next_lt hp ht (Session.not_eof_of_isExtra hextra)
      rw [inferMode_eq hend (Stand.next_sound hp) (Stand.cursor_between cap .lexical p) (by omega)
        (hpass.meet hgap hend), hstate]
    | false =>
      rw [if_neg Bool.false_ne_true]
      rw [Stand.isExtra_eq hp ht] at hextra
      have hstop := Lexer.pass?_of_leadsComment (Lexer.ahead_head p.rest) hextra
      have hfront := (hgap.meet (Lexer.gap_ahead p.rest) hstop).eq_of_end hend
      rw [Lexer.Stand.next_state hp ht, hfront]
      rfl

/-- Blanks that are put in between tokens do not change the language. -/
theorem inferMode_widened {cap : Nat} {X Y w : List Char} {log : List Scanned} {mode : Mode}
    {text text' : String} (htext : text.toList = X ++ Y) (htext' : text'.toList = X ++ (w ++ Y))
    (hw : Blank w) (hne : w ≠ []) (hp : Clean cap (.start mode (X ++ Y)) log)
    (hapart : Apart X log) :
    inferMode cap (text'.utf8ByteSize + 1) {} (.start text')
      = inferMode cap (text.utf8ByteSize + 1) {} (.start text) := by
  have hstart : Abreast X Y w (.start mode (X ++ Y)) (.start mode (X ++ (w ++ Y))) :=
    .inr ⟨rfl, rfl, X, rfl, rfl, rfl⟩
  obtain ⟨o, o', more, habreast, hclean, hrest, hstate, hgap, hend, hgap', hend'⟩ :=
    hstart.exists_front hw hne hp (Stand.start_sound _ _) hapart
  have hinfer {text : String} {s r : List Char} (htext : text.toList = s)
      (hgap : Text.Gap s r) (hend : Text.pass? r = none) :
      inferMode cap (text.utf8ByteSize + 1) {} (.start text)
        = (Lexer.tokenHere cap .lexical false {} r).value.state.mode := by
    subst htext
    refine inferMode_eq hend (Stand.start_sound .unknown _) ?_ ?_ hgap
    · rw [Cursor.start_eq]
      exact .fresh _ _
    · rw [Text.utf8ByteSize_eq]
      exact Nat.lt_succ_of_le (Text.length_le_size _)
  suffices hvalue : (Lexer.tokenHere cap .lexical false {} (ahead o'.rest)).value
      = (Lexer.tokenHere cap .lexical false {} (ahead o.rest)).value by
    rw [hinfer htext hgap hend, hinfer htext' hgap' hend', hvalue]
  rcases habreast.resolve hclean hw hrest with hpast | ⟨hnear, t, more, rfl, ht⟩
  · rw [hpast.ahead_eq]
  · obtain ⟨g, u, hwhole, -, -, -, -, -, hahead, hahead'⟩ := hnear.parts ht
    rw [hahead, hahead']
    rw [hstate] at hwhole
    have hz : Text.Ends (w ++ Y) := Lexer.ends_of_blank hw hne Y
    exact (hwhole.unsettled.told rfl hz welcomes_lexical
      (.inl (by rw [TokenSet.contains_lexical]; rfl))).1

theorem modeFor_widened {config : Config} {X Y w : List Char} {log : List Scanned} {mode : Mode}
    {text text' : String} (htext : text.toList = X ++ Y) (htext' : text'.toList = X ++ (w ++ Y))
    (hw : Blank w) (hne : w ≠ [])
    (hp : Clean (Lexer.Config.ofDepth config.maxDepth).cap (.start mode (X ++ Y)) log)
    (hapart : Apart X log) : modeFor config text' = modeFor config text := by
  unfold modeFor
  simp only [inferMode_widened htext htext' hw hne hp hapart]

/-! ## Two parses -/

section Parses

variable (cap : Nat) {X Y w : List Char} {log : List Scanned}

/-- The track of a parse without complaints beside that of the text with the blanks `w` put in. -/
def Track.widening (hw : Blank w) (hne : w ≠ []) (hmeant : ∀ t ∈ log, t.token.kind.isMeant)
    (hapart : Apart X log) : Track where
  cap
  text := X ++ Y
  text' := X ++ (w ++ Y)
  strict := True
  Runs l p q := ∃ more, l ++ more = log ∧ Clean cap p more ∧ Abreast X Y w p q
  Takes l := l <+: log
  Looks l := l <+: log
  Loc _ _ := True
  Tok := Twins (X ++ Y) (X ++ (w ++ Y))
  Same := Matches (X ++ Y) (X ++ (w ++ Y))
  Diag _ _ := True
  before := []
  before' := []
  takes_init h := ⟨(List.prefix_append _ _).trans h, (List.prefix_append _ _).trans h⟩
  solid h t ht := (Kind.isMeant_iff.1 (hmeant t (h.subset ht))).1
  meet := by
    rintro l p q la lb ⟨more, rfl, hp, habreast⟩ - - hq htext htext' hla hlb hv hV hfair
    have hmodest : Modest more la := by
      refine hfair.imp (fun h => h trivial) (And.imp_left fun htakes => ?_)
      obtain ⟨rest, rfl⟩ := (List.prefix_append_right_inj l).1 htakes
      rfl
    obtain ⟨hused, htwins, hnext⟩ := meets_abreast hp hq htext htext' hla hlb hv habreast hw hne
      (fun t ht => hapart t (List.mem_append_right l ht)) hV hmodest
    refine ⟨hv, hused, htwins, fun htakes => ?_⟩
    obtain ⟨rest, rfl⟩ := (List.prefix_append_right_inj l).1 htakes
    exact ⟨rest, List.append_assoc _ _ _, hp.tail, hnext⟩
  kind_eq h := h.kind
  start _ := trivial
  stop _ := trivial
  complaint _ _ _ := trivial
  leaf kind h := .leaf kind h
  branch hkind h _ := .branch hkind _ _ h
  missing kind _ := .missing kind _ _
  label field h := h.label field
  span_start _ := trivial
  span_stop _ := trivial

theorem widening_schematic (hw : Blank w) (hne : w ≠ [])
    (hmeant : ∀ t ∈ log, t.token.kind.isMeant) (hapart : Apart X log) :
    (Track.widening cap (Y := Y) hw hne hmeant hapart).Schematic where
  spelled h := h.spelled
  object hcomments hk hextras ht hns _ := .object _ _ hcomments hk hextras ht hns

end Parses

theorem validate_of_parse {config : Config} {text : String} {tree : Tree}
    (h : parse config text = .ok tree) : config.validate = .ok () := by
  cases hv : config.validate with
  | ok => rfl
  | error d =>
    rw [parse, run, hv] at h
    cases h

/-- The tree passes its check. -/
theorem parse_checked {config : Config} {text : String} {tree : Tree}
    (h : parse config text = .ok tree) : tree.root.check = .ok () := by
  obtain ⟨mode, s, -, hgrew, -⟩ := parse_made h
  exact Node.check_of_good tree.root (hgrew.good (List.mem_singleton_self _))

/-- The text with blanks put in is parsed without complaints as well. -/
theorem parse_widened {config : Config} {text text' : String} {tree : Tree} {X Y w : List Char}
    (h : parse config text = .ok tree) (hclean : tree.diagnostics = [])
    (htext : text.toList = X ++ Y) (htext' : text'.toList = X ++ (w ++ Y)) (hw : Blank w)
    (hne : w ≠ []) (hapart : Apart X tree.tokens) (hsize : text'.utf8ByteSize ≤ config.maxBytes) :
    ∃ tree', parse config text' = .ok tree' ∧ tree'.diagnostics = [] ∧ tree'.mode = tree.mode
      ∧ Matches text.toList text'.toList tree.root tree'.root
      ∧ tree'.tokens.map (·.token.kind) = tree.tokens.map (·.token.kind) := by
  have hp := parse_clean h hclean
  obtain ⟨s, hs, htree⟩ := parse_ok h
  have htokens : tree.tokens = s.log.toList := by rw [htree]; rfl
  have hmode : tree.mode = modeFor config text := by rw [htree]; rfl
  have hfaults : s.faults = 0 := by
    rw [htree] at hclean
    exact diagnostics_eq_nil_iff.1 hclean
  set cap := (Lexer.Config.ofDepth config.maxDepth).cap
  rw [htext] at hp
  have hsame := modeFor_widened htext htext' hw hne hp hapart
  set T := Track.widening cap (Y := Y) hw hne hp.meant hapart
  have hstart : T.Runs [] (.start (modeFor config text) text.toList)
      (.start (modeFor config text) text'.toList) := by
    rw [htext, htext']
    exact ⟨_, rfl, hp, .inr ⟨rfl, rfl, X, rfl, rfl, rfl⟩⟩
  have hpair : Pair T (.start text config.maxDepth (modeFor config text) none)
      (.start text' config.maxDepth (modeFor config text) none) :=
    .start rfl htext.symm htext'.symm rfl rfl hstart trivial
  obtain ⟨root, t, ht, hroot, hpair'⟩ := (rootOf_mirrors (P := True)
    (widening_schematic cap hw hne hp.meant hapart) _).follow trivial hpair hs
      ⟨fun _ => hfaults, htokens ▸ List.prefix_refl _, fun _ => htokens ▸ List.prefix_refl _⟩
  have hrun : parse config text' = .ok (treeOf (modeFor config text) (root, t)) := by
    rw [parse, run_read (validate_of_parse h) (Nat.not_lt.2 hsize), hsame, ht]
    rfl
  refine ⟨_, hrun, ?_, hmode.symm, ?_, ?_⟩
  · refine diagnostics_eq_nil_iff.2 ?_
    rw [← hfaults, Session.faults, Session.faults]
    simp only [← Array.length_toList]
    rw [hpair'.lexical.length_eq, hpair'.syntactic.length_eq]
  · rw [htext, htext']
    exact hroot
  · obtain ⟨new, new', hnew, hnew', hlog⟩ := hpair'.log
    have hkinds : new.map (·.token.kind) = new'.map (·.token.kind) := by
      rw [← List.forall₂_eq_eq_eq, List.forall₂_map_left_iff, List.forall₂_map_right_iff]
      exact hlog.imp fun _ _ h => h.kind.symm
    rw [htokens]
    show t.log.toList.map _ = _
    rw [hnew, hnew', List.map_append, List.map_append, hkinds]
    rfl

end Parse

namespace Tree

/-- The byte is in front of the first token, behind the last or where a token stops. -/
def Between (t : Tree) (byte : Nat) : Prop :=
  (∀ s ∈ t.tokens.head?, byte ≤ s.token.span.start.byte)
    ∨ (∀ s ∈ t.tokens.getLast?, s.token.span.stop.byte ≤ byte)
    ∨ ∃ s ∈ t.tokens, s.token.span.stop.byte = byte

end Tree

namespace Parse

/-- No token reaches over a place between tokens. -/
theorem apart_of_between {config : Config} {text : String} {tree : Tree} {X : List Char}
    (h : parse config text = .ok tree) (hclean : tree.diagnostics = [])
    (hbetween : tree.Between (Text.size X)) : Apart X tree.tokens := by
  have hp := parse_clean h hclean
  obtain ⟨q, htrail, -⟩ := hp.trail
  have horder := htrail.pairwise hp.sound
  have hle := htrail.start_le_stop hp.sound fun t ht => (Kind.isMeant_iff.1 (hp.meant t ht)).1
  unfold Apart
  unfold Tree.Between at hbetween
  generalize tree.tokens = log at hbetween horder hle
  rcases hbetween with hfront | hback | ⟨s, hs, hstop⟩
  · cases log with
    | nil => exact fun _ h => nomatch h
    | cons s log =>
      intro t ht
      have hfirst := hfront s rfl
      rcases List.mem_cons.1 ht with rfl | ht
      · exact .inl hfirst
      · have := (List.pairwise_cons.1 horder).1 t ht
        have := hle s List.mem_cons_self
        exact .inl (by omega)
  · rcases log.eq_nil_or_concat with rfl | ⟨log, s, hlog⟩
    · exact fun _ h => nomatch h
    rw [List.concat_eq_append] at hlog
    subst hlog
    intro t ht
    have hlast := hback s (by simp)
    rcases List.mem_append.1 ht with hinit | hlog
    · have := (List.pairwise_append.1 horder).2.2 t hinit s List.mem_cons_self
      have := hle s (by simp)
      exact .inr (by omega)
    · obtain rfl := List.mem_singleton.1 hlog
      exact .inr hlast
  · obtain ⟨before, after, rfl⟩ := List.append_of_mem hs
    obtain ⟨-, hafter, hbefore⟩ := List.pairwise_append.1 horder
    intro t ht
    rcases List.mem_append.1 ht with ht | ht
    · have := hbefore t ht s List.mem_cons_self
      have := hle s hs
      exact .inr (by omega)
    rcases List.mem_cons.1 ht with rfl | ht
    · exact .inr hstop.le
    · have := (List.pairwise_cons.1 hafter).1 t ht
      exact .inl (by omega)

end Parse

open Parse in
/-- Blanks that are put in between the tokens of a text without complaints change neither its
language nor its tokens nor its short form. -/
theorem parse_blanks {config : Config} {tree : Tree} {pre post w : List Char}
    (h : parse config (.ofList (pre ++ post)) = .ok tree) (hclean : tree.diagnostics = [])
    (hbetween : tree.Between (Text.size pre)) (hw : ∀ c ∈ w, Text.isSpace c)
    (hsize : (String.ofList (pre ++ w ++ post)).utf8ByteSize ≤ config.maxBytes) :
    ∃ tree', parse config (.ofList (pre ++ w ++ post)) = .ok tree' ∧ tree'.diagnostics = []
      ∧ tree'.mode = tree.mode ∧ tree'.sexp = tree.sexp
      ∧ tree'.tokens.map (·.token.kind) = tree.tokens.map (·.token.kind) := by
  by_cases hne : w = []
  · subst hne
    exact ⟨tree, by rwa [List.append_nil], hclean, rfl, rfl, rfl⟩
  rw [List.append_assoc] at hsize ⊢
  obtain ⟨tree', h', hclean', hmode, hroot, hkinds⟩ := parse_widened h hclean
    String.toList_ofList String.toList_ofList (List.all_eq_true.2 hw) hne
    (apart_of_between h hclean hbetween) hsize
  have hsame := hroot.resembles _ _ (parse_checked h) (parse_checked h')
  exact ⟨tree', h', hclean', hmode, hsame.sexp_eq, hkinds⟩

theorem parse_blanks_union :
    let config : Parse.Config := { maxDepth := 2, mode := some .json }
    ∃ tree tree', parse config "[\"int\"]" = .ok tree ∧ tree.diagnostics = []
      ∧ parse config "\n [\"int\"]" = .ok tree' ∧ tree'.diagnostics = [] ∧ tree'.mode = tree.mode
      ∧ tree'.sexp = tree.sexp
      ∧ tree'.tokens.map (·.token.kind) = tree.tokens.map (·.token.kind) := by
  intro config
  have hint : SchemaText.Literal "int".toList := by
    repeat (refine .plain (by decide) (by decide) (by decide) ?_)
    exact .nil
  have hschema : SchemaText.IsSchema 2 "[\"int\"]".toList :=
    ⟨_, [], .refl _, .inr (.inr ⟨_, rfl, .inr ⟨_, "]".toList, .refl _, .one (.inl ⟨_, hint, rfl⟩),
      .inl (.refl _)⟩⟩), .refl _⟩
  obtain ⟨tree, h, hclean⟩ : ∃ tree, parse config "[\"int\"]" = .ok tree ∧ tree.diagnostics = [] :=
    Parse.parse_of_isSchema rfl rfl (by decide) hschema
  obtain ⟨tree', htree'⟩ := @parse_blanks config tree [] "[\"int\"]".toList "\n ".toList h hclean
    (.inl fun _ _ => Nat.zero_le _) (List.all_eq_true.1 rfl) (by decide)
  exact ⟨tree, tree', h, hclean, htree'⟩

end AvroTree
