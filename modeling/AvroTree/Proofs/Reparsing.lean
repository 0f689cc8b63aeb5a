import AvroTree.Parse.Tree
import AvroTree.Proofs.Building
import AvroTree.Proofs.Starts

/-!
# Trees after an edit

Every construct of the two languages is read in step with and without the old tokens, so the tree
made with the help of the tree before an edit is the tree of the new text, and goes on to be it
along any number of edits.
-/

namespace AvroTree

/-- All of a tree but how it came about. -/
def Tree.content (t : Tree) : Node × Mode × List Diagnostic × List Scanned :=
  (t.root, t.mode, t.diagnostics, t.tokens)

namespace Parse

open AvroTree.Parse.Parser
open Session (Alike)
open Lexer (Stand Trail)

/-! ## Constructs in step -/

/-- What is built of steady parsers is steady. -/
theorem Parser.Built.steady {α : Type} {p : Parser α} (h : Built (fun _ q => Steady q) p) :
    Steady p := by
  induction h with
  | given h => exact h
  | pure a => exact .pure a
  | bind _ _ hp hf => exact .bind hp hf
  | ask g hg _ hk => exact .ask g (fun h => h.learn g hg) hk
  | peek valid => exact peek_steady valid
  | flush => exact flush_steady
  | leaf kind => exact leaf_steady kind
  | complain d => exact complain_steady d

theorem program_steady : Steady Idl.program :=
  (Idl.program_built (Idl.type_built fun _ => .given (tooDeep_steady _))).steady

theorem file_steady : Steady Schema.file :=
  (Schema.file_built (Schema.whole_built fun _ => .given (tooDeep_steady _))).steady

/-! ## Whole texts -/

/-- The reader for a whole text in a language. -/
def rootOf (mode : Mode) : Parser Node :=
  if mode = .json then Schema.file else Idl.program

theorem rootOf_steady (mode : Mode) : Steady (rootOf mode) :=
  .ite file_steady program_steady

/-- The tree that a session ends in. -/
def treeOf (mode : Mode) (r : Node × Session) : Tree where
  root := r.1
  mode
  diagnostics := sortByOffset (r.2.lexical.toList ++ r.2.syntactic.toList)
  tokens := r.2.log.toList
  reused := r.2.reused

/-- Every complaint of the session is one of the tree. -/
theorem length_diagnostics (mode : Mode) (r : Node × Session) :
    (treeOf mode r).diagnostics.length = r.2.lexical.size + r.2.syntactic.size := by
  show (List.mergeSort _ _).length = _
  rw [List.length_mergeSort, List.length_append, Array.length_toList, Array.length_toList]

theorem run_read {config : Config} {text : String} (hv : config.validate = .ok ())
    (hb : ¬config.maxBytes < text.utf8ByteSize) (previous : Option Previous) :
    run config text previous =
      (rootOf (modeFor config text)
        (.start text config.maxDepth (modeFor config text) previous)).map
        (treeOf (modeFor config text)) := by
  rw [run, hv]
  show (if config.maxBytes < text.utf8ByteSize then _ else _) = _
  rw [if_neg hb]
  rfl

theorem cap_of_validate {config : Config} (h : config.validate = .ok ()) :
    (Lexer.Config.ofDepth config.maxDepth).cap = config.maxDepth := by
  rw [Config.validate] at h
  split at h
  · cases h
  · rename_i hdepth
    simp only [not_or, Nat.not_lt] at hdepth
    simp [Lexer.Config.ofDepth, Lexer.Config.cap, hdepth.2]

/-- A text is refused whatever came before it, or it is read in a session. -/
theorem run_eq (config : Config) (text : String) :
    (∃ d, ∀ previous, run config text previous = .error d)
      ∨ ∀ previous, run config text previous =
        (rootOf (modeFor config text)
          (.start text config.maxDepth (modeFor config text) previous)).map
          (treeOf (modeFor config text)) := by
  cases hv : config.validate with
  | error d => exact .inl ⟨d, fun _ => by rw [run, hv]; rfl⟩
  | ok u =>
    by_cases hb : config.maxBytes < text.utf8ByteSize
    · refine .inl ⟨.resourceLimit s!"input is {text.utf8ByteSize} bytes, larger than the {
        config.maxBytes} byte limit" {}, fun previous => ?_⟩
      rw [run, hv]
      show (if config.maxBytes < text.utf8ByteSize then _ else _) = _
      rw [if_pos hb]
      rfl
    · exact .inr (run_read hv hb)

theorem start_stands {text : String} {maxDepth : Nat} {mode : Mode} {previous : Option Previous}
    (h : ∀ prev, previous = some prev →
      prev.Fits (Lexer.Config.ofDepth maxDepth).cap text.toList 0) :
    (Session.start text maxDepth mode previous).Stands (Lexer.Config.ofDepth maxDepth).cap
      text.toList (.start mode text.toList) where
  cap_eq := rfl
  state := rfl
  sound := Stand.start_sound _ _
  append := rfl
  cursor := by
    rw [Session.start, Cursor.start_eq]
    exact .fresh _ _
  log := ⟨mode, .nil _⟩
  lookahead := fun _ h => nomatch h
  previous := h

/-- Old tokens that fit make no difference to a whole parse. -/
theorem start_alike {text : String} {maxDepth : Nat} {prev : Previous} (mode : Mode)
    (h : prev.Fits (Lexer.Config.ofDepth maxDepth).cap text.toList 0) :
    Alike (Lexer.Config.ofDepth maxDepth).cap text.toList
      (.start text maxDepth mode (some prev)) (.start text maxDepth mode none) :=
  ⟨rfl, _, start_stands fun _ hp => Option.some.inj hp ▸ h, start_stands fun _ h => nomatch h⟩

theorem content_treeOf {cap : Nat} {text : List Char} {mode : Mode} {root : Node} {s t : Session}
    (h : Alike cap text s t) :
    (treeOf mode (root, s)).content = (treeOf mode (root, t)).content := by
  rw [Tree.content, Tree.content, treeOf, treeOf]
  simp only [h.learn Session.lexical fun _ => rfl, h.learn Session.syntactic fun _ => rfl,
    h.learn Session.log fun _ => rfl]

theorem run_same {config : Config} {text : String} {prev : Previous}
    (h : prev.Fits (Lexer.Config.ofDepth config.maxDepth).cap text.toList 0) :
    (run config text (some prev)).map Tree.content = (run config text none).map Tree.content := by
  rcases run_eq config text with ⟨d, hd⟩ | hr
  · rw [hd, hd]
  · rw [hr, hr]
    have hsame := rootOf_steady (modeFor config text) _ _ _ _
      (start_alike (modeFor config text) h)
    generalize rootOf _ (Session.start text config.maxDepth _ (some prev)) = x at hsame ⊢
    generalize rootOf _ (Session.start text config.maxDepth _ none) = y at hsame ⊢
    cases hsame with
    | error d => rfl
    | ok root halike => exact congrArg Except.ok (content_treeOf halike)

/-- A tree is what a session on its text has ended in. -/
theorem parse_ok {config : Config} {text : String} {tree : Tree}
    (h : parse config text = .ok tree) : ∃ s,
      rootOf (modeFor config text) (.start text config.maxDepth (modeFor config text) none)
        = .ok (tree.root, s)
      ∧ tree = treeOf (modeFor config text) (tree.root, s) := by
  unfold parse at h
  rcases run_eq config text with ⟨d, hd⟩ | hr
  · rw [hd] at h
    cases h
  · rw [hr] at h
    cases hx : rootOf (modeFor config text)
        (.start text config.maxDepth (modeFor config text) none) with
    | error d =>
      rw [hx] at h
      cases h
    | ok r =>
      rw [hx] at h
      cases h
      exact ⟨r.2, rfl, rfl⟩

/-- The tokens of a tree are a run of the lexer along its text. -/
theorem parse_trail {config : Config} {text : String} {tree : Tree}
    (h : parse config text = .ok tree) : ∃ mode q,
      Trail (Lexer.Config.ofDepth config.maxDepth).cap (.start mode text.toList) tree.tokens q := by
  obtain ⟨s, hs, htree⟩ := parse_ok h
  have hstart : (Session.start text config.maxDepth (modeFor config text) none).Stands
    (Lexer.Config.ofDepth config.maxDepth).cap text.toList _ := start_stands fun _ h => nomatch h
  obtain ⟨q, hq⟩ := (rootOf_steady _).stands hstart hs
  obtain ⟨mode, hlog⟩ := hq.log
  rw [htree]
  exact ⟨mode, q, hlog⟩

theorem fits_of_trail {cap start stop : Nat} {text new replacement : String} {mode : Mode}
    {tokens : List Scanned} {q : Stand} (h : Trail cap (.start mode text.toList) tokens q)
    (he : Edit.result? text start stop replacement = some new) :
    Previous.Fits cap new.toList 0 ⟨tokens, Edit.replace text start stop replacement⟩ := by
  obtain ⟨head, mid, tail, htext, hnew, hedit⟩ := Edit.exists_parts he
  rw [htext] at h
  exact ⟨head, mid, replacement.toList, tail, mode, [], _, q, hnew, hedit, .nil _, h, .inl rfl⟩

/-! ## One edit and many -/

/-- The tree kept for a text is, but for how it came about, the tree of the text. -/
def Current (config : Config) (s : String × Tree) : Prop :=
  (parse config s.1).map Tree.content = .ok s.2.content

theorem Current.exists_tree {config : Config} {s : String × Tree} (h : Current config s) :
    ∃ tree, parse config s.1 = .ok tree ∧ tree.content = s.2.content := by
  rw [Current] at h
  cases hp : parse config s.1 with
  | error d =>
    rw [hp] at h
    cases h
  | ok tree =>
    rw [hp] at h
    exact ⟨tree, rfl, Except.ok.inj h⟩

theorem Current.reparse {config : Config} {s : String × Tree} (h : Current config s)
    {start stop : Nat} {replacement new : String}
    (he : Edit.result? s.1 start stop replacement = some new) :
    (AvroTree.reparse config s.2 (Edit.replace s.1 start stop replacement) new).map Tree.content
      = (parse config new).map Tree.content := by
  obtain ⟨tree, htree, hcontent⟩ := h.exists_tree
  obtain ⟨mode, q, htrail⟩ := parse_trail htree
  have htokens : tree.tokens = s.2.tokens := congrArg (fun c => c.2.2.2) hcontent
  rw [htokens] at htrail
  exact run_same (fits_of_trail htrail he)

/-- A text with its tree after an edit; one that does not fit, or after which there is no tree,
changes nothing. -/
def reparseStep (config : Config) (s : String × Tree) (c : Change) : String × Tree :=
  match c.result? s.1 with
  | none => s
  | some text =>
    match AvroTree.reparse config s.2 (c.edit s.1) text with
    | .ok tree => (text, tree)
    | .error _ => s

theorem Current.reparseStep {config : Config} {s : String × Tree} (h : Current config s)
    (c : Change) : Current config (reparseStep config s c) := by
  rw [Parse.reparseStep]
  cases he : c.result? s.1 with
  | none => exact h
  | some text =>
    have hsame := h.reparse he
    dsimp only
    cases hr : AvroTree.reparse config s.2 (c.edit s.1) text with
    | error d => exact h
    | ok tree =>
      rw [show AvroTree.reparse config s.2 (Edit.replace s.1 c.start c.stop c.replacement) text
        = .ok tree from hr] at hsame
      exact hsame.symm

/-! ## Computed trees -/

theorem ok_of_any {ε α : Type} {x : Except ε α} {P : α → Bool} (h : x.toOption.any P) :
    ∃ a, x = .ok a ∧ P a := by
  cases x with
  | error e => cases h
  | ok a => exact ⟨a, rfl, h⟩

/-- What is seen when a text is read as a file is seen in its tree. -/
theorem parse_of_program {text : String} {P : Node × Session → Bool}
    (hsize : text.utf8ByteSize ≤ ({} : Config).maxBytes) (hmode : modeFor {} text = .idl)
    (h : (Idl.program (.start text 64 .idl none)).toOption.any P) :
    ∃ r, parse {} text = .ok (treeOf .idl r) ∧ P r := by
  obtain ⟨r, hr, hP⟩ := ok_of_any h
  refine ⟨r, ?_, hP⟩
  rw [parse, run_read rfl (Nat.not_lt.2 hsize), hmode]
  show (Idl.program (.start text 64 .idl none)).map _ = _
  rw [hr]
  rfl

/-- A file whose body is written behind its name. -/
theorem reparse_body : ∃ tree tree', parse {} "enum E" = .ok tree
    ∧ [⟨6, 6, " \x7bA\x7d"⟩].foldl (reparseStep {}) ("enum E", tree) = ("enum E \x7bA\x7d", tree')
    ∧ 0 < tree'.reused := by
  have hread : (parse {} "enum E").toOption.any fun tree =>
      let s := [⟨6, 6, " \x7bA\x7d"⟩].foldl (reparseStep {}) ("enum E", tree)
      s.1 == "enum E \x7bA\x7d" && decide (0 < s.2.reused) := by
    unfold reparseStep reparse parse run Idl.program Idl.programStep Idl.declaration
      Idl.declarationWith
    simp only [First.declaration_eq]
    decide +kernel
  obtain ⟨tree, h, hread⟩ := ok_of_any hread
  simp only [Bool.and_eq_true, beq_iff_eq, decide_eq_true_eq] at hread
  exact ⟨tree, _, h, Prod.ext hread.1 rfl, hread.2⟩

end Parse

open Parse in
/-- However a text has been edited since it was first parsed, the tree kept for it is its tree, and
whatever edit comes next, reading the new text with the help of that tree gives what reading it
from scratch gives: the same failure, or the same root, language, complaints and tokens. -/
theorem reparse_eq_parse {config : Parse.Config} {text : String} {tree : Tree}
    (h : parse config text = .ok tree) (changes : List Change) :
    let s := changes.foldl (reparseStep config) (text, tree)
    (parse config s.1).map Tree.content = .ok s.2.content
      ∧ ∀ (start stop : Nat) (replacement new : String),
        Edit.result? s.1 start stop replacement = some new →
        (reparse config s.2 (Edit.replace s.1 start stop replacement) new).map Tree.content
          = (parse config new).map Tree.content := by
  have hcurrent : Current config (changes.foldl (reparseStep config) (text, tree)) := by
    have hstart : Current config (text, tree) := by
      rw [Current, h]
      rfl
    generalize (text, tree) = s at hstart
    induction changes generalizing s with
    | nil => exact hstart
    | cons c changes ih => exact ih _ (hstart.reparseStep c)
  exact ⟨hcurrent, fun start stop replacement new he => hcurrent.reparse he⟩

open Parse in
/-- A body is written behind a name, and a symbol in it becomes two: the tokens in front of the
first edit are taken over. -/
theorem reparse_written_enum : ∃ tree tree', parse {} "enum E" = .ok tree
    ∧ [⟨6, 6, " \x7bA\x7d"⟩].foldl (reparseStep {}) ("enum E", tree) = ("enum E \x7bA\x7d", tree')
    ∧ 0 < tree'.reused
    ∧ (parse {} "enum E \x7bA\x7d").map Tree.content = .ok tree'.content
    ∧ Edit.result? "enum E \x7bA\x7d" 8 9 "é, B" = some "enum E \x7bé, B\x7d"
    ∧ (reparse {} tree' (Edit.replace "enum E \x7bA\x7d" 8 9 "é, B") "enum E \x7bé, B\x7d").map
        Tree.content
      = (parse {} "enum E \x7bé, B\x7d").map Tree.content := by
  obtain ⟨tree, tree', h, hwritten, hreused⟩ := Parse.reparse_body
  obtain ⟨hcontent, hnext⟩ := reparse_eq_parse h [⟨6, 6, " \x7bA\x7d"⟩]
  rw [hwritten] at hcontent hnext
  have he : Edit.result? "enum E \x7bA\x7d" 8 9 "é, B" = some "enum E \x7bé, B\x7d" := by decide
  exact ⟨tree, tree', h, hwritten, hreused, hcontent, he, hnext 8 9 _ _ he⟩

end AvroTree
