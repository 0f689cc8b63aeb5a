import AvroTree.Proofs.Constructs
import AvroTree.Proofs.Metering
import AvroTree.Proofs.Reparsing

/-!
# Reading comes to an end

Every construct of the two languages is outlined, with a proof for each of its loops that the rounds
move the cursor. So a whole text is read by loops of no more rounds than the text has bytes, and one
(`parseWithin_eq`).
-/

namespace AvroTree

namespace Parse

namespace Outline

variable {α β : Type}

def ite {c : Prop} [h : Decidable c] {p q : Parser α} (yes : Outline p) (no : Outline q) :
    Outline (if c then p else q) :=
  match h with
  | .isTrue _ => yes
  | .isFalse _ => no

def tooDeep (place : Location) : Outline (Parser.tooDeep place : Parser α) :=
  .ask Session.maxDepth fun n =>
    .fail (.resourceLimit s!"nesting is deeper than {n} levels" place)

def nextIs (kind : Token.Kind) : Outline (Parser.nextIs kind) :=
  .bind (.peek _) fun _ => .pure _

def here : Outline Parser.here :=
  .ask Session.frontier .pure

def bump (kind : NodeKind) (field : Option String) : Outline (Parser.bump kind field) :=
  .bind .flush fun _ => .bind (.leaf _) fun _ => .pure _

def missing (kind : NodeKind) (what : String) : Outline (Parser.missing kind what) :=
  .bind .here fun _ => .bind (.complain _) fun _ => .pure _

def branch (kind : NodeKind) (children : List Node) : Outline (Parser.branch kind children) :=
  .bind .here fun _ => .pure _

def gather {step : Array Node → Parser (Bool × Array Node)} (round : ∀ a, Outline (step a))
    (advances : Parser.Advances step) (first : List Node) : Outline (Parser.gather step first) :=
  .bind (.loop round advances _) fun _ => .pure _

/-! ## Recovery and lists -/

def skipStep (stop : TokenSet) (a : Parser.Skipped) : Outline (Parser.skipStep stop a) :=
  .bind (.peek _) fun _ => .ite (.pure _) (.bind (.bump _ _) fun _ => .pure _)

def skip (stop : TokenSet) : Outline (Parser.skip stop) :=
  .bind .flush fun extras =>
    .bind (.loop (skipStep stop) (Parser.skipStep_advances stop) _) fun a =>
      have wrap : Outline (do return extras ++ [← Parser.branch .error a.nodes.toList]) :=
        .bind (.branch _ _) fun _ => .pure _
      match a.first with
      | none => .pure _
      | some _ => .ite (.pure _) (.ite (.bind (.complain _) fun _ => wrap) wrap)

def recoverTo (sync first : TokenSet) : Outline (Parser.recoverTo sync first) :=
  .bind (.peek _) fun _ => .ite (.pure _) (.ite (.pure _)
    (.bind (.skip _) fun _ => .bind (.peek _) fun _ => .pure _))

def expectAs? (sync : TokenSet) (want : Token.Kind) (kind : NodeKind) (field : Option String) :
    Outline (Parser.expectAs? sync want kind field) :=
  .bind (.recoverTo _ _) fun _ =>
    .ite (.bind .flush fun _ => .bind (.leaf _) fun _ => .pure _)
      (.bind (.missing _ _) fun _ => .pure _)

def expect? (sync : TokenSet) (want : Token.Kind) (field : Option String) :
    Outline (Parser.expect? sync want field) :=
  .expectAs? sync want _ field

def expect (sync : TokenSet) (want : Token.Kind) (field : Option String) :
    Outline (Parser.expect sync want field) :=
  .bind (.expect? sync want field) fun _ => .pure _

def rejectComma (a : Parser.Items) : Outline a.rejectComma := by
  unfold Parser.Items.rejectComma
  split
  · exact .pure _
  · exact .bind (.complain _) fun _ => .pure _

/-- An element, and what is skipped when it has taken no token. -/
def progress {element : Parser α} (item : Outline element) (stop : TokenSet)
    {k : α → List Node → Parser β} (rest : ∀ a l, Outline (k a l)) : Outline (do
      let before := (← get).cursor.place.byte
      let item ← element
      let skipped ←
        if (← get).cursor.place.byte = before then Parser.skip stop else Pure.pure []
      k item skipped) :=
  let byte (s : Session) := s.cursor.place.byte
  .ask byte (k := fun before => do
      let item ← element
      let skipped ←
        if (← get).cursor.place.byte = before then Parser.skip stop else Pure.pure []
      k item skipped) fun before =>
    .bind item fun a =>
      .ask byte (k := fun now =>
          if now = before then Parser.skip stop >>= k a else Pure.pure [] >>= k a)
        fun _ => .ite (.bind (.skip _) (rest a)) (.bind (.pure _) (rest a))

def listStep (sync : TokenSet) (form : Parser.ListForm) {element : Parser (List Node)}
    (item : Outline element) (a : Parser.Items) : Outline (Parser.listStep sync form element a) :=
  have close (nodes : Array Node) : Outline (do
      return (false, { a with
        nodes := nodes ++ (← Parser.bump (.token (.punct form.close))) })) :=
    .bind (.bump _ _) fun _ => .pure _
  have behind (comma : List Node) :
      Outline (Parser.listItem (form.continues ∪ sync) element a comma) :=
    .bind .flush fun _ => .progress item _ fun _ _ => .pure _
  .bind (.peek _) fun _ =>
    .ite (.ite (.bind (.rejectComma a) close) (.bind (.pure _) close))
    (.ite (.ite (.bind (.pure _) behind)
      (.bind (.missing _ _) fun _ => .bind (.pure _) behind))
    (.ite (.bind (.bump _ _) fun _ => .pure _)
    (.ite (.bind (.missing _ _) fun _ => .pure _)
    (.bind (.skip _) fun _ => .pure _))))

def list (sync : TokenSet) {close : Punct} {first : TokenSet} {trailing : Bool}
    (heof : first.contains .eof = false) {element : TokenSet → Parser (List Node)}
    (item : ∀ sync, Outline (element sync)) :
    Outline (Parser.list sync ⟨close, first, trailing⟩ element) :=
  let form : Parser.ListForm := ⟨close, first, trailing⟩
  .bind (.loop (listStep sync form (item _))
    (Parser.listStep_advances sync heof (item _).steers) _) fun _ => .pure _

/-! ## The interface language -/

def annotationUse (sync : TokenSet) : Outline (Idl.annotationUse sync) :=
  .bind (.bump _ _) fun _ => .bind (.expect _ _ _) fun _ =>
    .bind (.expect _ _ _) fun _ => .bind (.expect _ _ _) fun _ => .branch _ _

def annotations (sync : TokenSet) : Outline (Idl.annotations sync) :=
  .gather (fun _ => .bind (.nextIs _) fun _ => .ite
    (.bind .flush fun _ => .bind (.annotationUse sync) fun _ => .pure _) (.pure _))
    (Idl.annotations_advances sync) _

def decimalType (sync : TokenSet) : Outline (Idl.decimalType sync) :=
  .bind (.leaf _) fun word => .bind (.expect _ _ _) fun opening =>
    .bind (.expect _ _ _) fun precision => .bind (.nextIs _) fun _ =>
      have close (scale : List Node) : Outline (do
          let closing ← Parser.expect sync (.punct .rParen)
          Parser.branch .decimalType (word :: opening ++ precision ++ scale ++ closing)) :=
        .bind (.expect _ _ _) fun _ => .branch _ _
      .ite (.bind (.bump _ _) fun _ => .bind (.expect _ _ _) fun _ =>
        .bind (.pure _) close) (.bind (.pure _) close)

/-- Outlines of a reader of types, whatever stands around the type. -/
abbrev OfType (type : Idl.TypeReader) :=
  ∀ sync field, Outline (type sync field)

section Types

variable {type : Idl.TypeReader} (inside : OfType type)
include inside

def container (kind : NodeKind) (field : String) (word : Keyword) (sync : TokenSet) :
    Outline (Idl.container type kind field word sync) :=
  .bind (.leaf _) fun _ => .bind (.expect _ _ _) fun _ => .bind (inside _ _) fun _ =>
    .bind (.expect _ _ _) fun _ => .branch _ _

def unionType (sync : TokenSet) : Outline (Idl.unionType type sync) :=
  .bind (.leaf _) fun _ => .bind (.expect? _ _ _) fun _ => .ite
    (.bind (.list _ First.type_eof fun _ => inside _ _) fun _ => .branch _ _)
    (.bind (.pure _) fun _ => .branch _ _)

def baseType (sync : TokenSet) : Outline (Idl.baseType type sync) :=
  -- Words of two kinds are told apart behind those that are looked for by name.
  .bind (.peek _) fun t => by
    split
    · exact .decimalType sync
    · exact .container inside _ _ _ sync
    · exact .container inside _ _ _ sync
    · exact .unionType inside sync
    · exact .ite (.leaf _) (.ite (.leaf _) (.leaf _))
    · exact .leaf _

def nullableType (sync : TokenSet) : Outline (Idl.nullableType type sync) :=
  .bind (.baseType inside sync) fun _ => .bind (.nextIs _) fun _ => .ite
    (.bind (.bump _ _) fun _ => .branch _ _) (.pure _)

end Types

def annotatedType {unannotated : TokenSet → Parser Node}
    (inside : ∀ sync, Outline (unannotated sync)) : OfType (Idl.annotatedType unannotated) :=
  fun sync _ => .bind (.recoverTo _ _) fun _ => .ite
    (.bind (.annotations _) fun _ => .bind (.recoverTo _ _) fun _ => .ite
      (.bind .flush fun _ => .bind (inside sync) fun _ => .pure _)
      (.bind (.missing _ _) fun _ => .pure _))
    (.bind (.missing _ _) fun _ => .pure _)

def typeAt : ∀ levels : Nat, OfType (Idl.typeAt levels)
  | 0 => .annotatedType fun _ => .bind .here fun _ => .tooDeep _
  | levels + 1 => .annotatedType (.nullableType (.typeAt levels))

def type : OfType Idl.type := fun sync field =>
  .ask Session.maxDepth (k := fun n => Idl.typeAt n sync field) fun n => .typeAt n sync field

def defaultValue (sync : TokenSet) : Outline (Idl.defaultValue sync) :=
  .bind (.nextIs _) fun _ => .ite
    (.bind (.bump _ _) fun _ => .bind (.expect _ _ _) fun _ => .pure _) (.pure _)

def namedVariable (sync : TokenSet) : Outline (Idl.namedVariable sync) :=
  .bind (.annotations _) fun _ => .bind (.expect _ _ _) fun _ =>
    .bind (.defaultValue _) fun _ => .pure _

def fieldDeclaration (sync : TokenSet) : Outline (Idl.fieldDeclaration sync) :=
  .bind (.type _ _) fun _ => .bind (.namedVariable _) fun _ =>
    .bind (.gather (fun _ => .bind (.nextIs _) fun _ => .ite
      (.bind (.bump _ _) fun _ => .bind (.namedVariable _) fun _ => .pure _) (.pure _))
      (Idl.fieldDeclaration_advances _) _) fun _ =>
    .bind (.expect _ _ _) fun _ => .branch _ _

def parameter (sync : TokenSet) : Outline (Idl.parameter sync) :=
  .bind (.type _ _) fun _ => .bind (.expect _ _ _) fun _ =>
    .bind (.defaultValue _) fun _ => .branch _ _

def parameterList (sync : TokenSet) : Outline (Idl.parameterList sync) :=
  .bind (.expect? _ _ _) fun _ => .ite
    (.bind (.list _ First.parameter_eof fun _ =>
      .bind (.parameter _) fun _ => .pure _) fun _ => .branch _ _)
    (.bind (.pure _) fun _ => .branch _ _)

def throwsClause (sync : TokenSet) : Outline (Idl.throwsClause sync) :=
  .bind (.bump _ _) fun _ => .bind (.gather (fun _ =>
    .bind (.expectAs? _ _ _ _) fun _ => .bind (.nextIs _) fun _ => .ite
      (.bind (.bump _ _) fun _ => .pure _) (.pure _)) (Idl.throwsClause_advances _) _) fun _ =>
    .branch _ _

def message (sync : TokenSet) : Outline (Idl.message sync) :=
  have rest (result : List Node) : Outline (do
      let name ← Parser.expect sync .identifier (some "name")
      let parameters := (← Idl.parameterList sync).label (some "parameters")
      let t ← Parser.peek (.ofList [.keyword .throws, .keyword .oneway, .punct .semicolon])
      let clause ←
        match t.kind with
        | .keyword .throws => do
          let extras ← Parser.flush
          Pure.pure (extras ++ [← Idl.throwsClause sync])
        | .keyword .oneway => Parser.bump .oneway
        | _ => Pure.pure []
      let closing ← Parser.expect sync (.punct .semicolon)
      return result ++ name ++ [parameters] ++ clause ++ closing) :=
    .bind (.expect _ _ _) fun name => .bind (.parameterList _) fun parameters =>
      .bind (.peek _) fun _ => by
        have close (clause : List Node) : Outline (do
            let closing ← Parser.expect sync (.punct .semicolon)
            return result ++ name ++ [parameters.label (some "parameters")] ++ clause ++ closing) :=
          .bind (.expect _ _ _) fun _ => .pure _
        dsimp only
        split
        · exact .bind .flush fun _ => .bind (.throwsClause _) fun _ => .bind (.pure _) close
        · exact .bind (.bump _ _) close
        · exact .bind (.pure _) close
  .bind (.nextIs _) fun _ => .ite (.bind (.bump _ _) rest) (.bind (.type _ _) rest)

/-! ### Declarations -/

def bodyStep (sync : TokenSet) (form : Idl.BodyForm) {element : Parser Node}
    (item : Outline element) (nodes : Array Node) :
    Outline (Idl.bodyStep sync form element nodes) :=
  .bind (.peek _) fun _ =>
    .ite (.bind (.bump _ _) fun _ => .pure _)
    (.ite (.bind .flush fun _ => .progress item _ fun _ _ => .pure _)
    (.ite (.bind (.missing _ _) fun _ => .pure _)
    (.bind (.skip _) fun _ => .pure _)))

def body (sync : TokenSet) {kind : NodeKind} {first alsoSync : TokenSet}
    (heof : first.contains .eof = false) {element : TokenSet → Parser Node}
    (item : ∀ sync, Outline (element sync)) :
    Outline (Idl.body sync ⟨kind, first, alsoSync⟩ element) :=
  let form : Idl.BodyForm := ⟨kind, first, alsoSync⟩
  .bind (.expect? _ _ _) fun r =>
    have rest (present : Bool) : Outline (do
        if present then
          Parser.branch form.kind (← Parser.gather
            (Idl.bodyStep sync form (element (sync ∪ form.continues))) r.2)
        else
          Parser.branch form.kind r.2) :=
      .ite (.bind (.gather (.bodyStep sync form (item _))
        (Idl.bodyStep_advances sync heof (item _).steers) _) fun _ => .branch _ _)
        (.branch _ _)
    .ite (.bind (.pure _) rest) (.bind (.peek _) fun _ => .bind (.pure _) rest)

def enumBody (sync : TokenSet) : Outline (Idl.enumBody sync) :=
  .bind (.expect? _ _ _) fun _ => .ite
    (.bind (.list _ (TokenSet.contains_single_eof (by simp)) fun _ => .bump _ _)
      fun _ => .branch _ _)
    (.bind (.pure _) fun _ => .branch _ _)

def enumDefault (sync : TokenSet) : Outline (Idl.enumDefault sync) :=
  .bind (.bump _ _) fun _ => .bind (.expect _ _ _) fun _ =>
    .bind (.expect _ _ _) fun _ => .branch _ _

def settleAnnotations (kind : NodeKind) (notes : List Node) :
    Outline (Idl.settleAnnotations kind notes) :=
  .ite (.pure _) (.bind (.branch _ _) fun _ => .bind (.complain _) fun _ => .pure _)

def importRest (sync : TokenSet) : Outline (Idl.importRest sync) :=
  .bind (.recoverTo _ _) fun r =>
    have rest (kind : List Node) : Outline (do
        let path ← Parser.expect sync .string (some "path")
        let closing ← Parser.expect sync (.punct .semicolon)
        return r.2 ++ kind ++ path ++ closing) :=
      .bind (.expect _ _ _) fun _ => .bind (.expect _ _ _) fun _ => .pure _
    .ite (.bind (.bump _ _) rest) (.bind (.missing _ _) fun _ => .bind (.pure _) rest)

def recordRest (sync : TokenSet) : Outline (Idl.recordRest sync) :=
  .bind (.expect _ _ _) fun _ =>
    .bind (.body _ First.fieldDeclaration_eof .fieldDeclaration) fun _ => .pure _

def enumRest (sync : TokenSet) : Outline (Idl.enumRest sync) :=
  .bind (.expect _ _ _) fun _ => .bind (.enumBody _) fun _ =>
    .bind (.nextIs _) fun _ => .ite
      (.bind .flush fun _ => .bind (.enumDefault _) fun _ => .bind (.pure _) fun _ => .pure _)
      (.bind (.pure _) fun _ => .pure _)

def fixedRest (sync : TokenSet) : Outline (Idl.fixedRest sync) :=
  .bind (.expect _ _ _) fun _ => .bind (.expect _ _ _) fun _ =>
    .bind (.expect _ _ _) fun _ => .bind (.expect _ _ _) fun _ =>
      .bind (.expect _ _ _) fun _ => .pure _

section Declarations

variable {protocolRest : TokenSet → Parser (List Node)}
  (inside : ∀ sync, Outline (protocolRest sync))
include inside

def declarationRest (kind : NodeKind) (sync : TokenSet) :
    Outline (Idl.declarationRest protocolRest kind sync) := by
  rw [Idl.declarationRest.eq_def]
  split
  · exact .bind (.expect _ _ _) fun _ => .bind (.expect _ _ _) fun _ => .pure _
  · exact .bind (.type _ _) fun _ => .bind (.expect _ _ _) fun _ => .pure _
  · exact inside sync
  · exact .importRest sync
  · exact .enumRest sync
  · exact .fixedRest sync
  · exact .recordRest sync

def declarationWith (top : Bool) (sync : TokenSet) :
    Outline (Idl.declarationWith top protocolRest sync) :=
  .bind (.annotations _) fun _ => .bind (.peek _) fun t => by
    split
    · exact .bind .here fun _ => .bind (.complain _) fun _ => .pure _
    · refine .bind (.settleAnnotations _ _) fun _ => .ite ?_ ?_
      · exact .bind (.message _) fun _ => .branch _ _
      · exact .bind (.bump _ _) fun _ => .bind (.declarationRest inside _ _) fun _ =>
          .bind (.pure _) fun _ => .branch _ _

end Declarations

def protocolMember (sync : TokenSet) : Outline (Idl.protocolMember sync) :=
  .declarationWith (fun _ => .pure _) false sync

def protocolRest (sync : TokenSet) : Outline (Idl.protocolRest sync) :=
  .bind (.expect _ _ _) fun _ =>
    .bind (.body _ First.protocolMember_eof .protocolMember) fun _ => .pure _

def programStep (nodes : Array Node) : Outline (Idl.programStep nodes) :=
  .bind (.peek _) fun _ => .ite (.pure _) (.ite
    (.bind .flush fun _ =>
      .progress (.declarationWith .protocolRest true _) _ fun _ _ => .pure _)
    (.bind (.skip _) fun _ => .pure _))

def program : Outline Idl.program :=
  .bind (.gather .programStep Idl.programStep_advances _) fun _ =>
    .bind .flush fun _ => .branch _ _

/-! ## Schemas -/

def unquotedAhead : Outline Schema.unquotedAhead :=
  .ask Session.textAhead (k := fun cs => Pure.pure (String.ofList (Schema.unquote cs)))
    fun _ => .pure _

def brackets (kind : NodeKind) {first : TokenSet} (heof : first.contains .eof = false)
    {element : TokenSet → Parser (List Node)} (item : ∀ sync, Outline (element sync))
    (sync : TokenSet) : Outline (Schema.brackets kind first element sync) :=
  .bind (.bump _ _) fun _ => .bind (.list _ heof item) fun _ => .branch _ _

/-- Outlines of the readers for one level. -/
structure OfLevel (level : Schema.Level) : Type 1 where
  value : ∀ sync, Outline (level.value sync)
  object : ∀ kind sync, Outline (level.object kind sync)

section Levels

variable {inner : Option Schema.Level}

def deeper {k : Schema.Level → Parser Node} (h : ∀ level ∈ inner, Outline (k level)) :
    Outline (Schema.deeper inner k) :=
  match inner with
  | none => .bind .here fun _ => .tooDeep _
  | some level => h level rfl

def listMember (kind : NodeKind) {first : TokenSet} (heof : first.contains .eof = false)
    {element : Schema.Level → TokenSet → Parser (List Node)}
    (item : ∀ level ∈ inner, ∀ sync, Outline (element level sync)) (sync : TokenSet) :
    Outline (Schema.listMember inner kind first element sync) :=
  .bind (.nextIs _) fun _ => .ite
    (.bind .flush fun _ => .bind (.deeper fun level hl =>
      .brackets _ heof (item level hl) sync) fun _ => .pure _)
    (.expect _ _ _)

variable (inside : ∀ level ∈ inner, OfLevel level)
include inside

def value (sync : TokenSet) : Outline (Schema.value inner sync) :=
  .bind (.peek _) fun t => by
    split
    · exact .deeper fun level hl => (inside level hl).object none sync
    · exact .deeper fun level hl => .brackets _ First.schemaValue_eof
        (fun _ => .bind ((inside level hl).value _) fun _ => .pure _) sync
    · exact .bind .unquotedAhead fun _ => .leaf _

def schemaMember (sync : TokenSet) : Outline (Schema.schemaMember inner sync) :=
  .bind (.peek _) fun _ => .ite
    (.bind .flush fun _ => .bind (.value inside sync) fun _ => .pure _)
    (.expect _ _ _)

def member (key : String) (sync : TokenSet) : Outline (Schema.member inner key sync) := by
  rw [Schema.member.eq_def]
  split
  · exact .schemaMember inside sync
  · exact .schemaMember inside sync
  · exact .schemaMember inside sync
  · exact .listMember _ (TokenSet.contains_single_eof (by simp))
      (fun level hl _ => .bind ((inside level hl).object _ _) fun _ => .pure _) sync
  · exact .listMember _ (TokenSet.contains_single_eof (by simp))
      (fun _ _ _ => .bump _ _) sync
  · exact .listMember _ First.schemaValue_eof
      (fun level hl _ => .bind ((inside level hl).value _) fun _ => .pure _) sync
  · exact .expect _ _ _

def pair (sync : TokenSet) : Outline (Schema.pair inner sync) :=
  .bind .flush fun _ => .bind .unquotedAhead fun _ => .bind (.leaf _) fun _ =>
    .bind (.expect _ _ _) fun _ => .bind (.member inside _ _) fun _ =>
      .bind (.branch _ _) fun _ => .pure _

def object (kind : Option NodeKind) (sync : TokenSet) : Outline (Schema.object inner kind sync) :=
  .bind (.bump _ _) fun opening => .bind (.list _
    (TokenSet.contains_single_eof (by simp))
    fun _ => .bind (.pair inside _) fun _ => .pure _) fun members =>
      .ask Session.source (k := fun source =>
        Parser.branch (kind.getD (Schema.objectKind source (opening ++ members)))
          (opening ++ members)) fun _ => .branch _ _

end Levels

def level : ∀ levels : Nat, OfLevel (Schema.level levels)
  | 0 => ⟨.value nofun, .object nofun⟩
  | levels + 1 =>
    have inside : ∀ l ∈ some (Schema.level levels), OfLevel l := fun _ hl =>
      Option.some.inj hl ▸ level levels
    ⟨.value inside, .object inside⟩

def trailing : Outline Schema.trailing :=
  .gather (fun _ => .bind (.peek _) fun _ => .ite (.pure _)
    (.bind (.skip _) fun _ => .pure _)) Schema.trailing_advances _

def file : Outline Schema.file :=
  .bind (.recoverTo _ _) fun r =>
    let rest (schema : List Node) : Parser Node := do
      let rest ← Schema.trailing
      let extras ← Parser.flush
      Parser.branch .schema (r.2 ++ schema ++ rest ++ extras)
    have restOutline (schema : List Node) : Outline (rest schema) :=
      .bind .trailing fun _ => .bind .flush fun _ => .branch _ _
    .ite
      (.bind .flush fun extras => .ask Session.maxDepth
        (k := fun n => (Schema.level n).value (.single .eof) >>= fun schema =>
          Pure.pure (extras ++ [schema]) >>= rest)
        fun n => .bind ((level n).value _) fun _ => .bind (.pure _) restOutline)
      (.bind (.missing _ _) fun _ => .bind (.pure _) restOutline)

/-! ## Whole texts -/

/-- The outline of the reader for a whole text. -/
def root (mode : Mode) : Outline (rootOf mode) :=
  .ite .file .program

end Outline

/-- Finds out the language of a text in at most `n` rounds that each pass a comment. -/
def inferWithin (cap : Nat) : Nat → Lexer.State → Cursor → Option Mode
  | 0, _, _ => none
  | n + 1, state, c =>
    match c.scan cap .lexical state with
    | (none, state, _) => some state.mode
    | (some token, state, c') =>
      if token.kind.isExtra then
        if c.place.byte < c'.place.byte then inferWithin cap n state c' else none
      else some state.mode

def modeWithin (n : Nat) (config : Config) (text : String) : Option Mode :=
  match config.mode with
  | some .json => some .json
  | some .idl => some .idl
  | _ => do
    match ← inferWithin (Lexer.Config.ofDepth config.maxDepth).cap n {} (.start text) with
    | .json => return .json
    | _ => return .idl

/-- Reads a text, allowing `n` rounds to every loop. -/
def runWithin (n : Nat) (config : Config) (text : String) (previous : Option Previous) :
    ExceptT Diagnostic Option Tree := do
  config.validate
  if config.maxBytes < text.utf8ByteSize then
    throw (.resourceLimit
      s!"input is {text.utf8ByteSize} bytes, larger than the {config.maxBytes} byte limit" {})
  let mode ← modeWithin n config text
  let (root, s) ← (Outline.root mode).within n (.start text config.maxDepth mode previous)
  return treeOf mode (root, s)

open Lexer (Stand) in
theorem inferWithin_eq {cap : Nat} : ∀ {n m : Nat} {p : Stand} {c : Cursor}, p.Sound cap →
    c.Between p.pre p.rest → p.rest.length < n → p.rest.length < m →
      inferWithin cap n p.state c = some (inferMode cap m p.state c)
  | 0, _, _, _, _, _, hn, _ => absurd hn (Nat.not_lt_zero _)
  | _, 0, _, _, _, _, _, hm => absurd hm (Nat.not_lt_zero _)
  | n + 1, m + 1, p, c, hp, hc, hn, hm => by
    obtain ⟨t, ht⟩ := Option.isSome_iff_exists.1 (Stand.lexical_isSome hp)
    rw [inferWithin, inferMode, Lexer.scan_eq cap .lexical hp.comment hc, ht]
    simp only [Option.map_some]
    cases hextra : t.token.kind.isExtra with
    | false => rfl
    | true =>
      have hne := Session.not_eof_of_isExtra hextra
      have hless := Stand.next_lt hp ht hne
      have hcursor := Stand.cursor_between cap .lexical p
      have hmoved : c.place.byte < (p.cursor cap .lexical).place.byte := by
        have hstart := Stand.le_start hp ht
        have hstop := Stand.start_lt_stop hp ht hne
        rw [Stand.stop_eq ht, Location.behind_byte] at hstop
        rw [hc.byte_eq, hcursor.byte_eq]
        omega
      rw [if_pos rfl, if_pos rfl, if_pos hmoved]
      exact inferWithin_eq (Stand.next_sound hp) hcursor (by omega) (by omega)

theorem modeWithin_eq {n : Nat} (config : Config) {text : String} (hn : text.utf8ByteSize < n) :
    modeWithin n config text = some (modeFor config text) := by
  have hinfer : inferWithin (Lexer.Config.ofDepth config.maxDepth).cap n {} (.start text)
      = some (inferMode (Lexer.Config.ofDepth config.maxDepth).cap (text.utf8ByteSize + 1) {}
        (.start text)) := by
    have hlen : text.toList.length ≤ text.utf8ByteSize := by
      rw [Text.utf8ByteSize_eq]
      exact Text.length_le_size _
    refine inferWithin_eq (Lexer.Stand.start_sound .unknown text.toList) ?_ (hlen.trans_lt hn)
      (Nat.lt_succ_of_le hlen)
    rw [Cursor.start_eq]
    exact .fresh _ _
  unfold modeWithin modeFor
  simp only [hinfer]
  generalize inferMode _ _ _ _ = mode
  rcases config.mode with _ | _ | _ | _
  case none | some.unknown => cases mode <;> rfl
  case some.json | some.idl => rfl

theorem runWithin_eq {n : Nat} (config : Config) {text : String} (hn : text.utf8ByteSize < n)
    {previous : Option Previous} (h : ∀ prev, previous = some prev →
      prev.Fits (Lexer.Config.ofDepth config.maxDepth).cap text.toList 0) :
    runWithin n config text previous = some (run config text previous) := by
  have hroot := (Outline.root (modeFor config text)).within_eq (Text.utf8ByteSize_eq text ▸ hn)
    (.start text config.maxDepth (modeFor config text) previous)
    ⟨⟨_, start_stands h⟩, fun hne => absurd rfl hne⟩
  cases hv : config.validate with
  | error d =>
    rw [runWithin, run, hv]
    rfl
  | ok u =>
    by_cases hb : config.maxBytes < text.utf8ByteSize
    · rw [runWithin, run, hv]
      show (if _ then _ else _ : ExceptT _ _ _) = some (if _ then _ else _)
      rw [if_pos hb, if_pos hb]
      rfl
    · rw [run_read hv hb, runWithin, hv, modeWithin_eq config hn]
      show (if config.maxBytes < text.utf8ByteSize then _ else _ : ExceptT _ _ _) = _
      rw [if_neg hb]
      show ExceptT.bind ((Outline.root (modeFor config text)).within n _)
        (fun r => pure (treeOf (modeFor config text) r)) = _
      rw [hroot]
      cases rootOf (modeFor config text) _ <;> rfl

end Parse

/-- `parse`, allowing `n` rounds to every loop. -/
def parseWithin (n : Nat) (config : Parse.Config) (text : String) :
    Option (Except Diagnostic Tree) :=
  Parse.runWithin n config text none

/-- `reparse`, allowing `n` rounds to every loop. -/
def reparseWithin (n : Nat) (config : Parse.Config) (old : Tree) (e : Edit) (text : String) :
    Option (Except Diagnostic Tree) :=
  Parse.runWithin n config text (some ⟨old.tokens, e⟩)

/-- Reading comes to an end: where every loop is allowed more rounds than the text has bytes, no
loop needs more, and none goes on without having moved the cursor. This holds of a parse from
scratch and of one with the help of the tree of another text that an edit has made into this one,
however that tree came about. -/
theorem parseWithin_eq (config : Parse.Config) {text : String} {n : Nat}
    (hn : text.utf8ByteSize < n) :
    parseWithin n config text = some (parse config text)
      ∧ ∀ {old : String} {tree : Tree} {start stop : Nat} {replacement : String},
        (parse config old).map Tree.content = .ok tree.content →
        Edit.result? old start stop replacement = some text →
        reparseWithin n config tree (.replace old start stop replacement) text
          = some (reparse config tree (.replace old start stop replacement) text) := by
  refine ⟨Parse.runWithin_eq config hn nofun, fun {old tree _ _ _} htree hedit => ?_⟩
  have hcurrent : Parse.Current config (old, tree) := htree
  obtain ⟨made, hmade, hcontent⟩ := hcurrent.exists_tree
  obtain ⟨mode, q, htrail⟩ := Parse.parse_trail hmade
  rw [show made.tokens = _ from congrArg (fun c => c.2.2.2) hcontent] at htrail
  refine Parse.runWithin_eq config hn fun prev hprev => ?_
  cases hprev
  exact Parse.fits_of_trail htrail hedit

/-- Without any rounds the reading of a text is broken off. -/
example : parseWithin 0 { mode := some .idl } "enum E" = none := rfl

theorem parseWithin_eq_enum : ∃ tree, "enum E \x7bA\x7d".utf8ByteSize < 11
    ∧ (parse {} "enum E").map Tree.content = .ok tree.content
    ∧ Edit.result? "enum E" 6 6 " \x7bA\x7d" = some "enum E \x7bA\x7d"
    ∧ parseWithin 11 {} "enum E \x7bA\x7d" = some (parse {} "enum E \x7bA\x7d")
    ∧ reparseWithin 11 {} tree (.replace "enum E" 6 6 " \x7bA\x7d") "enum E \x7bA\x7d"
      = some (reparse {} tree (.replace "enum E" 6 6 " \x7bA\x7d") "enum E \x7bA\x7d") := by
  obtain ⟨tree, -, h, -⟩ := Parse.reparse_body
  have htree : (parse {} "enum E").map Tree.content = .ok tree.content := by
    rw [h]
    rfl
  have hedit : Edit.result? "enum E" 6 6 " \x7bA\x7d" = some "enum E \x7bA\x7d" := by decide
  have hn : "enum E \x7bA\x7d".utf8ByteSize < 11 := by decide
  obtain ⟨hparse, hreparse⟩ := parseWithin_eq {} hn
  exact ⟨tree, hn, htree, hedit, hparse, hreparse htree hedit⟩

end AvroTree
