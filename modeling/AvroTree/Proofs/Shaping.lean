import AvroTree.Proofs.Making

/-!
# How high parsers build and what they label

A node is shaped when no path down from it is longer than some depth and the labels beneath it
stand where a labelling allows them (`Node.Shaped`). Parsers put nodes under a parent whose kind
they know, so what they give is stated of rows of nodes for a parent (`Row`). Comments that wait in
the session are leaves without labels (`Session.Leafy`), all else is put together by the parser
itself, and a parser is known by what it gives from such a session (`Gives`).
-/

namespace AvroTree

/-- Which labels the children of a node of a kind may carry. -/
abbrev Labelling := NodeKind → String → Prop

namespace Node

/-- No path down from the node has more than `depth` nodes, and the labels beneath it are
allowed. -/
def Shaped (may : Labelling) : (depth : Nat) → Node → Prop
  | 0, _ => False
  | depth + 1, n => ∀ c ∈ n.children, c.Shaped may depth ∧ ∀ f, c.field = some f → may n.kind f

/-- A shaped node that may stand under a parent. -/
structure Suits (may : Labelling) (parent : NodeKind) (depth : Nat) (n : Node) : Prop where
  shaped : n.Shaped may depth
  field : ∀ f, n.field = some f → may parent f

/-- A shaped node that has not been labelled. -/
structure Fresh (may : Labelling) (depth : Nat) (n : Node) : Prop where
  shaped : n.Shaped may depth
  field : n.field = none

/-- A node with nothing beneath it and without a label. -/
structure Stub (n : Node) : Prop where
  children : n.children = []
  field : n.field = none

/-- Nodes that may stand side by side under a parent. -/
def Row (may : Labelling) (parent : NodeKind) (depth : Nat) (ns : List Node) : Prop :=
  ∀ n ∈ ns, n.Suits may parent depth

variable {may : Labelling} {parent : NodeKind} {depth deep : Nat} {n : Node} {ns ms : List Node}

theorem Shaped.mono : ∀ {depth deep : Nat} {n : Node}, n.Shaped may depth → depth ≤ deep →
    n.Shaped may deep
  | _ + 1, _ + 1, _, h, hle => fun c hc =>
    ⟨(h c hc).1.mono (Nat.le_of_succ_le_succ hle), (h c hc).2⟩

/-- The nodes on the way from a node down to one with nothing beneath it. -/
inductive Path : Node → List Node → Prop
  | last {n : Node} (h : n.children = []) : Path n [n]
  | down {n c : Node} {p : List Node} (hc : c ∈ n.children) (hp : Path c p) : Path n (n :: p)

theorem exists_path : ∀ n : Node, ∃ p, n.Path p
  | ⟨_, _, _, [], _, _⟩ => ⟨_, .last rfl⟩
  | ⟨_, _, _, c :: _, _, _⟩ =>
    have ⟨_, hp⟩ := c.exists_path
    ⟨_, .down List.mem_cons_self hp⟩

theorem Shaped.length_le {p : List Node} (hp : n.Path p) :
    ∀ {depth : Nat}, n.Shaped may depth → p.length ≤ depth := by
  induction hp with
  | last h =>
    rintro (_ | depth) hn
    · exact hn.elim
    · exact Nat.le_add_left 1 depth
  | down hc _ ih =>
    rintro (_ | depth) hn
    · exact hn.elim
    · exact Nat.succ_le_succ (ih (hn _ hc).1)

theorem Shaped.of_mem_descendants {d : Node} : ∀ {depth : Nat} {n : Node}, n.Shaped may depth →
    d ∈ n.descendants → ∃ deep, d.Shaped may deep
  | depth + 1, n, h, hd => by
    rw [descendants_eq, List.mem_cons, mem_forest] at hd
    rcases hd with rfl | ⟨c, hc, hd⟩
    · exact ⟨depth + 1, h⟩
    · exact (h c hc).1.of_mem_descendants hd

theorem Shaped.allowed (h : n.Shaped may depth) {d c : Node} (hd : d ∈ n.descendants)
    (hc : c ∈ d.children) {f : String} (hf : c.field = some f) : may d.kind f := by
  obtain ⟨_ | deep, hdeep⟩ := h.of_mem_descendants hd
  · exact hdeep.elim
  · exact (hdeep c hc).2 f hf

theorem Fresh.mono (h : n.Fresh may depth) (hle : depth ≤ deep) : n.Fresh may deep :=
  ⟨h.shaped.mono hle, h.field⟩

/-- Without a label a node may stand under any parent. -/
theorem Fresh.suits (h : n.Fresh may depth) : n.Suits may parent depth :=
  ⟨h.shaped, fun f hf => by rw [h.field] at hf; cases hf⟩

theorem Fresh.label (h : n.Fresh may depth) {field : Option String}
    (hf : ∀ f ∈ field, may parent f) : (n.label field).Suits may parent depth := by
  cases field with
  | none => exact h.suits
  | some f =>
    cases depth with
    | zero => exact h.shaped.elim
    | succ depth => exact ⟨h.shaped, hf⟩

theorem Fresh.row (h : ∀ n ∈ ns, n.Fresh may depth) : Row may parent depth ns :=
  fun n hn => (h n hn).suits

theorem Fresh.branch {kind : NodeKind} (h : Row may kind depth ns) (place : Location) :
    (Node.branch kind ns place).Fresh may (depth + 1) :=
  ⟨fun c hc => ⟨(h c hc).shaped, (h c hc).field⟩, rfl⟩

theorem Stub.fresh (h : n.Stub) : n.Fresh may (depth + 1) := by
  refine ⟨fun c hc => ?_, h.field⟩
  rw [h.children] at hc
  cases hc

theorem Stub.row (h : ∀ n ∈ ns, n.Stub) : Row may parent (depth + 1) ns :=
  fun n hn => (h n hn).fresh.suits

namespace Row

theorem nil : Row may parent depth [] := nofun

theorem cons (h : n.Suits may parent depth) (hs : Row may parent depth ns) :
    Row may parent depth (n :: ns) :=
  List.forall_mem_cons.2 ⟨h, hs⟩

theorem one (h : n.Suits may parent depth) : Row may parent depth [n] :=
  nil.cons h

theorem append (h : Row may parent depth ns) (hs : Row may parent depth ms) :
    Row may parent depth (ns ++ ms) :=
  List.forall_mem_append.2 ⟨h, hs⟩

theorem mono (h : Row may parent depth ns) (hle : depth ≤ deep) : Row may parent deep ns :=
  fun n hn => ⟨(h n hn).shaped.mono hle, (h n hn).field⟩

/-- Where every label is allowed any row may stand. -/
theorem under {kind : NodeKind} (h : Row may parent depth ns) (hany : ∀ f, may kind f) :
    Row may kind depth ns :=
  fun n hn => ⟨(h n hn).shaped, fun f _ => hany f⟩

/-! Rows are gathered in arrays. -/

variable {a : Array Node}

theorem extend (h : Row may parent depth a.toList) (hs : Row may parent depth ns) :
    Row may parent depth (a ++ ns).toList := by
  rw [Array.toList_appendList]
  exact h.append hs

theorem push (h : Row may parent depth a.toList) (hn : n.Suits may parent depth) :
    Row may parent depth (a.push n).toList := by
  rw [Array.toList_push]
  exact h.append (one hn)

end Row

end Node

namespace Parse

open Node (Row Fresh Suits Stub)

/-- A session of some depth in which the comments that wait are stubs. -/
structure Session.Leafy (levels : Nat) (s : Session) : Prop where
  maxDepth : s.maxDepth = levels
  extras : ∀ n ∈ s.extras.toList, n.Stub

namespace Session.Leafy

variable {levels : Nat} {s : Session}

theorem commit (h : s.Leafy levels) (la : Lookahead) : (s.commit la).Leafy levels :=
  ⟨h.maxDepth, h.extras⟩

theorem fetch (valid : TokenSet) : ∀ (n : Nat) {s : Session}, s.Leafy levels →
    (s.fetch valid n).2.Leafy levels
  | n, s, h => by
    unfold Session.fetch
    dsimp only
    split
    · refine Session.Leafy.fetch valid _ ⟨h.maxDepth, fun n hn => ?_⟩
      rw [Array.toList_push, List.mem_append, List.mem_singleton] at hn
      rcases hn with hn | rfl
      · exact h.extras n hn
      · exact ⟨rfl, rfl⟩
    · exact ⟨h.maxDepth, h.extras⟩

theorem peek (h : s.Leafy levels) (valid : TokenSet) : (s.peek valid).2.Leafy levels := by
  unfold Session.peek
  dsimp only
  split
  · split
    · exact h
    · exact h.fetch _ _
  · exact h.fetch _ _

theorem bump (h : s.Leafy levels) : s.bump.2.Leafy levels := by
  unfold Session.bump
  split
  · exact h.commit _
  · dsimp only
    split
    · exact (h.peek _).commit _
    · exact h.peek _

end Session.Leafy

namespace Parser

/-- What a parser gives in a session whose comments are stubs, and still are behind it. -/
def Gives {α : Type} (levels : Nat) (P : α → Prop) (p : Parser α) : Prop :=
  ∀ s a s', s.Leafy levels → p s = .ok (a, s') → P a ∧ s'.Leafy levels

variable {α β γ : Type} {levels depth : Nat} {may : Labelling} {parent : NodeKind} {P : α → Prop}
  {Q : β → Prop}

namespace Gives

theorem pure {a : α} (h : P a) : Gives levels P (pure a) := by
  intro s b s' hs hr
  obtain ⟨rfl, rfl⟩ := pure_ok hr
  exact ⟨h, hs⟩

theorem bind {p : Parser α} {f : α → Parser β} (hp : Gives levels P p)
    (hf : ∀ a, P a → Gives levels Q (f a)) : Gives levels Q (p >>= f) := by
  intro s b s' hs hr
  obtain ⟨a, t, ha, hr⟩ := bind_ok hr
  obtain ⟨hPa, ht⟩ := hp s a t hs ha
  exact hf a hPa t b s' ht hr

theorem mono {R : α → Prop} {p : Parser α} (h : Gives levels P p) (hR : ∀ a, P a → R a) :
    Gives levels R p :=
  fun s a s' hs hr => ⟨hR a (h s a s' hs hr).1, (h s a s' hs hr).2⟩

theorem ite {c : Prop} [Decidable c] {p q : Parser α} (hp : Gives levels P p)
    (hq : Gives levels P q) : Gives levels P (if c then p else q) := by
  split
  · exact hp
  · exact hq

theorem ask {g : Session → γ} {k : γ → Parser α}
    (h : ∀ s, s.Leafy levels → Gives levels P (k (g s))) : Gives levels P (do k (g (← get))) :=
  fun s a s' hs hr => h s hs s a s' hs hr

end Gives

/-! ## Single moves -/

theorem tooDeep_gives (place : Location) : Gives levels P (tooDeep place) :=
  fun _ _ _ _ hr => (tooDeep_ok hr).elim

theorem peek_gives (valid : TokenSet) : Gives levels (fun _ => True) (peek valid) := by
  intro s t s' hs hr
  obtain ⟨-, rfl⟩ := peek_ok hr
  exact ⟨trivial, hs.peek valid⟩

theorem nextIs_gives (kind : Token.Kind) : Gives levels (fun _ => True) (nextIs kind) :=
  (peek_gives _).bind fun _ _ => .pure trivial

theorem here_gives : Gives levels (fun _ => True) here := by
  intro s l s' hs hr
  obtain ⟨-, rfl⟩ := here_ok hr
  exact ⟨trivial, hs⟩

theorem complain_gives (d : Diagnostic) : Gives levels (fun _ => True) (complain d) := by
  intro s u s' hs hr
  cases hr
  exact ⟨trivial, hs.maxDepth, hs.extras⟩

theorem flush_gives : Gives levels (fun ns => ∀ n ∈ ns, n.Stub) flush := by
  intro s ns s' hs hr
  cases hr
  exact ⟨hs.extras, hs.maxDepth, nofun⟩

theorem leaf_gives (kind : NodeKind) : Gives levels Stub (leaf kind) := by
  intro s n s' hs hr
  cases hr
  exact ⟨⟨rfl, rfl⟩, hs.bump⟩

/-- What carries no label may stand anywhere. -/
theorem unlabelled : ∀ f ∈ (none : Option String), may parent f :=
  nofun

/-- A token taken as a leaf stands behind the comments in front of it. -/
theorem bump_gives_last (kind : NodeKind) (field : Option String) :
    Gives levels (fun ns => ∃ extras, ∃ n : Node, ns = extras ++ [n.label field]
      ∧ (∀ m ∈ extras, m.Stub) ∧ n.Stub) (bump kind field) :=
  flush_gives.bind fun extras hextras => (leaf_gives kind).bind fun n hn =>
    .pure ⟨extras, n, rfl, hextras, hn⟩

theorem bump_gives (kind : NodeKind) {field : Option String} (hf : ∀ f ∈ field, may parent f) :
    Gives levels (Row may parent (depth + 1)) (bump kind field) :=
  flush_gives.bind fun _ hextras => (leaf_gives kind).bind fun _ hn =>
    .pure ((Stub.row hextras).append (.one (hn.fresh.label hf)))

theorem missing_gives (kind : NodeKind) (what : String) :
    Gives levels Stub (missing kind what) :=
  here_gives.bind fun _ _ => (complain_gives _).bind fun _ _ => .pure ⟨rfl, rfl⟩

theorem branch_gives {kind : NodeKind} {children : List Node} (h : Row may kind depth children) :
    Gives levels (Fresh may (depth + 1)) (branch kind children) :=
  here_gives.bind fun _ _ => .pure (.branch h _)

/-! ## Loops -/

/-- What every step keeps while it goes on, and leaves behind when it stops. -/
theorem iterate_gives {R : α → Prop} {step : α → Parser (Bool × α)}
    (hstep : ∀ a, P a → Gives levels (fun r => if r.1 then P r.2 else R r.2) (step a))
    (hstop : ∀ a, P a → R a) : ∀ (n : Nat) {a : α}, P a → Gives levels R (iterate step n a)
  | 0, a, h => .pure (hstop a h)
  | n + 1, a, h => (hstep a h).bind fun r hr => by
    obtain ⟨go, b⟩ := r
    cases go with
    | true => exact iterate_gives hstep hstop n hr
    | false => exact .pure hr

theorem loop_gives {R : α → Prop} {step : α → Parser (Bool × α)}
    (hstep : ∀ a, P a → Gives levels (fun r => if r.1 then P r.2 else R r.2) (step a))
    (hstop : ∀ a, P a → R a) {a : α} (h : P a) : Gives levels R (loop step a) :=
  .ask (g := Session.remaining) (k := fun n => iterate step (n + 1) a)
    fun _ _ => iterate_gives hstep hstop _ h

theorem gather_gives {P : List Node → Prop} {step : Array Node → Parser (Bool × Array Node)}
    {first : List Node}
    (hstep : ∀ nodes, P nodes.toList → Gives levels (fun r => P r.2.toList) (step nodes))
    (h : P first) : Gives levels P (gather step first) :=
  (loop_gives (P := fun nodes : Array Node => P nodes.toList) (R := fun nodes => P nodes.toList)
    (fun nodes hn => (hstep nodes hn).mono fun r hr => by split <;> exact hr)
    (fun _ hn => hn) h).bind fun _ hn => .pure hn

/-! ## Recovery -/

theorem skipStep_gives {stop : TokenSet} {a : Skipped} (h : ∀ n ∈ a.nodes.toList, n.Stub) :
    Gives levels (fun r => ∀ n ∈ r.2.nodes.toList, n.Stub) (skipStep stop a) := by
  refine (peek_gives _).bind fun _ _ => .ite (.pure h) ((bump_gives_last _ _).bind ?_)
  rintro _ ⟨extras, n, rfl, hextras, hn⟩
  refine .pure ?_
  rw [Array.toList_appendList]
  exact List.forall_mem_append.2
    ⟨h, List.forall_mem_append.2 ⟨hextras, List.forall_mem_singleton.2 hn⟩⟩

/-- What is skipped is at most an error over tokens. -/
theorem wrapUp_gives {extras : List Node} {a : Skipped} (hextras : ∀ n ∈ extras, n.Stub)
    (ha : ∀ n ∈ a.nodes.toList, n.Stub) (t : Token) :
    Gives levels (Row may parent (depth + 2)) (wrapUp extras a t) := by
  have wrap : Gives levels (Row may parent (depth + 2))
      (do return extras ++ [← branch .error a.nodes.toList]) :=
    (branch_gives (Stub.row ha)).bind fun _ hn => .pure ((Stub.row hextras).append (.one hn.suits))
  exact .ite (.pure ((Stub.row hextras).append (Stub.row ha)))
    (.ite ((complain_gives _).bind fun _ _ => wrap) wrap)

theorem skip_gives (stop : TokenSet) : Gives levels (Row may parent (depth + 2)) (skip stop) := by
  rw [skip_eq]
  refine flush_gives.bind fun extras hextras => Gives.bind (P := fun a : Skipped =>
    ∀ n ∈ a.nodes.toList, n.Stub) ?_ fun a ha => ?_
  · exact loop_gives (fun a ha => (skipStep_gives ha).mono fun r hr => by split <;> exact hr)
      (fun _ ha => ha) nofun
  · cases a.first with
    | none => exact .pure (Stub.row hextras)
    | some t => exact wrapUp_gives hextras ha t

theorem recoverTo_gives (sync first : TokenSet) :
    Gives levels (fun r => Row may parent (depth + 2) r.2) (recoverTo sync first) :=
  (peek_gives _).bind fun _ _ => .ite (.pure .nil) (.ite (.pure .nil)
    ((skip_gives _).bind fun _ hskipped => (peek_gives _).bind fun _ _ => .pure hskipped))

theorem expectAs?_gives (sync : TokenSet) (want : Token.Kind) (kind : NodeKind)
    {field : Option String} (hf : ∀ f ∈ field, may parent f) :
    Gives levels (fun r => Row may parent (depth + 2) r.2) (expectAs? sync want kind field) :=
  (recoverTo_gives _ _).bind fun _ hskipped => .ite
    (flush_gives.bind fun _ hextras => (leaf_gives _).bind fun _ hn =>
      .pure ((hskipped.append (Stub.row hextras)).append (.one (hn.fresh.label hf))))
    ((missing_gives _ _).bind fun _ hn => .pure (hskipped.append (.one (hn.fresh.label hf))))

theorem expect?_gives (sync : TokenSet) (want : Token.Kind) {field : Option String}
    (hf : ∀ f ∈ field, may parent f) :
    Gives levels (fun r => Row may parent (depth + 2) r.2) (expect? sync want field) :=
  expectAs?_gives sync want _ hf

theorem expect_gives (sync : TokenSet) (want : Token.Kind) {field : Option String}
    (hf : ∀ f ∈ field, may parent f) :
    Gives levels (Row may parent (depth + 2)) (expect sync want field) :=
  (expect?_gives sync want hf).bind fun _ h => .pure h

/-! ## Lists -/

/-- The nodes of a list are a row, and the comma that may have to be rejected is a leaf among
them. -/
structure Items.Fit (may : Labelling) (parent : NodeKind) (depth : Nat) (a : Items) : Prop where
  row : Row may parent (depth + 2) a.nodes.toList
  comma : ∀ i ∈ a.lastComma, ∃ c, a.nodes.toList[i]? = some c ∧ c.Stub

/-- A step leaves a list fit for the next one, the last step a row. -/
def Items.Kept (may : Labelling) (parent : NodeKind) (depth : Nat) (r : Bool × Items) : Prop :=
  if r.1 then r.2.Fit may parent depth else Row may parent (depth + 2) r.2.nodes.toList

/-- A list stays in order when nodes are added. -/
theorem Items.Fit.extend {a b : Items} {ns : List Node} (h : a.Fit may parent depth)
    (hns : Row may parent (depth + 2) ns) (hnodes : b.nodes.toList = a.nodes.toList ++ ns)
    (hcomma : b.lastComma = a.lastComma) : b.Fit may parent depth := by
  refine ⟨?_, fun i hi => ?_⟩
  · rw [hnodes]
    exact h.row.append hns
  · rw [hcomma] at hi
    obtain ⟨c, hc, hstub⟩ := h.comma i hi
    refine ⟨c, ?_, hstub⟩
    rw [hnodes, List.getElem?_append_left (List.getElem?_eq_some_iff.1 hc).1, hc]

theorem rejectComma_gives {a : Items} (h : a.Fit may parent depth) :
    Gives levels (fun nodes => Row may parent (depth + 2) nodes.toList) a.rejectComma := by
  unfold Items.rejectComma
  cases hcomma : a.lastComma.bind fun i => a.nodes[i]?.map (i, ·) with
  | none => exact .pure h.row
  | some found =>
    obtain ⟨i, hi, hmap⟩ := Option.bind_eq_some_iff.1 hcomma
    obtain ⟨comma, hc, rfl⟩ := Option.map_eq_some_iff.1 hmap
    obtain ⟨c, hc', hstub⟩ := h.comma i hi
    rw [← Array.getElem?_toList, hc', Option.some.injEq] at hc
    subst hc
    refine (complain_gives _).bind fun _ _ => .pure fun n hn => ?_
    rw [Array.toList_setIfInBounds] at hn
    rcases List.mem_or_eq_of_mem_set hn with hn | rfl
    · exact h.row n hn
    · exact (Fresh.branch (Row.one hstub.fresh.suits) _).suits

theorem progress_gives {element : Parser α} {stop : TokenSet} {k : α → List Node → Parser β}
    (h : Gives levels P element)
    (hk : ∀ a l, P a → Row may parent (depth + 2) l → Gives levels Q (k a l)) :
    Gives levels Q (progress stop element k) := by
  refine .ask (g := fun s => s.cursor.place.byte) (k := fun before => do
    let item ← element
    let skipped ← if (← get).cursor.place.byte = before then skip stop else pure []
    k item skipped) fun s _ => h.bind fun item hitem => ?_
  refine .ask (g := fun s => s.cursor.place.byte) (k := fun now =>
    if now = s.cursor.place.byte then skip stop >>= k item else pure [] >>= k item) fun _ _ => ?_
  exact .ite ((skip_gives _).bind fun l hl => hk item l hitem hl)
    (Gives.bind (P := (· = [])) (.pure rfl) fun l hl => hk item l hitem (hl ▸ .nil))

theorem addItem_gives {element : Parser Node} {stop : TokenSet} {nodes : Array Node}
    (h : Gives levels (Fresh may (depth + 2)) element)
    (hnodes : Row may parent (depth + 2) nodes.toList) :
    Gives levels (fun r => Row may parent (depth + 2) r.2.toList) (addItem stop element nodes) :=
  flush_gives.bind fun _ hextras => progress_gives h fun _ _ hitem hskipped =>
    .pure (((hnodes.extend (Stub.row hextras)).push hitem.suits).extend hskipped)

theorem listClose_gives {form : ListForm} {a : Items} {nodes : Array Node}
    (hnodes : Row may parent (depth + 2) nodes.toList) :
    Gives levels (Items.Kept may parent depth) (listClose form a nodes) :=
  (bump_gives _ unlabelled).bind fun _ hclose => .pure (hnodes.extend hclose)

theorem listItem_gives {stop : TokenSet} {element : Parser (List Node)} {a : Items}
    {comma : List Node} (h : Gives levels (Row may parent (depth + 2)) element)
    (ha : a.Fit may parent depth) (hcomma : Row may parent (depth + 2) comma) :
    Gives levels (Items.Kept may parent depth) (listItem stop element a comma) := by
  rw [listItem_eq]
  exact flush_gives.bind fun _ hextras => progress_gives h fun _ _ hitem hskipped =>
    .pure (ha.extend (((hcomma.append (Stub.row hextras)).append hitem).append hskipped)
      (by simp) rfl)

theorem listStep_gives {sync : TokenSet} {form : ListForm} {element : Parser (List Node)}
    {a : Items} (h : Gives levels (Row may parent (depth + 2)) element)
    (ha : a.Fit may parent depth) :
    Gives levels (Items.Kept may parent depth) (listStep sync form element a) := by
  rw [listStep_eq]
  refine (peek_gives _).bind fun t _ => .ite ?_ (.ite ?_ (.ite ?_ (.ite ?_ ?_)))
  · exact .ite ((rejectComma_gives ha).bind fun _ => listClose_gives) (listClose_gives ha.row)
  · exact .ite (listItem_gives h ha .nil)
      ((missing_gives _ _).bind fun _ hn => listItem_gives h ha (.one hn.fresh.suits))
  · refine (bump_gives_last _ _).bind ?_
    rintro _ ⟨extras, n, rfl, hextras, hn⟩
    have hrow : Row may parent (depth + 2) (extras ++ [n]) :=
      (Stub.row hextras).append (.one hn.fresh.suits)
    refine .pure ⟨ha.row.extend hrow, ?_⟩
    intro i hi
    obtain rfl := Option.some.inj hi
    refine ⟨n, ?_, hn⟩
    show (a.nodes ++ (extras ++ [n])).toList[(a.nodes ++ (extras ++ [n])).size - 1]? = some n
    rw [← Array.length_toList, Array.toList_appendList, ← List.append_assoc,
      ← List.getLast?_eq_getElem?, List.getLast?_concat]
  · exact (missing_gives _ _).bind fun _ hn => .pure (ha.row.push hn.fresh.suits)
  · exact (skip_gives _).bind fun _ hskipped => .pure (ha.extend hskipped (by simp) rfl)

theorem list_gives (sync : TokenSet) (form : ListForm) {element : TokenSet → Parser (List Node)}
    (h : ∀ sync, Gives levels (Row may parent (depth + 2)) (element sync)) :
    Gives levels (Row may parent (depth + 2)) (list sync form element) :=
  (loop_gives (P := Items.Fit may parent depth) (fun _ ha => listStep_gives (h _) ha)
    (fun _ ha => ha.row) ⟨.nil, by simp⟩).bind fun _ ha => .pure ha

end Parser

end Parse

end AvroTree
