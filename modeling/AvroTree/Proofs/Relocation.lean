import AvroTree.Proofs.Counterparts
import AvroTree.Proofs.Retracing

/-!
# Trees further down

A text may be put behind another one that ends in a newline. What is found in it then stands as many
bytes and rows further down as the other text is long (`Location.behind_newline`), and everything
that is made of it with it (`Node.down`). Two parses that are in front of the same text, blanks
apart, find the same further down (`Track.relocating`).
-/

namespace AvroTree

/-! ## Further down -/

/-- The place that many bytes and rows further down. -/
def Location.down (m : Nat × Nat) (l : Location) : Location :=
  ⟨l.byte + m.1, ⟨l.point.row + m.2, l.point.column⟩⟩

def Span.down (m : Nat × Nat) (s : Span) : Span :=
  ⟨s.start.down m, s.stop.down m⟩

def Token.down (m : Nat × Nat) (t : Token) : Token :=
  ⟨t.kind, t.span.down m⟩

/-- The complaint about the place further down. -/
def Diagnostic.down (m : Nat × Nat) (d : Diagnostic) : Diagnostic :=
  { d with line := d.line.map (· + m.2), offset := d.offset.map (· + m.1) }

namespace Node

mutual

/-- The node with everything beneath it further down. -/
def down (m : Nat × Nat) : Node → Node
  | ⟨kind, span, field, children, isExtra, isMissing⟩ =>
    ⟨kind, span.down m, field, downAll m children, isExtra, isMissing⟩

def downAll (m : Nat × Nat) : List Node → List Node
  | [] => []
  | n :: rest => n.down m :: downAll m rest

end

end Node

namespace Location

variable (m : Nat × Nat)

theorem down_zero (l : Location) : l.down (0, 0) = l := rfl

theorem step_down (l : Location) (c : Char) : (l.down m).step c = (l.step c).down m := by
  unfold step down Point.step
  split
  · simp only [mk.injEq, Point.mk.injEq, and_true]
    omega
  · simp only [mk.injEq, and_true]
    omega

theorem advance_down (cs : List Char) :
    ∀ l : Location, (l.down m).advance cs = (l.advance cs).down m := by
  induction cs with
  | nil => exact fun _ => rfl
  | cons c cs ih =>
    intro l
    show ((l.down m).step c).advance cs = _
    rw [step_down, ih]
    rfl

/-- The row of the place behind a text tells its newlines. -/
theorem advance_row (cs : List Char) : ∀ l : Location,
    (l.advance cs).point.row = l.point.row + cs.count '\n' := by
  induction cs with
  | nil => exact fun _ => rfl
  | cons c cs ih =>
    intro l
    show ((l.step c).advance cs).point.row = _
    rw [ih]
    by_cases hc : c = '\n'
    · subst hc
      rw [List.count_cons_self]
      show l.point.row + 1 + _ = _
      omega
    · rw [List.count_cons_of_ne hc]
      show (l.point.step c).row + _ = _
      rw [Point.step, if_neg hc]

/-- Behind a text and a newline every place is further down by as many bytes and rows. -/
theorem behind_newline (front cs : List Char) : behind (front ++ ['\n'] ++ cs)
    = (behind cs).down (Text.size front + 1, front.count '\n' + 1) := by
  have hfront : behind (front ++ ['\n'])
      = ({} : Location).down (Text.size front + 1, front.count '\n' + 1) := by
    have hrow : (behind front).point.row = 0 + front.count '\n' := advance_row front {}
    rw [behind_append]
    show (behind front).step '\n' = _
    unfold step down Point.step
    rw [if_pos rfl, behind_byte, hrow, Nat.zero_add]
    show Location.mk (Text.size front + 1) _ = ⟨0 + (Text.size front + 1), ⟨0 + _, 0⟩⟩
    rw [Nat.zero_add, Nat.zero_add]
  rw [behind_append, hfront, advance_down]
  rfl

end Location

namespace Span

variable (m : Nat × Nat)

theorem cover_down (s t : Span) : (s.down m).cover (t.down m) = (s.cover t).down m := by
  unfold cover down Location.down
  simp only [Nat.add_lt_add_iff_right]
  congr 1 <;> split <;> rfl

end Span

namespace Node

variable (m : Nat × Nat)

theorem downAll_eq : ∀ ns : List Node, downAll m ns = ns.map (down m)
  | [] => rfl
  | n :: ns => by rw [downAll, downAll_eq ns, List.map_cons]

theorem down_eq (n : Node) : n.down m
    = { n with span := n.span.down m, children := n.children.map (down m) } := by
  cases n
  rw [down, downAll_eq]

theorem down_span (n : Node) : (n.down m).span = n.span.down m := by
  rw [down_eq]

theorem down_leaf (kind : NodeKind) (t : Token) : (leaf kind t).down m = leaf kind (t.down m) := by
  rw [down_eq]
  rfl

theorem down_missing (kind : NodeKind) (l : Location) :
    (missing kind l).down m = missing kind (l.down m) := by
  rw [down_eq]
  rfl

theorem down_label (field : Option String) (n : Node) :
    (n.label field).down m = (n.down m).label field := by
  rw [down_eq, down_eq]
  cases field <;> rfl

theorem down_spanOf (ns : List Node) (l : Location) :
    spanOf (ns.map (down m)) (l.down m) = (spanOf ns l).down m := by
  unfold spanOf
  rw [List.head?_map, List.getLast?_map]
  cases hfirst : ns.head? with
  | none => rfl
  | some first =>
    cases hlast : ns.getLast? with
    | none => rfl
    | some last =>
      simp only [Option.map_some, down_span]
      exact Span.cover_down m _ _

theorem down_branch (kind : NodeKind) (ns : List Node) (l : Location) :
    (branch kind ns l).down m = branch kind (ns.map (down m)) (l.down m) := by
  rw [down_eq, branch, branch, down_spanOf]

mutual

theorem down_zero : ∀ n : Node, n.down (0, 0) = n
  | ⟨kind, span, field, children, isExtra, isMissing⟩ => by
    rw [down, downAll_zero children]
    rfl

theorem downAll_zero : ∀ ns : List Node, downAll (0, 0) ns = ns
  | [] => rfl
  | n :: ns => by rw [downAll, down_zero n, downAll_zero ns]

end

theorem map_down_zero (ns : List Node) : ns.map (down (0, 0)) = ns := by
  rw [← downAll_eq, downAll_zero]

end Node

namespace Diagnostic

theorem down_located (m : Nat × Nat) (category : Category) (message : String) (l : Location) :
    (located category message l).down m = located category message (l.down m) := by
  simp only [located, down, Location.down, Option.map_some, mk.injEq, Option.some.injEq, true_and,
    and_true]
  omega

theorem down_zero (d : Diagnostic) : d.down (0, 0) = d := by
  obtain ⟨category, message, line, column, offset⟩ := d
  cases line <;> cases offset <;> rfl

end Diagnostic

/-! ## Two parses -/

namespace Lexer.Stand

variable {cap : Nat} {V : TokenSet} {p q : Stand} {t u : Scanned} {P P' : List Char}

theorem Past.symm (h : Past P P' p q) : Past P' P q p := by
  obtain ⟨g, g', n, r, hg, hg', hp, hq, hpre, hpre'⟩ := h.split
  exact ⟨h.state.symm, g', g, n, r, hg', hg, hq, hp, hpre', hpre⟩

/-- The places behind what both read. -/
theorem Past.back (h : Past P P' p q) (hp : p.Sound cap) (hq : q.Sound cap)
    (ht : p.token? cap V = some t) (hu : q.token? cap V = some u) :
    ∃ n, (p.next cap V).pre = P ++ n ∧ (q.next cap V).pre = P' ++ n := by
  obtain ⟨n, hfront, hfront'⟩ := h.front
  obtain ⟨-, -, -, -, hpre, -⟩ := here_found hp ht
  obtain ⟨-, -, -, -, hpre', -⟩ := here_found hq hu
  rw [hfront, List.append_assoc] at hpre
  rw [hfront', h.ahead_eq, h.here_eq, List.append_assoc] at hpre'
  exact ⟨_, hpre, hpre'⟩

end Lexer.Stand

namespace Parse

open Lexer (Stand)
open Lexer.Stand (Past)

theorem map_down_eq {α β : Type} {f g : α → β} {l l' : List α}
    (h : List.Forall₂ (fun a b => f a = g b) l l') : l.map f = l'.map g := by
  rwa [← List.forall₂_eq_eq_eq, List.forall₂_map_left_iff, List.forall₂_map_right_iff]

/-- The track of two parses that come to be in front of the same text, with what lies behind them
evened out. -/
def Track.relocating (cap : Nat) (text text' : List Char) {P P' : List Char} {m m' : Nat × Nat}
    (h : ∀ n, (Location.behind (P ++ n)).down m = (Location.behind (P' ++ n)).down m')
    (before before' : List Scanned) : Track where
  __ := Track.diagonal cap text .idl
  cap
  text'
  Runs _ := Past P P'
  Loc l l' := l.down m = l'.down m'
  Tok t t' := t.down m = t'.down m'
  Same n n' := n.down m = n'.down m'
  Diag d d' := d.down m = d'.down m'
  before
  before'
  meet := by
    rintro l p q la lb hpast - hp hq - - hla hlb hv - -
    obtain ⟨hvalid, hkind, -⟩ := hla.likewise hp hq hlb hv (by rw [hpast.here_eq]) fun _ => by
      rw [hpast.here_eq]
    have htoken := hlb.token
    rw [hvalid] at htoken
    obtain ⟨n, hfront, hfront'⟩ := hpast.front
    obtain ⟨k, hback, hback'⟩ := hpast.back hp hq hla.token htoken
    refine ⟨hv, hvalid, ?_, fun _ => ?_⟩
    · show Token.mk _ ⟨_, _⟩ = Token.mk _ ⟨_, _⟩
      rw [hkind, Stand.start_eq hp hla.token, Stand.start_eq hq htoken, Stand.stop_eq hla.token,
        Stand.stop_eq htoken, hfront, hfront', hback, hback', h, h]
    · rw [hvalid]
      exact hpast.next hp hq hla.token htoken
  kind_eq h := (congrArg Token.kind h).symm
  start h := congrArg (fun t : Token => t.span.start) h
  stop h := congrArg (fun t : Token => t.span.stop) h
  complaint _ _ h := by rw [Diagnostic.down_located, Diagnostic.down_located, h]
  leaf _ h := by rw [Node.down_leaf, Node.down_leaf, h]
  branch _ h h' := by rw [Node.down_branch, Node.down_branch, map_down_eq h, h']
  missing _ h := by rw [Node.down_missing, Node.down_missing, h]
  label _ h := by rw [Node.down_label, Node.down_label, h]
  span_start h := by
    have hspan := congrArg (fun n : Node => n.span.start) h
    rwa [Node.down_span, Node.down_span] at hspan
  span_stop h := by
    have hspan := congrArg (fun n : Node => n.span.stop) h
    rwa [Node.down_span, Node.down_span] at hspan

/-- What is complained about further down is complained about in the same order. -/
theorem sortByOffset_down (m : Nat × Nat) {l : List Diagnostic}
    (hl : ∀ d ∈ l, d.offset.isSome) : (sortByOffset l).map (Diagnostic.down m)
      = sortByOffset (l.map (Diagnostic.down m)) := by
  refine List.map_mergeSort fun d hd e he => ?_
  obtain ⟨i, hi⟩ := Option.isSome_iff_exists.1 (hl d hd)
  obtain ⟨j, hj⟩ := Option.isSome_iff_exists.1 (hl e he)
  simp [Diagnostic.down, hi, hj]

end Parse

end AvroTree
