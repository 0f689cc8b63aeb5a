import AvroTree.Token.Basic
import AvroTree.Tree.NodeKind

/-!
# Concrete syntax trees

A tree holds every token of its text, comments included. Its leaves in order are the tokens; a
node of no width stands where a token is missing.
-/

namespace AvroTree

structure Node where
  kind : NodeKind
  span : Span
  /-- The label under which the parent keeps this node. -/
  field : Option String := none
  children : List Node := []
  /-- A comment, which may stand between any two nodes. -/
  isExtra : Bool := false
  /-- A node put in for something that is not in the text. -/
  isMissing : Bool := false
deriving Inhabited

namespace Node

mutual

def decEq : (a b : Node) → Decidable (a = b)
  | ⟨k, s, f, cs, e, m⟩, ⟨k', s', f', cs', e', m'⟩ =>
    match decEqList cs cs' with
    | isTrue h =>
      if h' : k = k' ∧ s = s' ∧ f = f' ∧ e = e' ∧ m = m' then isTrue (by simp_all)
      else isFalse (by simp; intro _ _ _ _ _; simp_all)
    | isFalse h => isFalse (by simp; intro _ _ _ hc; exact absurd hc h)

def decEqList : (as bs : List Node) → Decidable (as = bs)
  | [], [] => isTrue rfl
  | [], _ :: _ => isFalse (by simp)
  | _ :: _, [] => isFalse (by simp)
  | a :: as, b :: bs =>
    match decEq a b, decEqList as bs with
    | isTrue h, isTrue h' => isTrue (by rw [h, h'])
    | isFalse h, _ => isFalse (by simp [h])
    | _, isFalse h => isFalse (by simp [h])

end

instance : DecidableEq Node := decEq

/-! ## Building trees -/

/-- The leaf of a token. -/
def leaf (kind : NodeKind) (t : Token) : Node :=
  { kind, span := t.span, isExtra := t.kind.isExtra }

/-- The span from the first of some nodes to the last, or no text at `place`. -/
def spanOf (children : List Node) (place : Location) : Span :=
  match children.head?, children.getLast? with
  | some first, some last => first.span.cover last.span
  | _, _ => .empty place

/-- A node that covers its children; `place` is where it stands without any. -/
def branch (kind : NodeKind) (children : List Node) (place : Location) : Node :=
  { kind, span := spanOf children place, children }

/-- A node of no width for something absent. -/
def missing (kind : NodeKind) (place : Location) : Node :=
  { kind, span := .empty place, isMissing := true }

def label (field : Option String) (n : Node) : Node :=
  match field with
  | some f => { n with field := some f }
  | none => n

/-! ## Looking into trees -/

def isNamed (n : Node) : Bool :=
  n.kind.isNamed

def isError (n : Node) : Bool :=
  n.kind == .error

def text (n : Node) (source : String) : String :=
  n.span.text source

mutual

/-- Whether something in the tree is wrong or missing. -/
def hasError : Node → Bool
  | ⟨kind, _, _, children, _, isMissing⟩ => kind == .error || isMissing || anyError children

def anyError : List Node → Bool
  | [] => false
  | n :: rest => n.hasError || anyError rest

end

mutual

/-- A node and everything beneath it, parents before children and first children first. -/
def descendants : Node → List Node
  | ⟨kind, span, field, children, isExtra, isMissing⟩ =>
    ⟨kind, span, field, children, isExtra, isMissing⟩ :: forest children

def forest : List Node → List Node
  | [] => []
  | n :: rest => n.descendants ++ forest rest

end

def childNamed? (name : String) (n : Node) : Option Node :=
  n.children.find? fun c => c.field == some name

def childrenNamed (name : String) (n : Node) : List Node :=
  n.children.filter fun c => c.field == some name

/-- What is kept under a name: the value of a JSON pair, or else the child itself. -/
def member? (name : String) (n : Node) : Option Node :=
  match n.childNamed? name with
  | some c => if c.kind = .jsonPair then c.childNamed? "value" else some c
  | none => none

def namedChildren (n : Node) : List Node :=
  n.children.filter fun c => c.isNamed && !c.isExtra

def findAll (kind : NodeKind) (n : Node) : List Node :=
  n.descendants.filter fun d => d.kind == kind

def find? (kind : NodeKind) (n : Node) : Option Node :=
  n.descendants.find? fun d => d.kind == kind

end Node

end AvroTree
