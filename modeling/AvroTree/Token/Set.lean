import AvroTree.Token.Kind

/-!
# Sets of token kinds

A set says which tokens can stand at a place. It is a word with one bit for each index of a kind.
-/

namespace AvroTree

open Token (Kind)

structure TokenSet where
  bits : BitVec Kind.count
deriving DecidableEq, Repr, Inhabited

namespace TokenSet

/-- The set of the indices set in a word; bits that belong to no kind are dropped. -/
def ofBits (n : Nat) : TokenSet :=
  ⟨BitVec.ofNat Kind.count n⟩

def empty : TokenSet :=
  ofBits 0

def all : TokenSet :=
  ⟨BitVec.allOnes Kind.count⟩

def single (k : Kind) : TokenSet :=
  ⟨BitVec.twoPow Kind.count k.index⟩

def contains (s : TokenSet) (k : Kind) : Bool :=
  s.bits.getLsbD k.index

def union (s t : TokenSet) : TokenSet :=
  ⟨s.bits ||| t.bits⟩

def inter (s t : TokenSet) : TokenSet :=
  ⟨s.bits &&& t.bits⟩

def diff (s t : TokenSet) : TokenSet :=
  ⟨s.bits &&& ~~~ t.bits⟩

instance : Union TokenSet := ⟨union⟩

instance : Inter TokenSet := ⟨inter⟩

instance : SDiff TokenSet := ⟨diff⟩

def insert (s : TokenSet) (k : Kind) : TokenSet :=
  s ∪ single k

def erase (s : TokenSet) (k : Kind) : TokenSet :=
  s \ single k

def isEmpty (s : TokenSet) : Bool :=
  s.bits == 0

def ofList (kinds : List Kind) : TokenSet :=
  kinds.foldl insert empty

/-- The kinds of a set in order of their index. -/
def toList (s : TokenSet) : List Kind :=
  Kind.all.filter s.contains

def size (s : TokenSet) : Nat :=
  s.toList.length

/-- Every kind but the JSON value: what a plain pass over a text looks for. -/
def lexical : TokenSet :=
  all.erase .jsonSpan

/-- The kinds that are welcome everywhere: comments, the end and errors. -/
def ambient : TokenSet :=
  ofList [.comment, .docComment, .eof, .error .unexpectedCharacter]

def keywords : TokenSet :=
  ofList (Keyword.all.map .keyword)

/-- The kinds a reader would be told to expect. -/
def describe (s : TokenSet) : String :=
  match (s.toList.filter fun k => !k.isExtra && !k.isError).map Kind.describe with
  | [] => "nothing"
  | [name] => name
  | names => "one of " ++ ", ".intercalate names

end TokenSet

end AvroTree
