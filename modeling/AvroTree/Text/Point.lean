import AvroTree.Text.Bytes

/-!
# Places in a text

A place is known by its byte offset and by its row and column, both counted from zero; a column
counts bytes. A newline ends its row.
-/

namespace AvroTree

structure Point where
  row : Nat := 0
  column : Nat := 0
deriving DecidableEq, Repr, Inhabited

namespace Point

/-- The point behind character `c`. -/
def step (p : Point) (c : Char) : Point :=
  if c = '\n' then ⟨p.row + 1, 0⟩ else ⟨p.row, p.column + c.utf8Size⟩

/-- The point behind a text that starts at `p`. -/
def advance (p : Point) (cs : List Char) : Point :=
  cs.foldl step p

/-- The point `n` bytes behind `p`, or at the end of the text if it is shorter. Inside a
character every byte counts one column. -/
def walk (p : Point) : List Char → Nat → Point
  | [], _ => p
  | c :: cs, n =>
    if c.utf8Size ≤ n then (p.step c).walk cs (n - c.utf8Size) else ⟨p.row, p.column + n⟩

/-- The point of byte `n` of a text. -/
def ofOffset (text : String) (n : Nat) : Point :=
  walk {} text.toList n

/-- Row and column as people count them, from one. -/
def render (p : Point) : String :=
  s!"{p.row + 1}:{p.column + 1}"

/-- Points of one text are ordered by row, then by column. -/
def order (p q : Point) : Ordering :=
  (compare p.row q.row).then (compare p.column q.column)

end Point

/-- A byte offset and the point it falls on. -/
structure Location where
  byte : Nat := 0
  point : Point := {}
deriving DecidableEq, Repr, Inhabited

namespace Location

/-- The location behind character `c`. -/
def step (l : Location) (c : Char) : Location :=
  ⟨l.byte + c.utf8Size, l.point.step c⟩

/-- The location behind a text that starts at `l`. -/
def advance (l : Location) (cs : List Char) : Location :=
  cs.foldl step l

/-- The location of byte `n` of a text. -/
def ofOffset (text : String) (n : Nat) : Location :=
  ⟨n, Point.ofOffset text n⟩

end Location

/-- The text from `start` up to `stop`. -/
structure Span where
  start : Location := {}
  stop : Location := {}
deriving DecidableEq, Repr, Inhabited

namespace Span

/-- The span of no text at `l`. -/
def empty (l : Location) : Span :=
  ⟨l, l⟩

def length (s : Span) : Nat :=
  s.stop.byte - s.start.byte

def isEmpty (s : Span) : Bool :=
  s.start.byte == s.stop.byte

/-- The smallest span over both; of two equal ends the first span's is kept. -/
def cover (s t : Span) : Span where
  start := if t.start.byte < s.start.byte then t.start else s.start
  stop := if s.stop.byte < t.stop.byte then t.stop else s.stop

/-- The text a span covers, empty when the span does not fit the text. -/
def text (s : Span) (source : String) : String :=
  Text.slice source s.start.byte s.stop.byte

end Span

end AvroTree
