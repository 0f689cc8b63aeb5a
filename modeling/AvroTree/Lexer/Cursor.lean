import AvroTree.Lexer.Reading
import AvroTree.Token.Basic

/-!
# Cursors

A cursor stands between two characters of a text. It can be kept to a window that ends before the
text does: nothing behind the window is seen, and an attempt to look there is noted. It also notes
the furthest byte examined since scanning last began.
-/

namespace AvroTree

structure Cursor where
  /-- Where the cursor stands. -/
  place : Location
  /-- The text from here on, whether or not the window shows it. -/
  rest : List Char
  /-- The byte the window ends at. -/
  limit : Nat
  /-- The byte the text ends at. -/
  size : Nat
  /-- One past the furthest byte examined. -/
  lookahead : Nat
  /-- Whether the end of the window was in the way. -/
  hitLimit : Bool
deriving Repr, DecidableEq

namespace Cursor

def start (text : String) : Cursor where
  place := {}
  rest := text.toList
  limit := text.utf8ByteSize
  size := text.utf8ByteSize
  lookahead := 0
  hitLimit := false

/-- A fresh cursor further on at a place whose point is known, or at the end if it lies past it. -/
def moveTo (place : Location) (c : Cursor) : Cursor :=
  let byte := min place.byte c.size
  { c with
    place := ⟨byte, place.point⟩
    rest := (Text.dropBytes? c.rest (byte - c.place.byte)).getD []
    limit := c.size
    lookahead := byte
    hitLimit := false }

/-- A cursor at a place of a text. -/
def startAt (text : String) (place : Location) : Cursor :=
  (start text).moveTo place

def atEnd (c : Cursor) : Bool :=
  c.size ≤ c.place.byte

/-- Whether the window ends before the text does. -/
def isBounded (c : Cursor) : Bool :=
  c.limit < c.size

/-- The text the window shows. -/
def window (c : Cursor) : List Char :=
  if c.isBounded then Text.takeBytes c.rest (c.limit - c.place.byte) else c.rest

/-- Moves the end of the window to byte `n`, or to the character boundary before it; never behind
the cursor or past the text. -/
def setLimit (n : Nat) (c : Cursor) : Cursor :=
  if c.size ≤ n then { c with limit := c.size }
  else { c with limit := c.place.byte + Text.size (Text.takeBytes c.rest (n - c.place.byte)) }

/-- Forgets what has been examined. -/
def beginScan (c : Cursor) : Cursor :=
  { c with lookahead := c.place.byte, hitLimit := false }

/-- The bytes of the first `n` characters, the end of the text counting as one byte. -/
def reach : List Char → Nat → Nat
  | _, 0 => 0
  | [], _ + 1 => 1
  | c :: cs, n + 1 => c.utf8Size + reach cs n

/-- Notes that the first `n` characters of the window have been examined. -/
def examine (n : Nat) (c : Cursor) : Cursor :=
  { c with
    lookahead := if n = 0 then c.lookahead else max c.lookahead (c.place.byte + reach c.window n)
    hitLimit := c.hitLimit || (c.isBounded && c.window.length < n) }

/-- Moves on by `n` characters. -/
def skip (n : Nat) (c : Cursor) : Cursor :=
  { c with place := c.place.advance (c.rest.take n), rest := c.rest.drop n }

/-- Lets a lexer read the window. -/
def run {α : Type} (p : Lexer α) (c : Cursor) : α × Cursor :=
  let r := p c.window
  (r.value, (c.examine r.seen).skip r.used)

/-- A place to come back to. -/
structure Mark where
  place : Location
  rest : List Char
deriving Repr, DecidableEq

def mark (c : Cursor) : Mark :=
  ⟨c.place, c.rest⟩

def reset (m : Mark) (c : Cursor) : Cursor :=
  { c with place := m.place, rest := m.rest }

/-- The span from a mark to the cursor. -/
def spanFrom (m : Mark) (c : Cursor) : Span :=
  ⟨m.place, c.place⟩

/-- The text from a mark to the cursor. -/
def textFrom (m : Mark) (c : Cursor) : List Char :=
  Text.takeBytes m.rest (c.place.byte - m.place.byte)

end Cursor

end AvroTree
