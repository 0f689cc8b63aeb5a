import AvroTree.Text.Point

/-!
# Edits

An edit replaces one stretch of a text. It keeps where the stretch started, where it ended in the
old text and where its replacement ends in the new one, which is all that is needed to carry
places behind it from one text to the other.
-/

namespace AvroTree

structure Edit where
  start : Location
  oldStop : Location
  newStop : Location
deriving DecidableEq, Repr, Inhabited

namespace Edit

/-- The edit that puts `replacement` for the bytes from `start` to `stop`. -/
def replace (text : String) (start stop : Nat) (replacement : String) : Edit where
  start := Location.ofOffset text start
  oldStop := Location.ofOffset text stop
  newStop := (Location.ofOffset text start).advance replacement.toList

/-- The text with the bytes from `start` to `stop` replaced, when both fall between characters
and in order. -/
def result? (text : String) (start stop : Nat) (replacement : String) : Option String :=
  if start ≤ stop then
    match Text.dropBytes? text.toList start, Text.dropBytes? text.toList stop with
    | some _, some tail =>
      some (String.ofList (Text.takeBytes text.toList start ++ replacement.toList ++ tail))
    | _, _ => none
  else
    none

/-- How many bytes the text grows by. -/
def delta (e : Edit) : Int :=
  (e.newStop.byte : Int) - e.oldStop.byte

/-- Carries a byte at or behind the edit to the new text. -/
def shiftByte (e : Edit) (byte : Nat) : Nat :=
  byte + e.newStop.byte - e.oldStop.byte

/-- Carries a point at or behind the edit to the new text. Only the row the edit ends in has its
columns moved. -/
def shiftPoint (e : Edit) (p : Point) : Point :=
  if p.row = e.oldStop.point.row then
    ⟨e.newStop.point.row, e.newStop.point.column + (p.column - e.oldStop.point.column)⟩
  else
    ⟨p.row - e.oldStop.point.row + e.newStop.point.row, p.column⟩

def shift (e : Edit) (l : Location) : Location :=
  ⟨e.shiftByte l.byte, e.shiftPoint l.point⟩

def shiftSpan (e : Edit) (s : Span) : Span :=
  ⟨e.shift s.start, e.shift s.stop⟩

/-- The byte of the old text that stands at `byte` in the new one. Inside the replacement there is
none. -/
def oldOffset? (e : Edit) (byte : Nat) : Option Nat :=
  if byte ≤ e.start.byte then some byte
  else if e.newStop.byte ≤ byte then some (byte - e.newStop.byte + e.oldStop.byte)
  else none

end Edit

end AvroTree
