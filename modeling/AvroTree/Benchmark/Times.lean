import AvroTree.Json.Value
import AvroTree.Text.Layout

/-!
# Measured times

Times are whole nanoseconds and are shown in milliseconds.
-/

namespace AvroTree

namespace Benchmark

/-- A number with at least `width` digits. -/
def padded (width n : Nat) : String :=
  let digits := toString n
  String.ofList (List.replicate (width - digits.length) '0') ++ digits

/-- A time in milliseconds to three places. -/
def showMillis (nanos : Nat) : String :=
  let micros := (nanos + 500) / 1000
  s!"{micros / 1000}.{padded 3 (micros % 1000)}ms"

/-- A time in milliseconds as a number, without the zeros at its end. -/
def millis (nanos : Nat) : Json :=
  let places := (padded 6 (nanos % 1000000)).toList.reverse.dropWhile (· == '0')
  let places := if places.isEmpty then ['0'] else places.reverse
  .number (toString (nanos / 1000000) ++ "." ++ String.ofList places)

/-- What a number of measurements come to. Of none there is neither a least nor a greatest. -/
structure Times where
  average : Nat := 0
  least : Option Nat := none
  greatest : Option Nat := none
deriving DecidableEq, Repr, Inhabited

namespace Times

def total (l : List Nat) : Nat :=
  l.foldl (· + ·) 0

/-- The time that `pick` leaves of several. -/
def pick? (pick : Nat → Nat → Nat) : List Nat → Option Nat
  | [] => none
  | t :: rest => some (rest.foldl pick t)

def ofList (l : List Nat) : Times where
  average := total l / l.length
  least := pick? Nat.min l
  greatest := pick? Nat.max l

def showLeast (t : Times) : String :=
  (t.least.map showMillis).getD "infms"

def showGreatest (t : Times) : String :=
  (t.greatest.map showMillis).getD "-infms"

/-- A bound as a number, or nothing. -/
def bound (time : Option Nat) : Json :=
  (time.map millis).getD .null

end Times

/-- The times of one round. -/
structure Sample where
  tokenize : Nat
  parse : Nat
  reparse : Nat
deriving DecidableEq, Repr, Inhabited

end Benchmark

end AvroTree
