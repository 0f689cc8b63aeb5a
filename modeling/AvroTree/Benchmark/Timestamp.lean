import AvroTree.Benchmark.Times

/-!
# Points in time

A point in time is a number of seconds since the first of January 1970. Its date is found by
counting years from the first of March, so that a leap day ends its year.
-/

namespace AvroTree

namespace Benchmark

structure Date where
  year : Nat
  month : Nat
  day : Nat
deriving DecidableEq, Repr, Inhabited

namespace Date

/-- The days of 400 years. -/
def cycle : Nat := 146097

/-- The date that lies a number of days behind the first of March of the year zero. -/
def ofMarchDays (days : Nat) : Date :=
  let inCycle := days % cycle
  let yearInCycle := (inCycle - inCycle / 1460 + inCycle / 36524 - inCycle / 146096) / 365
  let inYear := inCycle - (365 * yearInCycle + yearInCycle / 4 - yearInCycle / 100)
  let month := (5 * inYear + 2) / 153
  let day := inYear - (153 * month + 2) / 5 + 1
  let year := days / cycle * 400 + yearInCycle
  if month < 10 then ⟨year, month + 3, day⟩ else ⟨year + 1, month - 9, day⟩

/-- The date that lies a number of days behind the first of January 1970. -/
def ofDays (days : Nat) : Date :=
  ofMarchDays (days + 719468)

def render (d : Date) : String :=
  s!"{padded 4 d.year}-{padded 2 d.month}-{padded 2 d.day}"

end Date

/-- The hours, minutes and seconds of a day with something between them. -/
def clock (separator : String) (seconds : Nat) : String :=
  let rest := seconds % 86400
  separator.intercalate
    [padded 2 (rest / 3600), padded 2 (rest / 60 % 60), padded 2 (rest % 60)]

/-- A point in time as documents give it. -/
def timestamp (seconds : Nat) : String :=
  (Date.ofDays (seconds / 86400)).render ++ "T" ++ clock ":" seconds ++ "Z"

/-- A point in time as the name of a file. -/
def fileStamp (seconds : Nat) : String :=
  (Date.ofDays (seconds / 86400)).render ++ "_" ++ clock "-" seconds ++ "Z"

end Benchmark

end AvroTree
