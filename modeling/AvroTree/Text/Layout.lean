/-!
# Laying out text

Lines of a text and columns of a fixed width, which count characters.
-/

namespace AvroTree

namespace Text

def blanks (n : Nat) : String :=
  String.ofList (List.replicate n ' ')

/-- A text with blanks in front of it up to a width. -/
def alignRight (width : Nat) (s : String) : String :=
  blanks (width - s.length) ++ s

/-- A text with blanks behind it up to a width. -/
def alignLeft (width : Nat) (s : String) : String :=
  s ++ blanks (width - s.length)

/-- The lines of a text behind the characters `line` of the first, of which the last comes first. A
line ends in front of a newline or of a carriage return and a newline. -/
def linesAfter : (line : List Char) → List Char → List (List Char)
  | [], [] => []
  | line, [] => [line.reverse]
  | '\r' :: line, '\n' :: cs => line.reverse :: linesAfter [] cs
  | line, '\n' :: cs => line.reverse :: linesAfter [] cs
  | line, c :: cs => linesAfter (c :: line) cs

/-- The lines of a text. Nothing stands behind the last newline. -/
def lines (s : String) : List String :=
  (linesAfter [] s.toList).map String.ofList

end Text

end AvroTree
