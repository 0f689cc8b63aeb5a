import AvroTree.Text.Alphabetic

/-!
# Character classes of the two languages

Names may hold any character that is not reserved, so the reserved characters are listed and the
letters are not.
-/

namespace AvroTree

namespace Text

/-- The code points of the Unicode property White_Space. -/
def whiteRanges : List (Nat × Nat) :=
  [(0x9, 0xD), (0x20, 0x20), (0x85, 0x85), (0xA0, 0xA0), (0x1680, 0x1680), (0x2000, 0x200A),
   (0x2028, 0x2029), (0x202F, 0x202F), (0x205F, 0x205F), (0x3000, 0x3000)]

def isWhite (c : Char) : Bool :=
  inRanges whiteRanges c

/-- White space and the three invisible characters that are skipped like it: the zero width space,
the word joiner and the byte order mark. -/
def isSpace (c : Char) : Bool :=
  isWhite c || c == '\u200B' || c == '\u2060' || c == '\uFEFF'

/-- A text without the white space around it. -/
def trim (cs : List Char) : List Char :=
  ((cs.dropWhile isWhite).reverse.dropWhile isWhite).reverse

/-- White space inside a JSON value. -/
def isJsonSpace (c : Char) : Bool :=
  c == ' ' || c == '\t' || c == '\n' || c == '\r'

/-- The controls of ASCII and Latin-1. -/
def isControl (c : Char) : Bool :=
  c.toNat < 0x20 || (0x7F ≤ c.toNat && c.toNat < 0xA0)

/-- The ASCII characters that end a name. -/
def reservedMarks : List Char :=
  [':', ';', '"', '\'', '@', '#', '.', ',', '|', '^', '&', '<', '=', '>', '+', '-', '*', '/',
   '\\', '%', '?', '!', '~', '(', ')', '[', ']', '\x7b', '\x7d', '\x60']

/-- Characters that are never part of a name. -/
def isReserved (c : Char) : Bool :=
  isControl c || isSpace c || reservedMarks.contains c

def isNameStart (c : Char) : Bool :=
  !c.isDigit && !isReserved c

def isNamePart (c : Char) : Bool :=
  !isReserved c

/-- Characters a line comment stops in front of. -/
def endsLine (c : Char) : Bool :=
  c == '\n' || c == '\r' || c == '\u2028' || c == '\u2029'

def isHexDigit (c : Char) : Bool :=
  c.isDigit || ('a' ≤ c && c ≤ 'f') || ('A' ≤ c && c ≤ 'F')

end Text

end AvroTree
