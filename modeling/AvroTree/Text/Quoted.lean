import AvroTree.Text.Printable

/-!
# Quoted text

A text between quotes, with every character that cannot be seen written by its number.
-/

namespace AvroTree

namespace Text

/-- The digits of a number in base sixteen. -/
def hexNumber (n : Nat) : List Char :=
  Nat.toDigits 16 n

/-- A character of a quoted text. -/
def showChar (c : Char) : List Char :=
  if c = '\x00' then ['\\', '0']
  else if c = '\t' then ['\\', 't']
  else if c = '\r' then ['\\', 'r']
  else if c = '\n' then ['\\', 'n']
  else if c = '"' then ['\\', '"']
  else if c = '\\' then ['\\', '\\']
  else if isPrintable c then [c]
  else ['\\', 'u', '\x7b'] ++ hexNumber c.toNat ++ ['\x7d']

def quoted (s : String) : String :=
  String.ofList ('"' :: s.toList.flatMap showChar ++ ['"'])

end Text

end AvroTree
