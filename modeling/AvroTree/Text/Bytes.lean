/-!
# Text measured in bytes

Offsets count the bytes of a text in UTF-8 while the text itself is a list of characters. An
offset is usable only when it falls between two characters, so cutting at an offset can fail.
-/

namespace AvroTree

namespace Text

/-- The bytes a text takes in UTF-8. -/
def size : List Char → Nat
  | [] => 0
  | c :: cs => c.utf8Size + size cs

/-- The text after its first `n` bytes, unless `n` is past the end or inside a character. -/
def dropBytes? : List Char → Nat → Option (List Char)
  | cs, 0 => some cs
  | [], _ + 1 => none
  | c :: cs, n + 1 =>
    if c.utf8Size ≤ n + 1 then dropBytes? cs (n + 1 - c.utf8Size) else none

/-- The longest beginning of a text that fits into `n` bytes. -/
def takeBytes : List Char → Nat → List Char
  | [], _ => []
  | c :: cs, n => if c.utf8Size ≤ n then c :: takeBytes cs (n - c.utf8Size) else []

/-- The characters from byte `start` to byte `stop`, when both fall between characters. -/
def slice? (cs : List Char) (start stop : Nat) : Option (List Char) :=
  if start ≤ stop then
    match dropBytes? cs start with
    | some tail => (dropBytes? tail (stop - start)).map fun _ => takeBytes tail (stop - start)
    | none => none
  else
    none

/-- The text from byte `start` to byte `stop`, empty when the range does not fit. -/
def slice (text : String) (start stop : Nat) : String :=
  match slice? text.toList start stop with
  | some cs => String.ofList cs
  | none => ""

/-- Whether byte `n` of a text falls between two characters. -/
def isBoundary (text : String) (n : Nat) : Bool :=
  (dropBytes? text.toList n).isSome

end Text

end AvroTree
