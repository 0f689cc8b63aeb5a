import AvroTree.Text.Edit

/-!
# The edit a benchmark makes

One blank is put in front of a newline near the middle of a text. Strings and line comments end
before a newline and a block comment only grows by the blank, so no token is lost or gained.
-/

namespace AvroTree

namespace Benchmark

/-- The bytes at which the newlines of a text stand, the text itself standing at `byte`. -/
def newlines : (byte : Nat) → List Char → List Nat
  | _, [] => []
  | byte, c :: cs =>
    if c = '\n' then byte :: newlines (byte + 1) cs else newlines (byte + c.utf8Size) cs

/-- The first newline in the second half of a text, or else its last newline, or else its end. -/
def middleByte (text : String) : Nat :=
  let found := newlines 0 text.toList
  match found.find? fun byte => text.utf8ByteSize / 2 ≤ byte with
  | some byte => byte
  | none => found.getLast?.getD text.utf8ByteSize

/-- The edit, and the text it makes. -/
def middleEdit (text : String) : Edit × String :=
  let byte := middleByte text
  (.replace text byte byte " ", (Edit.result? text byte byte " ").getD text)

end Benchmark

end AvroTree
