import AvroTree.Json.Value
import AvroTree.Lexer.JsonValue

/-!
# Reading JSON

Strict JSON: no comments, no comma behind the last member, no character escaped that does not
exist and no control character inside a string. A reader gives the value it found and the text
behind it.
-/

namespace AvroTree

namespace Json

open Text (isJsonSpace isHexDigit)

def skipBlank (s : List Char) : List Char :=
  s.dropWhile isJsonSpace

def hexValue (c : Char) : Nat :=
  if c.isDigit then c.toNat - '0'.toNat
  else if c.isLower then c.toNat - 'a'.toNat + 10
  else c.toNat - 'A'.toNat + 10

/-- The number four hexadecimal digits stand for. -/
def hex4? (a b c d : Char) : Option Nat :=
  if isHexDigit a && isHexDigit b && isHexDigit c && isHexDigit d then
    some (((hexValue a * 16 + hexValue b) * 16 + hexValue c) * 16 + hexValue d)
  else none

/-- The character that two halves of a pair stand for. -/
def joinPair? (hi lo : Nat) : Option Char :=
  if 0xDC00 ≤ lo ∧ lo ≤ 0xDFFF then
    some (Char.ofNat (0x10000 + (hi - 0xD800) * 0x400 + (lo - 0xDC00)))
  else none

def simpleEscape? : Char → Option Char
  | '"' => some '"'
  | '\\' => some '\\'
  | '/' => some '/'
  | 'b' => some '\x08'
  | 'f' => some '\x0c'
  | 'n' => some '\n'
  | 'r' => some '\r'
  | 't' => some '\t'
  | _ => none

/-- The characters of a string behind its opening quote. -/
def readChars : List Char → Option (List Char × List Char)
  | [] => none
  | '"' :: cs => some ([], cs)
  | '\\' :: 'u' :: a :: b :: c :: d :: cs =>
    match hex4? a b c d with
    | none => none
    | some hi =>
      if 0xDC00 ≤ hi ∧ hi ≤ 0xDFFF then none
      else if 0xD800 ≤ hi ∧ hi < 0xDC00 then
        match cs with
        | '\\' :: 'u' :: e :: f :: g :: h :: ds =>
          match (hex4? e f g h).bind (joinPair? hi), readChars ds with
          | some x, some (xs, rest) => some (x :: xs, rest)
          | _, _ => none
        | _ => none
      else (readChars cs).map fun (xs, rest) => (Char.ofNat hi :: xs, rest)
  | '\\' :: e :: cs =>
    match simpleEscape? e with
    | some x => (readChars cs).map fun (xs, rest) => (x :: xs, rest)
    | none => none
  | c :: cs =>
    if c.toNat < 0x20 ∨ c = '\\' then none
    else (readChars cs).map fun (xs, rest) => (c :: xs, rest)

def readString (s : List Char) : Option (String × List Char) :=
  (readChars s).map fun (cs, rest) => (String.ofList cs, rest)

def readNumber (s : List Char) : Option (Json × List Char) :=
  let r := Lexer.jsonNumber s
  match r.value with
  | .ok _ => some (.number (String.ofList (s.take r.used)), s.drop r.used)
  | .error _ => none

mutual

/-- A value; `fuel` bounds the number of readers inside each other. -/
def readValue : (fuel : Nat) → List Char → Option (Json × List Char)
  | 0, _ => none
  | fuel + 1, s =>
    match skipBlank s with
    | 'n' :: 'u' :: 'l' :: 'l' :: cs => some (.null, cs)
    | 't' :: 'r' :: 'u' :: 'e' :: cs => some (.bool true, cs)
    | 'f' :: 'a' :: 'l' :: 's' :: 'e' :: cs => some (.bool false, cs)
    | '"' :: cs => (readString cs).map fun (x, rest) => (.string x, rest)
    | '[' :: cs =>
      match skipBlank cs with
      | ']' :: rest => some (.array [], rest)
      | _ => (readItems fuel cs).map fun (items, rest) => (.array items, rest)
    | '\x7b' :: cs =>
      match skipBlank cs with
      | '\x7d' :: rest => some (.object [], rest)
      | _ => (readMembers fuel cs).map fun (members, rest) => (.object members, rest)
    | cs => readNumber cs

/-- One item or more, up to the closing bracket. -/
def readItems : (fuel : Nat) → List Char → Option (List Json × List Char)
  | 0, _ => none
  | fuel + 1, s => do
    let (item, s) ← readValue fuel s
    match skipBlank s with
    | ',' :: cs =>
      let (items, rest) ← readItems fuel cs
      return (item :: items, rest)
    | ']' :: rest => return ([item], rest)
    | _ => none

/-- One member or more, up to the closing brace. -/
def readMembers : (fuel : Nat) → List Char → Option (List (String × Json) × List Char)
  | 0, _ => none
  | fuel + 1, s =>
    match skipBlank s with
    | '"' :: cs => do
      let (name, s) ← readString cs
      match skipBlank s with
      | ':' :: cs =>
        let (value, s) ← readValue fuel cs
        match skipBlank s with
        | ',' :: cs =>
          let (members, rest) ← readMembers fuel cs
          return ((name, value) :: members, rest)
        | '\x7d' :: rest => return ([(name, value)], rest)
        | _ => none
      | _ => none
    | _ => none

end

/-- Reads a text that is one JSON value. -/
def parse? (text : String) : Option Json :=
  match readValue (text.length + 1) text.toList with
  | some (value, rest) => if (skipBlank rest).isEmpty then some value else none
  | none => none

end Json

end AvroTree
