import AvroTree.Lexer.Reading
import AvroTree.Text.CharClass
import AvroTree.Token.Set

/-!
# Names, numbers and strings

The lexers of one token each. They are called on a text whose first character has already chosen
between them. A failed one has used up what belongs to the faulty token.
-/

namespace AvroTree

namespace Lexer

open Text (isNamePart isNameStart)

/-- A lexer that may find its token faulty. -/
abbrev Attempt (α : Type) := ExceptT LexError Lexer α

/-! ## Names -/

/-- The rest of a name, and whether it has a dot. A dot belongs to a name only in front of a
character that could start another. -/
def nameRest : Lexer Bool
  | [] => ⟨false, 0, 1⟩
  | c :: cs =>
    if isNamePart c then (nameRest cs).after 1
    else if c = '.' then
      match cs with
      | [] => ⟨false, 0, 2⟩
      | d :: ds =>
        if isNameStart d then ((nameRest ds).after 2).map fun _ => true else ⟨false, 0, 2⟩
    else ⟨false, 0, 1⟩

/-- The kind of an undotted word: a keyword where that keyword is wanted, or where no name is. -/
def wordKind (valid : TokenSet) (word : List Char) : Token.Kind :=
  match Keyword.ofSpelling? (String.ofList word) with
  | some k =>
    if valid.contains (.keyword k) || !valid.contains .identifier then .keyword k
    else .identifier
  | none => .identifier

/-- A name, or a keyword where one is wanted. -/
def word (valid : TokenSet) : Lexer Token.Kind := fun s =>
  let r := nameRest s
  r.map fun dotted => if dotted then .identifier else wordKind valid (s.take r.used)

/-- A name between backticks. Without the second one the first is a stray character. -/
def quotedName : Attempt Token.Kind := fun s =>
  let r := skipWhile isNamePart (s.drop 1)
  if 0 < r.value ∧ s[r.value + 1]? = some '\x60' then
    ⟨.ok .identifier, r.value + 2, r.value + 2⟩
  else
    ⟨.error .unexpectedCharacter, 1, r.value + 2⟩

/-- The mark of an annotation. Its name may hold dashes and dots. -/
def atName : Attempt Token.Kind := fun s =>
  match s.drop 1 with
  | [] => ⟨.error .unexpectedCharacter, 1, 2⟩
  | c :: cs =>
    if isNameStart c then
      ((skipWhile (fun d => isNamePart d || d == '-' || d == '.') (c :: cs)).after 1).map
        fun _ => .ok .atName
    else ⟨.error .unexpectedCharacter, 1, 2⟩

/-! ## Numbers -/

def isSign (c : Char) : Bool :=
  c == '-' || c == '+'

def isExponentMark (c : Char) : Bool :=
  c == 'e' || c == 'E'

/-- Whether a sign or a dot starts a number. -/
def startsNumber : Lexer Bool
  | '.' :: d :: _ => ⟨d.isDigit, 0, 2⟩
  | c :: '.' :: cs =>
    if isSign c then ⟨(cs.head?.map Char.isDigit).getD false, 0, 3⟩ else ⟨false, 0, 2⟩
  | c :: d :: _ => ⟨isSign c && d.isDigit, 0, 2⟩
  | _ => ⟨false, 0, 2⟩

/-- Digits with single underscores between them; `n` have been read before. -/
def digitsFrom (n : Nat) : Lexer (Except LexError Nat)
  | [] => ⟨.ok n, 0, 1⟩
  | c :: cs =>
    if c.isDigit then (digitsFrom (n + 1) cs).after 1
    else if c = '_' ∧ 0 < n then
      match cs with
      | [] => ⟨.error .invalidNumber, 1, 2⟩
      | d :: ds =>
        if d.isDigit then (digitsFrom (n + 1) ds).after 2 else ⟨.error .invalidNumber, 1, 2⟩
    else ⟨.ok n, 0, 1⟩

def digits : Attempt Nat :=
  ExceptT.mk (digitsFrom 0)

/-- The power of ten behind a number, its digits read by `run`. -/
def exponent (run : Attempt Nat) : Attempt Unit := do
  if ← skipIf isExponentMark then
    let _ ← skipIf isSign
    if (← run) = 0 then throw .invalidNumber

def number : Attempt Token.Kind := do
  let _ ← skipIf isSign
  let whole ← digits
  let fraction ← if ← skipIf (· == '.') then digits else pure 0
  if whole + fraction = 0 then throw .invalidNumber
  exponent digits
  return .number

/-! ## Strings -/

/-- A string behind its opening quote. A backslash takes the character behind it along. -/
def stringRest (quote : Char) : Lexer (Except LexError Token.Kind)
  | [] => ⟨.error .unterminatedString, 0, 1⟩
  | c :: cs =>
    if c = quote then ⟨.ok .string, 1, 1⟩
    else if c = '\\' then
      match cs with
      | [] => ⟨.error .unterminatedString, 1, 2⟩
      | d :: ds =>
        if d = '\n' then ⟨.error .unterminatedString, 1, 2⟩ else (stringRest quote ds).after 2
    else if c = '\n' then ⟨.error .unterminatedString, 0, 1⟩
    else (stringRest quote cs).after 1

def string (quote : Char) : Attempt Token.Kind := fun s =>
  (stringRest quote (s.drop 1)).after 1

end Lexer

end AvroTree
