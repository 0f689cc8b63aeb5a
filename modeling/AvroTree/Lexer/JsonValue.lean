import AvroTree.Lexer.Literal
import AvroTree.Lexer.State

/-!
# JSON values as single tokens

A default value or the argument of an annotation is one token however large it is. It is read
piece by piece: a bracket, a string, a number, a word or a separator, each judged by what may
stand at its place. A comma may stand behind the last member.
-/

namespace AvroTree

namespace Lexer

open Text (isJsonSpace isNamePart isHexDigit isAlphabetic)

/-- The characters that stand for another one behind a backslash. -/
def isSimpleEscape (c : Char) : Bool :=
  ['"', '\\', '/', 'b', 'f', 'n', 'r', 't'].contains c

/-- A JSON string behind its opening quote. -/
def jsonStringRest : Lexer (Except LexError Unit)
  | [] => ⟨.error .unterminatedString, 0, 1⟩
  | '"' :: _ => ⟨.ok (), 1, 1⟩
  | '\n' :: _ => ⟨.error .unterminatedString, 0, 1⟩
  | ['\\'] => ⟨.error .unterminatedString, 1, 2⟩
  | '\\' :: '\n' :: _ => ⟨.error .unterminatedString, 1, 2⟩
  | '\\' :: 'u' :: a :: b :: c :: d :: cs =>
    if isHexDigit a && isHexDigit b && isHexDigit c && isHexDigit d then
      (jsonStringRest cs).after 6
    else
      let n := ([a, b, c].takeWhile isHexDigit).length
      ⟨.error .invalidEscape, n + 2, n + 3⟩
  | '\\' :: 'u' :: cs =>
    let n := (cs.takeWhile isHexDigit).length
    ⟨.error .invalidEscape, n + 2, n + 3⟩
  | '\\' :: e :: cs =>
    if isSimpleEscape e then (jsonStringRest cs).after 2 else ⟨.error .invalidEscape, 2, 2⟩
  | _ :: cs => (jsonStringRest cs).after 1

def jsonString : Attempt Unit := fun s =>
  (jsonStringRest (s.drop 1)).after 1

/-- Digits without underscores. -/
def plainDigits : Attempt Nat :=
  ExceptT.lift (skipWhile Char.isDigit)

/-- A JSON number: no plus sign, no needless zero in front, digits on both sides of the dot. -/
def jsonNumber : Attempt Unit := do
  let _ ← skipIf (· == '-')
  if ← skipIf (· == '0') then
    pure ()
  else if (← plainDigits) = 0 then
    throw .invalidNumber
  if ← skipIf (· == '.') then
    if (← plainDigits) = 0 then throw .invalidNumber
  exponent plainDigits

/-- What may stand next inside a JSON value. -/
inductive Expect where
  | value | valueOrClose | keyOrClose | colon | commaOrClose
deriving DecidableEq, Repr

/-- What one piece of a JSON value does. -/
inductive Piece where
  /-- The value goes on, with the brackets that are open now. -/
  | more (expect : Expect) (stack : List Bracket)
  /-- A value is complete inside these brackets. -/
  | complete (stack : List Bracket)
  /-- Nothing that may stand here starts here. -/
  | misplaced (cause : LexError)
  /-- A string or number starts here and is faulty. -/
  | faulty (cause : LexError)
  /-- A word that is no JSON literal. -/
  | bareWord
deriving DecidableEq, Repr

def Piece.ofAttempt (good : Piece) : Except LexError Unit → Piece
  | .ok _ => good
  | .error e => .faulty e

/-- A piece that starts a value; at most `room` brackets may be open. -/
def valuePiece (room : Nat) (stack : List Bracket) : Lexer Piece
  | [] => ⟨.misplaced .unbalancedJson, 0, 1⟩
  | c :: cs =>
    if c = '\x7b' ∨ c = '[' then
      if room ≤ stack.length then ⟨.misplaced .depthExceeded, 0, 1⟩
      else if c = '\x7b' then ⟨.more .keyOrClose (.brace :: stack), 1, 1⟩
      else ⟨.more .valueOrClose (.bracket :: stack), 1, 1⟩
    else if c = '"' then (jsonString (c :: cs)).map (.ofAttempt (.complete stack))
    else if c = '-' ∨ c.isDigit then (jsonNumber (c :: cs)).map (.ofAttempt (.complete stack))
    else if isAlphabetic c then
      let r := skipWhile isNamePart (c :: cs)
      if ["true", "false", "null"].contains (String.ofList ((c :: cs).take r.used)) then
        r.map fun _ => .complete stack
      else
        r.map fun _ => .bareWord
    else ⟨.misplaced .unbalancedJson, 0, 1⟩

/-- The piece at the front of a text, given what may stand there. -/
def piece (room : Nat) (expect : Expect) (stack : List Bracket) : Lexer Piece
  | [] => ⟨.misplaced .unbalancedJson, 0, 1⟩
  | c :: cs =>
    match expect with
    | .value => valuePiece room stack (c :: cs)
    | .valueOrClose =>
      if c = ']' then ⟨.complete stack.tail, 1, 1⟩ else valuePiece room stack (c :: cs)
    | .keyOrClose =>
      if c = '"' then (jsonString (c :: cs)).map (.ofAttempt (.more .colon stack))
      else if c = '\x7d' then ⟨.complete stack.tail, 1, 1⟩
      else ⟨.misplaced .unbalancedJson, 0, 1⟩
    | .colon =>
      if c = ':' then ⟨.more .value stack, 1, 1⟩ else ⟨.misplaced .unbalancedJson, 0, 1⟩
    | .commaOrClose =>
      if c = ',' then
        ⟨.more (if stack.head? = some .brace then .keyOrClose else .valueOrClose) stack, 1, 1⟩
      else if (c = '\x7d' ∧ stack.head? = some .brace)
          ∨ (c = ']' ∧ stack.head? = some .bracket) then
        ⟨.complete stack.tail, 1, 1⟩
      else ⟨.misplaced .unbalancedJson, 0, 1⟩

/-- The pieces behind the first. A misplaced piece leaves the text where the piece before it ended.
Every step uses up a character, so a step for each character and one for the end are enough. -/
def pieces (room : Nat) (steps : List Char) (expect : Expect) (stack : List Bracket) :
    Lexer (Except LexError Unit) := fun s =>
  match steps with
  | [] => ⟨.error .unbalancedJson, 0, 0⟩
  | _ :: steps =>
    let r := bind (skipWhile isJsonSpace) (fun _ => piece room expect stack) s
    match r.value with
    | .more expect stack =>
      ((pieces room steps expect stack (s.drop r.used)).after r.used).seeing r.seen
    | .complete [] => r.map fun _ => .ok ()
    | .complete stack =>
      ((pieces room steps .commaOrClose stack (s.drop r.used)).after r.used).seeing r.seen
    | .misplaced e => r.back.map fun _ => .error e
    | .faulty e => r.map fun _ => .error e
    | .bareWord => r.back.map fun _ => .error .unbalancedJson

def startsJsonValue (c : Char) : Bool :=
  c == '\x7b' || c == '[' || c == '"' || c == '-' || c.isDigit || isAlphabetic c

/-- A whole JSON value with at most `room` brackets open in it, or `none` at a bare word. -/
def jsonValue (room : Nat) : Lexer (Option (Except LexError Token.Kind)) := fun s =>
  let r := piece room .value [] s
  let go (expect : Expect) (stack : List Bracket) :=
    (((pieces room (' ' :: s) expect stack (s.drop r.used)).after r.used).seeing r.seen).map
      fun result => some (result.map fun _ => .jsonSpan)
  match r.value with
  | .more expect stack => go expect stack
  | .complete [] => r.map fun _ => some (.ok .jsonSpan)
  | .complete stack => go .commaOrClose stack
  | .misplaced e => ⟨some (.error e), 1, r.seen⟩
  | .faulty e => r.map fun _ => some (.error e)
  | .bareWord => r.back.map fun _ => none

end Lexer

end AvroTree
