import AvroTree.Token.Kind
import AvroTree.Text.CharClass

/-!
# What a lexer remembers between two tokens

The language being read, the brackets that are open and a block comment cut off by the end of a
window. This is enough to go on from any token, and it has a short form in bytes: a version, the
language, the comment and the number of open brackets, one byte each, then a byte for every
bracket from the outermost in.
-/

namespace AvroTree

/-- The language of a text. It stays open until the first token that settles it. -/
inductive Mode where
  | unknown | json | idl
deriving DecidableEq, Repr, Inhabited

namespace Mode

def name : Mode → String
  | .unknown => "unknown"
  | .json => "json"
  | .idl => "idl"

/-- The language of files with an extension, in any case. -/
def ofExtension? (extension : String) : Option Mode :=
  match extension.map Char.toLower with
  | "avsc" | "avpr" | "json" => some .json
  | "avdl" => some .idl
  | _ => none

/-- A name without the white space around it, in lower case. -/
def normalize (name : String) : String :=
  String.ofList ((Text.trim name.toList).map Char.toLower)

/-- Reads the name of a language, `auto` standing for one to be found out. -/
def parse (name : String) : Except String Mode :=
  match normalize name with
  | "json" | "schema" => .ok .json
  | "idl" => .ok .idl
  | "auto" | "unknown" => .ok .unknown
  | other => .error s!"unknown mode `{other}` (expected json, idl or auto)"

def byte : Mode → UInt8
  | .unknown => 0
  | .json => 1
  | .idl => 2

def ofByte? (b : UInt8) : Option Mode :=
  [Mode.unknown, .json, .idl].find? fun m => m.byte == b

end Mode

inductive Bracket where
  | brace | bracket | paren | angle
deriving DecidableEq, Repr, Inhabited

namespace Bracket

def byte : Bracket → UInt8
  | .brace => 1
  | .bracket => 2
  | .paren => 3
  | .angle => 4

def ofByte? (b : UInt8) : Option Bracket :=
  [Bracket.brace, .bracket, .paren, .angle].find? fun k => k.byte == b

/-- The bracket a mark opens. -/
def openedBy? : Punct → Option Bracket
  | .lBrace => some .brace
  | .lBracket => some .bracket
  | .lParen => some .paren
  | .lAngle => some .angle
  | _ => none

/-- The bracket a mark closes. -/
def closedBy? : Punct → Option Bracket
  | .rBrace => some .brace
  | .rBracket => some .bracket
  | .rParen => some .paren
  | .rAngle => some .angle
  | _ => none

end Bracket

inductive CommentKind where
  | block | doc
deriving DecidableEq, Repr, Inhabited

namespace CommentKind

def token : CommentKind → Token.Kind
  | .block => .comment
  | .doc => .docComment

def byte : CommentKind → UInt8
  | .block => 1
  | .doc => 2

end CommentKind

/-- Why a byte string is no lexer state. -/
inductive StateError where
  | truncated (size : Nat)
  | unsupportedVersion (byte : UInt8)
  | invalidMode (byte : UInt8)
  | invalidComment (byte : UInt8)
  | invalidBracket (byte : UInt8)
  | lengthMismatch (expected actual : Nat)
  | depthExceeded (depth max : Nat)
deriving DecidableEq, Repr

namespace StateError

def message : StateError → String
  | .truncated size => s!"scanner state is truncated ({size} bytes)"
  | .unsupportedVersion b => s!"unsupported scanner state version {b.toNat}"
  | .invalidMode b => s!"invalid mode byte {b.toNat}"
  | .invalidComment b => s!"invalid comment byte {b.toNat}"
  | .invalidBracket b => s!"invalid bracket byte {b.toNat}"
  | .lengthMismatch expected actual =>
    s!"stack length mismatch: header says {expected}, found {actual}"
  | .depthExceeded depth max =>
    s!"stored nesting depth {depth} exceeds the configured maximum {max}"

end StateError

/-- The most brackets that may ever be open: their number is kept in one byte. -/
def depthCeiling : Nat := 255

namespace Lexer

structure State where
  mode : Mode := .unknown
  /-- The open brackets, the innermost first. -/
  stack : List Bracket := []
  /-- The comment that the text so far has left unfinished. -/
  comment : Option CommentKind := none
deriving DecidableEq, Repr, Inhabited

namespace State

def depth (s : State) : Nat :=
  s.stack.length

/-- Closes the innermost bracket of a sort and all brackets inside it. Without an open one
nothing happens. -/
def close (s : State) (b : Bracket) : State :=
  match s.stack.dropWhile (· != b) with
  | [] => s
  | _ :: outer => { s with stack := outer }

def version : UInt8 := 1

/-- The state in bytes. Of more than 255 brackets the outermost 255 are kept. -/
def encode (s : State) : List UInt8 :=
  let brackets := s.stack.reverse.take depthCeiling
  [version, s.mode.byte, (s.comment.map CommentKind.byte).getD 0, UInt8.ofNat brackets.length]
    ++ brackets.map Bracket.byte

def decodeComment (b : UInt8) : Except StateError (Option CommentKind) :=
  if b = 0 then .ok none
  else if b = 1 then .ok (some .block)
  else if b = 2 then .ok (some .doc)
  else .error (.invalidComment b)

def decodeMode (b : UInt8) : Except StateError Mode :=
  match Mode.ofByte? b with
  | some m => .ok m
  | none => .error (.invalidMode b)

def decodeBracket (b : UInt8) : Except StateError Bracket :=
  match Bracket.ofByte? b with
  | some k => .ok k
  | none => .error (.invalidBracket b)

/-- Reads a state back. No bytes at all are the state at the start of a text. -/
def decode : List UInt8 → Except StateError State
  | [] => .ok {}
  | v :: bytes =>
    if v ≠ version then .error (.unsupportedVersion v)
    else
      match bytes with
      | m :: c :: n :: brackets => do
        let mode ← decodeMode m
        let comment ← decodeComment c
        if brackets.length ≠ n.toNat then
          throw (.lengthMismatch n.toNat brackets.length)
        let stack ← brackets.mapM decodeBracket
        return { mode, comment, stack := stack.reverse }
      | _ => .error (.truncated (bytes.length + 1))

/-- Reads a state back for a lexer that keeps at most `cap` brackets open. -/
def load (cap : Nat) (bytes : List UInt8) : Except StateError State := do
  let s ← decode bytes
  if cap < s.depth then throw (.depthExceeded s.depth cap)
  return s

end State

end Lexer

end AvroTree
