import AvroTree.Token.Keyword

/-!
# Token kinds

Every kind has an index below `Kind.count`, under which sets of kinds keep it. The lexical errors
share one index: a set cannot hold some of them and not the others.
-/

namespace AvroTree

/-- Why a stretch of text is no token. -/
inductive LexError where
  | unexpectedCharacter | unterminatedString | unterminatedComment | invalidEscape | invalidNumber
  | unbalancedJson | depthExceeded
deriving DecidableEq, Repr, Inhabited

namespace LexError

def message : LexError → String
  | .unexpectedCharacter => "unexpected character"
  | .unterminatedString => "unterminated string literal"
  | .unterminatedComment => "unterminated comment"
  | .invalidEscape => "invalid escape sequence"
  | .invalidNumber => "invalid number literal"
  | .unbalancedJson => "unbalanced JSON value"
  | .depthExceeded => "nesting depth limit exceeded"

/-- Whether the fault lies where the token ends, something being absent there. -/
def endsAtFailure : LexError → Bool
  | .unterminatedString | .unterminatedComment => true
  | _ => false

def isResourceLimit (e : LexError) : Bool :=
  e == .depthExceeded

end LexError

namespace Token

/-- The kinds of token. `atName` is the mark of an annotation, `@` and its name, and `jsonSpan` a
whole JSON value read as one token. -/
inductive Kind where
  | identifier
  | keyword (word : Keyword)
  | punct (mark : Punct)
  | comment
  | docComment
  | string
  | jsonSpan
  | number
  | atName
  | eof
  | error (cause : LexError)
deriving DecidableEq, Repr, Inhabited

namespace Kind

/-- How many indices the kinds take. -/
def count : Nat := 55

def index : Kind → Nat
  | .identifier => 0
  | .comment => 1
  | .docComment => 2
  | .string => 3
  | .jsonSpan => 4
  | .number => 5
  | .atName => 6
  | .eof => 7
  | .error _ => 8
  | .keyword k => 9 + k.ctorIdx
  | .punct p => 42 + p.ctorIdx

/-- One kind of each index, in order. -/
def all : List Kind :=
  [.identifier, .comment, .docComment, .string, .jsonSpan, .number, .atName, .eof,
   .error .unexpectedCharacter] ++ Keyword.all.map .keyword ++ Punct.all.map .punct

def ofIndex? (i : Nat) : Option Kind :=
  all[i]?

/-- Comments may stand between any two tokens. -/
def isExtra : Kind → Bool
  | .comment | .docComment => true
  | _ => false

def isError : Kind → Bool
  | .error _ => true
  | _ => false

def describe : Kind → String
  | .identifier => "identifier"
  | .keyword k => s!"`{k.spelling}`"
  | .punct p => s!"`{p.spelling}`"
  | .comment => "comment"
  | .docComment => "doc comment"
  | .string => "string"
  | .jsonSpan => "JSON value"
  | .number => "number"
  | .atName => "annotation"
  | .eof => "end of input"
  | .error e => e.message

end Kind

end Token

end AvroTree
