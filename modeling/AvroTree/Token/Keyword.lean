/-!
# Keywords and punctuation

The reserved words of the interface language and the marks both languages are built from. A word
is a keyword only where one is wanted, so `int record;` declares a field called `record`.
-/

namespace AvroTree

inductive Keyword where
  | protocol | nameSpace | schema | importFile | record | error | enum | fixed | throws | oneway
  | void | array | map | union | true | false | null | int | long | string | boolean | float
  | double | bytes | decimal | date | timeMs | timeMicros | timestampMs | timestampMicros
  | localTimestampMs | localTimestampMicros | uuid
deriving DecidableEq, Repr, Inhabited

namespace Keyword

/-- Every keyword, in order of its position among the token kinds. -/
def all : List Keyword :=
  [.protocol, .nameSpace, .schema, .importFile, .record, .error, .enum, .fixed, .throws, .oneway,
   .void, .array, .map, .union, .true, .false, .null, .int, .long, .string, .boolean, .float,
   .double, .bytes, .decimal, .date, .timeMs, .timeMicros, .timestampMs, .timestampMicros,
   .localTimestampMs, .localTimestampMicros, .uuid]

def spelling : Keyword → String
  | .protocol => "protocol"
  | .nameSpace => "namespace"
  | .schema => "schema"
  | .importFile => "import"
  | .record => "record"
  | .error => "error"
  | .enum => "enum"
  | .fixed => "fixed"
  | .throws => "throws"
  | .oneway => "oneway"
  | .void => "void"
  | .array => "array"
  | .map => "map"
  | .union => "union"
  | .true => "true"
  | .false => "false"
  | .null => "null"
  | .int => "int"
  | .long => "long"
  | .string => "string"
  | .boolean => "boolean"
  | .float => "float"
  | .double => "double"
  | .bytes => "bytes"
  | .decimal => "decimal"
  | .date => "date"
  | .timeMs => "time_ms"
  | .timeMicros => "time_micros"
  | .timestampMs => "timestamp_ms"
  | .timestampMicros => "timestamp_micros"
  | .localTimestampMs => "local_timestamp_ms"
  | .localTimestampMicros => "local_timestamp_micros"
  | .uuid => "uuid"

def ofSpelling? (word : String) : Option Keyword :=
  all.find? fun k => k.spelling == word

/-- The primitive types, which both languages write with the same words. -/
def primitives : List Keyword :=
  [.null, .boolean, .int, .long, .float, .double, .bytes, .string]

/-- The logical types that are written as one word. -/
def logicals : List Keyword :=
  [.date, .timeMs, .timeMicros, .timestampMs, .timestampMicros, .localTimestampMs,
   .localTimestampMicros, .uuid]

def isPrimitive (k : Keyword) : Bool :=
  primitives.contains k

def isLogical (k : Keyword) : Bool :=
  logicals.contains k

end Keyword

inductive Punct where
  | lBrace | rBrace | lBracket | rBracket | lParen | rParen | lAngle | rAngle | comma | semicolon
  | equals | question | colon
deriving DecidableEq, Repr, Inhabited

namespace Punct

/-- Every mark, in order of its position among the token kinds. -/
def all : List Punct :=
  [.lBrace, .rBrace, .lBracket, .rBracket, .lParen, .rParen, .lAngle, .rAngle, .comma, .semicolon,
   .equals, .question, .colon]

def char : Punct → Char
  | .lBrace => '\x7b'
  | .rBrace => '\x7d'
  | .lBracket => '['
  | .rBracket => ']'
  | .lParen => '('
  | .rParen => ')'
  | .lAngle => '<'
  | .rAngle => '>'
  | .comma => ','
  | .semicolon => ';'
  | .equals => '='
  | .question => '?'
  | .colon => ':'

def spelling (p : Punct) : String :=
  p.char.toString

def ofChar? (c : Char) : Option Punct :=
  all.find? fun p => p.char == c

end Punct

end AvroTree
