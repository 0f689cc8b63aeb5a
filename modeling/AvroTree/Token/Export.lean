import AvroTree.Json.Value
import AvroTree.Token.Basic

/-!
# Token kinds in documents

The words by which documents call the kinds of token.
-/

namespace AvroTree

def Punct.key : Punct → String
  | .lBrace => "l_brace"
  | .rBrace => "r_brace"
  | .lBracket => "l_bracket"
  | .rBracket => "r_bracket"
  | .lParen => "l_paren"
  | .rParen => "r_paren"
  | .lAngle => "l_angle"
  | .rAngle => "r_angle"
  | .comma => "comma"
  | .semicolon => "semicolon"
  | .equals => "equals"
  | .question => "question"
  | .colon => "colon"

namespace LexError

def all : List LexError :=
  [.unexpectedCharacter, .unterminatedString, .unterminatedComment, .invalidEscape, .invalidNumber,
   .unbalancedJson, .depthExceeded]

def key : LexError → String
  | .unexpectedCharacter => "unexpected_character"
  | .unterminatedString => "unterminated_string"
  | .unterminatedComment => "unterminated_comment"
  | .invalidEscape => "invalid_escape"
  | .invalidNumber => "invalid_number"
  | .unbalancedJson => "unbalanced_json"
  | .depthExceeded => "depth_exceeded"

end LexError

namespace Token.Kind

def toJson : Kind → Json
  | .identifier => .string "identifier"
  | .comment => .string "comment"
  | .docComment => .string "doc_comment"
  | .string => .string "string"
  | .jsonSpan => .string "json_span"
  | .number => .string "number"
  | .atName => .string "annotation"
  | .eof => .string "eof"
  | .keyword k => .object [("keyword", .string k.spelling)]
  | .punct p => .object [("punct", .string p.key)]
  | .error e => .object [("error", .string e.key)]

end Token.Kind

end AvroTree
