import AvroTree.Diagnostic
import AvroTree.Lexer.Stream
import AvroTree.Text.Layout
import AvroTree.Text.Quoted
import AvroTree.Token.Export

/-!
# Lists of tokens
-/

namespace AvroTree

namespace Cli

def pointMembers (p : Point) : Json :=
  .object [("row", .ofNat p.row), ("column", .ofNat p.column)]

def tokenMembers (t : Scanned) : Json :=
  let span := t.token.span
  .object [
    ("token", .object [
      ("kind", t.token.kind.toJson),
      ("start_byte", .ofNat span.start.byte),
      ("end_byte", .ofNat span.stop.byte),
      ("start", pointMembers span.start.point),
      ("end", pointMembers span.stop.point)]),
    ("lookahead_end", .ofNat t.lookahead)]

/-- A token on a line of its own: where it starts, its kind and its text. -/
def tokenLine (t : Token) (text : List Char) : String :=
  let start := t.span.start.point
  Text.alignRight 4 (toString (start.row + 1)) ++ ":"
    ++ Text.alignLeft 3 (toString (start.column + 1)) ++ " "
    ++ Text.alignLeft 18 t.kind.describe ++ " "
    ++ Text.quoted (String.ofList text) ++ "\n"

/-- The lines of tokens that follow each other, `rest` being the source from byte `byte` on. -/
def tokenLinesFrom : (byte : Nat) → (rest : List Char) → List Token → List String
  | _, _, [] => []
  | byte, rest, t :: ts =>
    let here := (Text.dropBytes? rest (t.span.start.byte - byte)).getD []
    tokenLine t (Text.takeBytes here t.span.length) :: tokenLinesFrom t.span.start.byte here ts

/-- The lines of the tokens of a source. -/
def tokenLines (source : String) (tokens : List Token) : List String :=
  tokenLinesFrom 0 source.toList tokens

/-- The complaint that a token stands for. -/
def tokenDiagnostic? (t : Token) : Option Diagnostic :=
  match t.kind with
  | .error e =>
    some (.lexical e.message (if e.endsAtFailure then t.span.stop else t.span.start))
  | _ => none

end Cli

end AvroTree
