import AvroTree.Text.Point
import AvroTree.Token.Set

/-!
# Tokens
-/

namespace AvroTree

structure Token where
  kind : Token.Kind
  span : Span
deriving DecidableEq, Repr, Inhabited

namespace Token

def text (t : Token) (source : String) : String :=
  t.span.text source

end Token

end AvroTree
