import AvroTree.Lexer.Config
import AvroTree.Lexer.Scan
import AvroTree.Text.Edit

/-!
# Token streams

A plain pass reads a whole text into tokens, the end of the text being the last. Each token keeps
the state of the lexer before and after it, so that a pass can be taken up again behind any token.

A pass can also go through windows of a fixed size. A token that does not fit its window is read
again in a larger one, and the fragments of a block comment are joined.
-/

namespace AvroTree

/-- A token and what the lexer knew about it. -/
structure Scanned where
  token : Token
  /-- The set it was looked for with. -/
  valid : TokenSet
  /-- The lexer's state in front of it, in bytes. -/
  before : List UInt8
  /-- The lexer's state behind it, in bytes. -/
  after : List UInt8
  /-- One past the furthest byte examined to find it. -/
  lookahead : Nat
deriving DecidableEq, Repr

namespace Scanned

/-- The token carried across an edit in front of it. -/
def shift (e : Edit) (t : Scanned) : Scanned :=
  { t with
    token := { t.token with span := e.shiftSpan t.token.span }
    lookahead := e.shiftByte t.lookahead }

/-- A comment with its next fragment. -/
def join (t u : Scanned) : Scanned :=
  { t with
    token := ⟨if u.token.kind.isError then u.token.kind else t.token.kind,
      t.token.span.start, u.token.span.stop⟩
    after := u.after
    lookahead := max t.lookahead u.lookahead }

end Scanned

namespace Lexer

/-- One token with its surroundings, and where the lexer stands behind it. -/
def step (cap : Nat) (valid : TokenSet) (state : State) (c : Cursor) :
    Option Scanned × State × Cursor :=
  let (token, state', c') := c.scan cap valid state
  (token.map fun token => ⟨token, valid, state.encode, state'.encode, c'.lookahead⟩, state', c')

/-- The tokens from a cursor on, at most `n`. -/
def scanMany (cap : Nat) : Nat → State → Cursor → List Scanned
  | 0, _, _ => []
  | n + 1, state, c =>
    match step cap .lexical state c with
    | (none, _, _) => []
    | (some t, state', c') =>
      if t.token.kind = .eof then [t] else t :: scanMany cap n state' c'

/-- Enough tokens for any text: one for each byte, one for a comment that has only its end
missing, and the end itself. -/
def tokenBound (c : Cursor) : Nat :=
  c.size - c.place.byte + 2

/-- The tokens from a cursor on, up to the end of the text. -/
def scanRest (cap : Nat) (state : State) (c : Cursor) : List Scanned :=
  scanMany cap (tokenBound c) state c

/-- The tokens of a text in a language, which may be left to be found out. -/
def tokenize (config : Config) (mode : Mode) (text : String) : List Scanned :=
  scanRest config.cap { mode } (.start text)

/-- The tokens from a cursor on, the lexer taking up its work in a saved state. -/
def tokenizeFrom (config : Config) (saved : List UInt8) (c : Cursor) :
    Except StateError (List Scanned) := do
  return scanRest config.cap (← State.load config.cap saved) c

/-! ## Windows -/

/-- One token through a window of `extent` bytes, doubled while it is too small. -/
def stepInWindow (cap : Nat) (state : State) (c : Cursor) :
    Nat → Nat → Option Scanned × State × Cursor
  | 0, _ => step cap .lexical state (c.setLimit c.size)
  | n + 1, extent =>
    match step cap .lexical state (c.setLimit (c.place.byte + extent)) with
    | (none, state', c') =>
      if c'.hitLimit then stepInWindow cap state' c' n (extent * 2) else (none, state', c')
    | found => found

/-- The tokens read through windows, each marked when it continues the one before it. -/
def fragments (cap chunk : Nat) : Nat → State → Cursor → List (Bool × Scanned)
  | 0, _, _ => []
  | n + 1, state, c =>
    match stepInWindow cap state c (c.size - c.place.byte + 1) chunk with
    | (none, _, _) => []
    | (some t, state', c') =>
      let fragment := (state.comment.isSome, t)
      if t.token.kind = .eof then [fragment] else fragment :: fragments cap chunk n state' c'

/-- Joins the fragments that continue `t` to it, and so on along the list. -/
def joinFrom (t : Scanned) : List (Bool × Scanned) → List Scanned
  | [] => [t]
  | (true, u) :: rest => joinFrom (t.join u) rest
  | (false, u) :: rest => t :: joinFrom u rest

def joinFragments : List (Bool × Scanned) → List Scanned
  | [] => []
  | (_, t) :: rest => joinFrom t rest

/-- The tokens of a text read through windows of about `chunk` bytes. -/
def tokenizeChunked (config : Config) (chunk : Nat) (text : String) : List Scanned :=
  let c := Cursor.start text
  joinFragments (fragments config.cap (max chunk 1) (tokenBound c) {} c)

end Lexer

end AvroTree
