import AvroTree.Diagnostic
import AvroTree.Lexer.Stream
import AvroTree.Tree.Node

/-!
# Supplying a parse with tokens

A parse asks for the next token together with the kinds it can use there, and may ask again with
other kinds before it takes the token. Comments are taken at once and kept until there is a place
for them in the tree.

A parse of an edited text is also given the tokens of the text before. An old token is taken over
when the lexer would find the same one: it starts at the same place in the same state, it was
looked for with the same kinds, and the edit touched nothing that was examined for it.
-/

namespace AvroTree

namespace Parse

/-- The next token, found but not taken. -/
structure Lookahead where
  /-- The kinds it was asked for with. -/
  valid : TokenSet
  scanned : Scanned
  /-- The state of the lexer behind it. -/
  state : Lexer.State
  /-- The cursor behind it. -/
  cursor : Cursor
  reused : Bool

/-- The tokens of the text before an edit. -/
structure Previous where
  tokens : List Scanned
  edit : Edit

namespace Previous

/-- The old token that scanning from byte `origin` of the old text gave. -/
def tokenAt? (p : Previous) (origin : Nat) : Option Scanned :=
  if origin = 0 then p.tokens.head?
  else
    match p.tokens.dropWhile fun t => t.token.span.stop.byte < origin with
    | t :: next :: _ => if t.token.span.stop.byte = origin then some next else none
    | _ => none

/-- Forgets old tokens that end in front of what has been taken. -/
def passed (p : Previous) (byte : Nat) : Previous :=
  match p.edit.oldOffset? byte with
  | some origin =>
    if origin = 0 then p
    else { p with tokens := p.tokens.dropWhile fun t => t.token.span.stop.byte < origin }
  | none => p

end Previous

structure Session where
  source : List Char
  /-- How deep brackets and types may nest. -/
  maxDepth : Nat
  state : Lexer.State
  cursor : Cursor
  lookahead : Option Lookahead := none
  /-- Comments that have no place in the tree yet. -/
  extras : Array Node := #[]
  /-- The tokens taken so far. -/
  log : Array Scanned := #[]
  lexical : Array Diagnostic := #[]
  syntactic : Array Diagnostic := #[]
  previous : Option Previous := none
  reused : Nat := 0
  /-- The end of what has its place in the tree. -/
  frontier : Location := {}

namespace Session

def start (text : String) (maxDepth : Nat) (mode : Mode) (previous : Option Previous) :
    Session where
  source := text.toList
  maxDepth
  state := { mode }
  cursor := .start text
  previous

/-- The bytes that have not been taken. -/
def remaining (s : Session) : Nat :=
  s.cursor.size - s.cursor.place.byte

def cap (s : Session) : Nat :=
  (Lexer.Config.ofDepth s.maxDepth).cap

/-- The old token that can stand for the next one. -/
def reuse? (s : Session) (valid : TokenSet) : Option Lookahead := do
  let p ← s.previous
  let origin ← p.edit.oldOffset? s.cursor.place.byte
  let old ← p.tokenAt? origin
  let ahead := origin ≤ p.edit.start.byte
  if ahead ∧ p.edit.start.byte < old.lookahead then none
  else if old.valid ≠ valid ∨ old.before ≠ s.state.encode then none
  else
    let state ← (Lexer.State.load s.cap old.after).toOption
    let scanned := if ahead then old else old.shift p.edit
    return {
      valid, scanned, state, reused := true
      cursor := s.cursor.moveTo scanned.token.span.stop }

/-- One character as an error, or the end: for a text in which no token can be found. -/
def unscannable (c : Cursor) : Token × Cursor :=
  let begun := c.beginScan
  let (char, c') := begun.run Lexer.next
  (⟨if char.isSome then .error .unexpectedCharacter else .eof, begun.place, c'.place⟩, c')

/-- Finds the next token. When none of the wanted kinds starts here it is found as a plain pass
would find it. -/
def search (s : Session) (valid : TokenSet) : Lookahead :=
  let finish (token : Token) (used : TokenSet) (state : Lexer.State) (cursor : Cursor) :
      Lookahead :=
    { valid, state, cursor, reused := false
      scanned := ⟨token, used, s.state.encode, state.encode, cursor.lookahead⟩ }
  match s.cursor.scan s.cap valid s.state with
  | (some token, state, cursor) => finish token valid state cursor
  | (none, state, cursor) =>
    match cursor.scan s.cap .lexical state with
    | (some token, state, cursor) => finish token .lexical state cursor
    | (none, state, cursor) =>
      let (token, cursor) := unscannable cursor
      finish token .lexical state cursor

def scan (s : Session) (valid : TokenSet) : Lookahead :=
  (s.reuse? valid).getD (s.search valid)

/-- The complaint about a token that is an error. -/
def lexicalComplaint? (t : Token) : Option Diagnostic :=
  match t.kind with
  | .error e => some (.lexical e.message (if e.endsAtFailure then t.span.stop else t.span.start))
  | _ => none

/-- Takes a token. -/
def commit (s : Session) (la : Lookahead) : Session :=
  let token := la.scanned.token
  { s with
    state := la.state
    cursor := la.cursor
    lookahead := none
    reused := if la.reused then s.reused + 1 else s.reused
    lexical := match lexicalComplaint? token with
      | some d => s.lexical.push d
      | none => s.lexical
    frontier := if token.kind.isExtra then s.frontier else token.span.stop
    log := s.log.push la.scanned
    previous := s.previous.map (·.passed la.cursor.place.byte) }

/-- Finds the next token that is no comment, taking at most `n` comments in front of it. -/
def fetch (valid : TokenSet) : Nat → Session → Token × Session
  | n, s =>
    let la := s.scan valid
    let token := la.scanned.token
    match token.kind.isExtra, n with
    | true, n + 1 =>
      let taken := s.commit la
      fetch valid n { taken with extras := taken.extras.push (.leaf (.ofToken token.kind) token) }
    | _, _ => (token, { s with lookahead := some la })

/-- The next token that is no comment. The wanted kinds are looked for, and those that are welcome
everywhere. -/
def peek (s : Session) (valid : TokenSet) : Token × Session :=
  let wanted := valid ∪ .ambient
  match s.lookahead with
  | some la =>
    if la.valid = wanted then (la.scanned.token, s) else fetch wanted s.remaining s
  | none => fetch wanted s.remaining s

/-- The text of the token that was last peeked at. -/
def textAhead (s : Session) : List Char :=
  match s.lookahead with
  | some la =>
    let span := la.scanned.token.span
    let byte := s.cursor.place.byte
    (Text.slice? s.cursor.rest (span.start.byte - byte) (span.stop.byte - byte)).getD []
  | none => []

/-- Takes the token that was last peeked at. -/
def bump (s : Session) : Token × Session :=
  match s.lookahead with
  | some la => (la.scanned.token, s.commit la)
  | none =>
    let (token, s) := s.peek .lexical
    match s.lookahead with
    | some la => (token, s.commit la)
    | none => (token, s)

/-- Hands over the comments that have no place yet. -/
def takeExtras (s : Session) : List Node × Session :=
  let frontier := match s.extras.back? with
    | some last => last.span.stop
    | none => s.frontier
  (s.extras.toList, { s with extras := #[], frontier })

end Session

end Parse

end AvroTree
