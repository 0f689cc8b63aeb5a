import AvroTree.Lexer.Cursor
import AvroTree.Lexer.JsonValue

/-!
# The next token

A token is looked for together with the set of kinds that may come next. That set makes the lexer
depend on its context: a word is a keyword only where the keyword may stand, and a brace opens a
whole JSON value only where such a value may.

When nothing in the set starts here, or the token runs past the window, no token is found and
nothing is used up.
-/

namespace AvroTree

namespace Lexer

/-- A token that was found: the blank characters in front of it and its kind. -/
structure Found where
  blanks : Nat
  kind : Token.Kind
deriving DecidableEq, Repr

/-- What one attempt to find a token comes to. -/
structure Outcome where
  found : Option Found
  state : State
deriving DecidableEq, Repr

end Lexer

namespace Reading

open Lexer (Outcome State)

variable {α : Type}

/-- No token comes of what was read, and nothing is used up. -/
def reject (r : Reading α) (state : State) : Reading Outcome :=
  r.back.map fun _ => ⟨none, state⟩

/-- What was read is a token. -/
def accept (r : Reading α) (state : State) (kind : Token.Kind) : Reading Outcome :=
  r.map fun _ => ⟨some ⟨0, kind⟩, state⟩

end Reading

namespace Lexer

/-! ## Comments -/

/-- How the body of a block comment ends: at its mark, or where the text does. -/
inductive BodyEnd where
  | closed | cut | cutAtStar
deriving DecidableEq, Repr

/-- A block comment behind its opening mark. -/
def commentBody : Lexer BodyEnd
  | [] => ⟨.cut, 0, 1⟩
  | ['*'] => ⟨.cutAtStar, 1, 2⟩
  | '*' :: '/' :: _ => ⟨.closed, 2, 2⟩
  | _ :: cs => (commentBody cs).after 1

/-- A block comment of which `n` characters have been read. Cut off by the window it ends in
front of a last star, which might be half of the closing mark, and is to be continued. -/
def finishComment (valid : TokenSet) (bounded : Bool) (state : State) (kind : CommentKind)
    (n : Nat) : Lexer Outcome := fun s =>
  let r := (commentBody (s.drop n)).after n
  let done := { state with comment := none }
  match r.value, bounded with
  | .closed, _ => r.accept done kind.token
  | _, false =>
    if valid.contains (.error .unterminatedComment) then
      r.accept done (.error .unterminatedComment)
    else r.reject done
  | rest, true =>
    let used := if rest = .cutAtStar then r.used - 1 else r.used
    if used = 0 then r.reject state
    else { r with used }.accept { state with comment := some kind } kind.token

/-- A comment whose first two characters have been seen. A block comment with a second star is a
doc comment, except in JSON and in the empty comment. -/
def comment (valid : TokenSet) (bounded : Bool) (state : State) : Lexer Outcome := fun s =>
  if s[1]? = some '/' then
    let r := (skipWhile (fun c => !Text.endsLine c) (s.drop 2)).after 2
    if !valid.contains .comment then ⟨⟨none, state⟩, 0, 2⟩
    else if bounded && r.overran s then r.reject state
    else r.accept state .comment
  else
    let star := state.mode ≠ .json ∧ s[2]? = some '*'
    let doc := star ∧ s[3]? ≠ some '/'
    let r : Reading Unit := ⟨(), 0, if state.mode = .json then 2 else if star then 4 else 3⟩
    let kind : CommentKind := if doc ∧ valid.contains .docComment then .doc else .block
    if (bounded && r.overran s) || !valid.contains kind.token then r.reject state
    else (finishComment valid bounded state kind 2 s).seeing r.seen

/-! ## Other tokens -/

/-- The token the character `c` starts, a JSON value apart. -/
def plain (valid : TokenSet) (mode : Mode) (c : Char) : Attempt Token.Kind := fun s =>
  match Punct.ofChar? c with
  | some p => ⟨.ok (.punct p), 1, 1⟩
  | none =>
    if c = '"' then string c s
    else if c = '\'' ∧ mode ≠ .json then string c s
    else if c = '\x60' then quotedName s
    else if c = '@' then atName s
    else if c.isDigit then number s
    else
      let sign := if isSign c || c == '.' then startsNumber s else ⟨false, 0, 0⟩
      if sign.value then (number s).seeing sign.seen
      else if Text.isNameStart c then (word valid s).map .ok
      else ⟨.error .unexpectedCharacter, 1, max 1 sign.seen⟩

/-- The token the character `c` starts. -/
def lexeme (cap : Nat) (valid : TokenSet) (state : State) (c : Char) :
    Attempt Token.Kind := fun s =>
  if valid.contains .jsonSpan && startsJsonValue c then
    let r := jsonValue (cap - state.depth) s
    match r.value with
    | some result => r.map fun _ => result
    | none => (plain valid state.mode c s).seeing r.seen
  else plain valid state.mode c s

/-- The language that a token of this kind, starting with `c`, settles outside all brackets. -/
def impliedMode (state : State) (kind : Token.Kind) (c : Char) : Mode :=
  if state.mode = .unknown ∧ state.stack = [] then
    match kind with
    | .punct .lBrace | .punct .lBracket => .json
    | .string => if c = '"' then .json else .unknown
    | .keyword _ | .identifier | .atName => .idl
    | _ => .unknown
  else state.mode

/-- Opens and closes brackets; one too many is an error. -/
def track (cap : Nat) (state : State) : Token.Kind → Token.Kind × State
  | .punct p =>
    match Bracket.openedBy? p, Bracket.closedBy? p with
    | some b, _ =>
      if cap ≤ state.depth then (.error .depthExceeded, state)
      else (.punct p, { state with stack := b :: state.stack })
    | none, some b => (.punct p, state.close b)
    | none, none => (.punct p, state)
  | kind => (kind, state)

def kindOf : Except LexError Token.Kind → Token.Kind
  | .ok kind => kind
  | .error e => .error e

/-- The token at the front of a text that starts with no blank. -/
def tokenHere (cap : Nat) (valid : TokenSet) (bounded : Bool) (state : State) : Lexer Outcome
  | [] =>
    if !bounded && valid.contains .eof then ⟨⟨some ⟨0, .eof⟩, state⟩, 0, 1⟩
    else ⟨⟨none, state⟩, 0, 1⟩
  | c :: cs =>
    let slash := c == '/'
    if slash && (cs.head? = some '/' || cs.head? = some '*') then
      comment valid bounded state (c :: cs)
    else
      let r := (lexeme cap valid state c (c :: cs)).seeing (if slash then 2 else 1)
      let kind := kindOf r.value
      let mode := impliedMode state kind c
      let (tracked, state') := track cap state kind
      if (bounded && r.overran (c :: cs)) || !valid.contains kind || !valid.contains tracked then
        r.reject state
      else r.accept { state' with mode } tracked

/-- The next token of a text and the state behind it. -/
def token (cap : Nat) (valid : TokenSet) (bounded : Bool) (state : State) :
    Lexer Outcome := fun s =>
  match state.comment with
  | some kind =>
    if valid.contains kind.token then finishComment valid bounded state kind 0 s
    else ⟨⟨none, state⟩, 0, 0⟩
  | none =>
    let blanks := (skipWhile Text.isSpace s).value
    let r := tokenHere cap valid bounded state (s.drop blanks)
    match r.value.found with
    | none => (r.after blanks).back
    | some t => (r.after blanks).map fun out => { out with found := some ⟨blanks, t.kind⟩ }

end Lexer

/-- Scans the next token of a kind in `valid`. -/
def Cursor.scan (cap : Nat) (valid : TokenSet) (state : Lexer.State) (c : Cursor) :
    Option Token × Lexer.State × Cursor :=
  let begun := c.beginScan
  let (out, c') := begun.run (Lexer.token cap valid c.isBounded state)
  let token := out.found.map fun t => ⟨t.kind, (begun.skip t.blanks).place, c'.place⟩
  (token, out.state, c')

end AvroTree
