import AvroTree.Parse.Session

/-!
# Reading constructs

A parser takes tokens from a session and gives the nodes it makes of them, the comments in front
of each included. It fails only when the text is nested deeper than allowed.

Every parser is told at which tokens the constructs around it can go on, `sync`: those it leaves
alone when its own tokens are missing.
-/

namespace AvroTree

namespace Parse

abbrev Parser (α : Type) := StateT Session (Except Diagnostic) α

namespace Parser

def tooDeep {α : Type} (place : Location) : Parser α := do
  throw (.resourceLimit s!"nesting is deeper than {(← get).maxDepth} levels" place)

/-- The next token when these kinds are wanted. -/
def peek (valid : TokenSet) : Parser Token := do
  let (token, s) := (← get).peek valid
  set s
  if token.kind = .error .depthExceeded then tooDeep token.span.start
  return token

/-- Whether the next token is of a kind. -/
def nextIs (kind : Token.Kind) : Parser Bool := do
  return (← peek (.single kind)).kind = kind

/-- Where a node of no width is put. -/
def here : Parser Location := do
  return (← get).frontier

/-- The comments that stand in front of the next token. -/
def flush : Parser (List Node) :=
  modifyGet Session.takeExtras

/-- Takes the next token as a leaf. Comments in front of it have been taken before. -/
def leaf (kind : NodeKind) : Parser Node := do
  let token ← modifyGet Session.bump
  return .leaf kind token

/-- Takes the next token as a leaf, behind the comments in front of it. -/
def bump (kind : NodeKind) (field : Option String := none) : Parser (List Node) := do
  let extras ← flush
  return extras ++ [(← leaf kind).label field]

def complain (d : Diagnostic) : Parser Unit :=
  modify fun s => { s with syntactic := s.syntactic.push d }

/-- A node for something absent. -/
def missing (kind : NodeKind) (what : String) : Parser Node := do
  let place ← here
  complain (.syntactic s!"missing {what}" place)
  return .missing kind place

/-- A node over its children. -/
def branch (kind : NodeKind) (children : List Node) : Parser Node := do
  return .branch kind children (← here)

/-- Repeats a step that says whether to go on, at most `n` times. -/
def iterate {α : Type} (step : α → Parser (Bool × α)) : Nat → α → Parser α
  | 0, a => pure a
  | n + 1, a => do
    match ← step a with
    | (true, a) => iterate step n a
    | (false, a) => pure a

/-- Repeats a step that says whether to go on. A step that does takes a token, so there are at most
as many as bytes remain, and one more. -/
def loop {α : Type} (step : α → Parser (Bool × α)) (a : α) : Parser α := do
  iterate step ((← get).remaining + 1) a

/-- Repeats a step that adds to some nodes and says whether to go on. -/
def gather (step : Array Node → Parser (Bool × Array Node)) (first : List Node := []) :
    Parser (List Node) := do
  return (← loop step first.toArray).toList

/-! ## Recovery -/

/-- How far a stretch of unwanted tokens has been read. -/
structure Skipped where
  nodes : Array Node := #[]
  first : Option Token := none
  count : Nat := 0
  /-- The brackets opened in it. -/
  nest : Nat := 0

/-- How a token changes the number of open brackets. Angles do not count. -/
def nestAfter (nest : Nat) : Token.Kind → Nat
  | .punct .lBrace | .punct .lBracket | .punct .lParen => nest + 1
  | .punct .rBrace | .punct .rBracket | .punct .rParen => nest - 1
  | _ => nest

/-- Takes one unwanted token more, unless the text ends or a wanted one has come. -/
def skipStep (stop : TokenSet) (a : Skipped) : Parser (Bool × Skipped) := do
  let t ← peek stop
  if t.kind = .eof ∨ (0 < a.count ∧ a.nest = 0 ∧ stop.contains t.kind) then
    return (false, a)
  let nodes ← bump (.ofToken t.kind)
  return (true, {
    nodes := a.nodes ++ nodes
    first := a.first.or (some t)
    count := a.count + 1
    nest := nestAfter a.nest t.kind })

/-- Wraps tokens into an error until one of `stop` comes outside the brackets opened on the way.
At least one token is taken unless the text has ended. An error token alone needs no wrapping. -/
def skip (stop : TokenSet) : Parser (List Node) := do
  let extras ← flush
  let a ← loop (skipStep stop) {}
  match a.first with
  | none => return extras
  | some t =>
    if a.count = 1 ∧ a.nodes.size = 1 ∧ t.kind.isError then
      return extras ++ a.nodes.toList
    if !t.kind.isError then
      complain (.syntactic s!"unexpected {t.kind.describe}" t.span.start)
    return extras ++ [← branch .error a.nodes.toList]

/-- The tokens at which something around can go on while one of `first` is wanted. A wanted name
must not be taken for a keyword. -/
def recoverSet (sync first : TokenSet) : TokenSet :=
  if first.contains .identifier && (first ∩ TokenSet.keywords).isEmpty then
    sync \ TokenSet.keywords
  else sync

/-- Skips to a token of `first`, unless one that something around waits for comes before it. -/
def recoverTo (sync first : TokenSet) : Parser (Bool × List Node) := do
  let recover := recoverSet sync first
  let t ← peek (first ∪ recover)
  if first.contains t.kind then return (true, [])
  if t.kind = .eof ∨ recover.contains t.kind then return (false, [])
  let skipped ← skip (first ∪ recover)
  let t ← peek (first ∪ recover)
  return (first.contains t.kind, skipped)

/-- Takes a token of a kind as a leaf of another, or puts in that it is missing. -/
def expectAs? (sync : TokenSet) (want : Token.Kind) (kind : NodeKind) (field : Option String) :
    Parser (Bool × List Node) := do
  let (found, skipped) ← recoverTo sync (.single want)
  if found then
    let extras ← flush
    return (true, skipped ++ extras ++ [(← leaf kind).label field])
  else
    return (false, skipped ++ [(← missing kind want.describe).label field])

/-- Takes a token of a kind, or puts in that it is missing. -/
def expect? (sync : TokenSet) (want : Token.Kind) (field : Option String := none) :
    Parser (Bool × List Node) :=
  expectAs? sync want (.ofToken want) field

def expect (sync : TokenSet) (want : Token.Kind) (field : Option String := none) :
    Parser (List Node) := do
  return (← expect? sync want field).2

/-! ## Lists -/

/-- How far a list has been read. -/
structure Items where
  nodes : Array Node := #[]
  /-- Where the last comma stands among the nodes. -/
  lastComma : Option Nat := none
  /-- Whether an element, not a comma, comes next. -/
  wantsItem : Bool := true
  count : Nat := 0

/-- Makes the last comma an error. -/
def Items.rejectComma (a : Items) : Parser (Array Node) := do
  match a.lastComma.bind fun i => a.nodes[i]?.map (i, ·) with
  | none => return a.nodes
  | some (i, comma) =>
    complain (.syntactic "trailing comma" comma.span.start)
    return a.nodes.setIfInBounds i (.branch .error [comma] comma.span.start)

/-- How the lists of the grammar differ. -/
structure ListForm where
  close : Punct
  /-- The tokens an element starts with. -/
  first : TokenSet
  /-- Whether a comma may stand behind the last element. -/
  trailing : Bool

namespace ListForm

/-- The tokens at which a list can go on. -/
def continues (f : ListForm) : TokenSet :=
  (f.first.insert (.punct f.close)).insert (.punct .comma)

end ListForm

/-- Reads one element, comma or closing mark of a list. -/
def listStep (sync : TokenSet) (form : ListForm) (element : Parser (List Node)) (a : Items) :
    Parser (Bool × Items) := do
  let stop := form.continues ∪ sync
  let t ← peek stop
  if t.kind = .punct form.close then
    let nodes ←
      if a.wantsItem && 0 < a.count && !form.trailing then a.rejectComma else pure a.nodes
    return (false, { a with nodes := nodes ++ (← bump (.token (.punct form.close))) })
  else if form.first.contains t.kind then
    let comma ← if a.wantsItem then pure [] else do
      pure [← missing (.token (.punct .comma)) "`,`"]
    let extras ← flush
    let before := (← get).cursor.place.byte
    let item ← element
    let skipped ← if (← get).cursor.place.byte = before then skip stop else pure []
    return (true, { a with
      nodes := a.nodes ++ comma ++ extras ++ item ++ skipped
      wantsItem := false
      count := a.count + 1 })
  else if t.kind = .punct .comma ∧ !a.wantsItem then
    let nodes := a.nodes ++ (← bump (.token (.punct .comma)))
    return (true, { a with nodes, lastComma := some (nodes.size - 1), wantsItem := true })
  else if t.kind = .eof ∨ sync.contains t.kind then
    let close ← missing (.token (.punct form.close)) (Token.Kind.punct form.close).describe
    return (false, { a with nodes := a.nodes.push close })
  else
    return (true, { a with nodes := a.nodes ++ (← skip stop) })

/-- Reads elements with commas between them up to the closing mark, which is taken too. -/
def list (sync : TokenSet) (form : ListForm) (element : TokenSet → Parser (List Node)) :
    Parser (List Node) := do
  return (← loop (listStep sync form (element (sync ∪ form.continues))) {}).nodes.toList

end Parser

end Parse

end AvroTree
