import AvroTree.Parse.Config
import AvroTree.Parse.Idl
import AvroTree.Parse.Schema
import AvroTree.Tree.Render

/-!
# Parsing a text

Parsing always gives a tree: what does not fit the grammar becomes an error in the tree and a
complaint. It fails only on settings that make no sense and on texts that are too large or too
deep. The tree of an edited text can be made with the help of the tree before.
-/

namespace AvroTree

structure Tree where
  root : Node
  mode : Mode
  /-- What is wrong with the text, in the order of the text. -/
  diagnostics : List Diagnostic
  /-- Every token of the text, comments included. -/
  tokens : List Scanned
  /-- How many tokens were taken over from the tree before. -/
  reused : Nat

namespace Tree

def sexp (t : Tree) : String :=
  t.root.sexp

def hasErrors (t : Tree) : Bool :=
  t.root.hasError || !t.diagnostics.isEmpty

def diagnosticsOf (category : Diagnostic.Category) (t : Tree) : List Diagnostic :=
  t.diagnostics.filter fun d => d.category == category

def toJson (t : Tree) : Json :=
  .object [("diagnostics", .array (t.diagnostics.map Diagnostic.toJson)),
    ("mode", .string t.mode.name), ("root", t.root.toJson)]

end Tree

namespace Parse

/-- The language that the first token of a text other than a comment settles, at most `n` comments
being read. -/
def inferMode (cap : Nat) : Nat → Lexer.State → Cursor → Mode
  | 0, state, _ => state.mode
  | n + 1, state, c =>
    match c.scan cap .lexical state with
    | (none, state, _) => state.mode
    | (some token, state, c) =>
      if token.kind.isExtra then inferMode cap n state c else state.mode

/-- The language a text is read in: the one asked for, or the one it shows. A text that shows none
is in the interface language. -/
def modeFor (config : Config) (text : String) : Mode :=
  match config.mode with
  | some .json => .json
  | some .idl => .idl
  | _ =>
    let cap := (Lexer.Config.ofDepth config.maxDepth).cap
    match inferMode cap (text.utf8ByteSize + 1) {} (.start text) with
    | .json => .json
    | _ => .idl

/-- Complaints in the order of the text; of one place they keep their order. -/
def sortByOffset (l : List Diagnostic) : List Diagnostic :=
  l.mergeSort fun d e => decide (d.offset.getD 0 ≤ e.offset.getD 0)

/-- Reads a text in a session. -/
def run (config : Config) (text : String) (previous : Option Previous) :
    Except Diagnostic Tree := do
  config.validate
  if config.maxBytes < text.utf8ByteSize then
    throw (.resourceLimit
      s!"input is {text.utf8ByteSize} bytes, larger than the {config.maxBytes} byte limit" {})
  let mode := modeFor config text
  let root := if mode = .json then Schema.file else Idl.program
  let (root, s) ← root.run (.start text config.maxDepth mode previous)
  return {
    root, mode
    diagnostics := sortByOffset (s.lexical.toList ++ s.syntactic.toList)
    tokens := s.log.toList
    reused := s.reused }

end Parse

/-- The tree of a text. -/
def parse (config : Parse.Config) (text : String) : Except Diagnostic Tree :=
  Parse.run config text none

/-- The tree of the text that an edit has made of the text of `old`. -/
def reparse (config : Parse.Config) (old : Tree) (e : Edit) (text : String) :
    Except Diagnostic Tree :=
  Parse.run config text (some ⟨old.tokens, e⟩)

end AvroTree
