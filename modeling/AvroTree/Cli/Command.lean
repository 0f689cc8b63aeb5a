import AvroTree.Cli.Arguments
import AvroTree.Json.Settings
import AvroTree.Lexer.State

/-!
# Commands
-/

namespace AvroTree

namespace Cli

/-- What a user asks of a parse. -/
structure ParseOptions where
  mode : Option Mode := none
  /-- A file with settings. -/
  config : Option String := none
  maxDepth : Option Nat := none
deriving DecidableEq, Repr, Inhabited

inductive Command where
  /-- Prints the tree of a file. -/
  | parse (file : String) (json : Bool) (options : ParseOptions)
  /-- Prints the tokens of a file. -/
  | tokens (file : String) (json : Bool) (mode : Option Mode)
  /-- Tells which files have problems. -/
  | check (files : List String) (options : ParseOptions)
  /-- Prints the grammar. -/
  | grammar
deriving DecidableEq, Repr

namespace Command

def flags : List Flag :=
  [⟨"verbose", some 'v', false⟩, ⟨"json", none, false⟩, ⟨"mode", none, true⟩,
   ⟨"config", none, true⟩, ⟨"max-depth", none, true⟩]

def readMode? (a : Arguments) : Option (Option Mode) :=
  a.value? "mode" fun s => (Mode.parse s).toOption

def readParseOptions? (a : Arguments) : Option ParseOptions := do
  return {
    mode := ← readMode? a
    config := ← a.value? "config" some
    maxDepth := ← a.value? "max-depth" (readNumber? settingBound) }

/-- Reads a command line. -/
def read? (arguments : List String) : Option Command := do
  let a ← Arguments.read? flags arguments
  match a.operands with
  | ["parse", file] => return .parse file (a.has "json") (← readParseOptions? a)
  | ["tokens", file] => return .tokens file (a.has "json") (← readMode? a)
  | "check" :: file :: files => return .check (file :: files) (← readParseOptions? a)
  | ["grammar"] => return .grammar
  | _ => none

end Command

end Cli

end AvroTree
