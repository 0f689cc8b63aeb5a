import AvroTree.Diagnostic
import AvroTree.Json.Settings
import AvroTree.Lexer.State

/-!
# Settings of a parse

How deep and how large a text may be, and its language if that is not to be found out. Settings
come from a JSON document and from the environment.
-/

namespace AvroTree

namespace Parse

structure Config where
  /-- How deep brackets and types may nest. -/
  maxDepth : Nat := 64
  /-- The largest text that is read, in bytes. -/
  maxBytes : Nat := 16 * 1024 * 1024
  mode : Option Mode := none
deriving DecidableEq, Repr, Inhabited

namespace Config

def validate (c : Config) : Except Diagnostic Unit :=
  if c.maxDepth = 0 ∨ depthCeiling < c.maxDepth then
    .error (.general
      s!"max_nesting_depth must be between 1 and {depthCeiling}, got {c.maxDepth}")
  else if c.maxBytes = 0 then .error (.general "max_input_bytes must be positive")
  else .ok ()

/-- A language by its name, alone or as the name of an empty member. -/
def readMode? : Json → Option Mode
  | .string s => [Mode.unknown, .json, .idl].find? fun m => m.name == s
  | .object [(s, .null)] => [Mode.unknown, .json, .idl].find? fun m => m.name == s
  | _ => none

def readOptionalMode? : Json → Option (Option Mode)
  | .null => some none
  | j => (readMode? j).map some

/-- Reads the settings of a document without judging them. -/
def ofJson? (j : Json) : Option Config :=
  match Json.settings? ["max_nesting_depth", "max_input_bytes", "mode"] j with
  | some [depth, bytes, mode] => do
    let defaults : Config := {}
    let maxDepth ← Json.setting? defaults.maxDepth (Json.natural? settingBound) depth
    let maxBytes ← Json.setting? defaults.maxBytes (Json.natural? settingBound) bytes
    let mode ← Json.setting? defaults.mode readOptionalMode? mode
    return { maxDepth, maxBytes, mode }
  | _ => none

/-- Reads settings from a JSON text. -/
def parse (text : String) : Except Diagnostic Config :=
  match (Json.parse? text).bind ofJson? with
  | some c => do
    c.validate
    return c
  | none => .error (.general "invalid parse config")

/-- A number in decimal, a plus sign allowed in front and blanks around it. -/
def readNumber? (value : String) : Option Nat :=
  let digits := match Text.trim value.toList with
    | '+' :: rest => rest
    | cs => cs
  if digits.isEmpty then none
  else Json.natural? settingBound (.number (String.ofList digits))

/-- A numeric variable, by its name. -/
def readNumberVariable (env : List (String × String)) (name : String) :
    Except Diagnostic (Option Nat) :=
  match env.lookup name with
  | none => .ok none
  | some value =>
    match readNumber? value with
    | some n => .ok (some n)
    | none => .error (.general s!"{name}: expected a number, got `{value}`")

/-- The language variable. Asking for a language to be found out undoes an earlier choice. -/
def readModeVariable (env : List (String × String)) : Except Diagnostic (Option (Option Mode)) :=
  match env.lookup "AVRO_MODE" with
  | none => .ok none
  | some value =>
    match Mode.parse value with
    | .ok .unknown => .ok (some none)
    | .ok mode => .ok (some (some mode))
    | .error message => .error (.general s!"AVRO_MODE: {message}")

/-- Settings as changed by environment variables. -/
def withEnvironment (c : Config) (env : List (String × String)) : Except Diagnostic Config := do
  let maxDepth := (← readNumberVariable env "AVRO_MAX_DEPTH").getD c.maxDepth
  let maxBytes := (← readNumberVariable env "AVRO_MAX_INPUT_BYTES").getD c.maxBytes
  let mode := (← readModeVariable env).getD c.mode
  let changed : Config := { maxDepth, maxBytes, mode }
  changed.validate
  return changed

end Config

end Parse

end AvroTree
