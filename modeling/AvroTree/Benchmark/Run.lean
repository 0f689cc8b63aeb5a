import AvroTree.Benchmark.MiddleEdit
import AvroTree.Benchmark.Result
import AvroTree.Benchmark.Timestamp
import AvroTree.Cli.Arguments
import AvroTree.Files.Host
import AvroTree.Json.Printer
import AvroTree.Parse.Tree
import AvroTree.Text.Lowercase

/-!
# Running a benchmark

Every schema found under a folder is parsed as it is and once more after an edit, with the help of
the first tree. The results are printed and written to a document.
-/

namespace AvroTree

namespace Benchmark

/-- What a user asks of a run. -/
structure Plan where
  /-- The schemas to run, all of them if none is named. -/
  names : List String := []
  iterations : Nat := 50
  /-- Rounds that are not measured. -/
  warmup : Nat := 5
  output : Option String := none
  withFixtures : Bool := false
  listOnly : Bool := false
deriving DecidableEq, Repr, Inhabited

namespace Plan

def flags : List Cli.Flag :=
  [⟨"test", some 't', true⟩, ⟨"iterations", some 'n', true⟩, ⟨"warmup", some 'w', true⟩,
   ⟨"output", some 'o', true⟩, ⟨"include-fixtures", none, false⟩, ⟨"list", none, false⟩,
   ⟨"verbose", some 'v', false⟩]

/-- One past the largest number of rounds. -/
def roundBound : Nat := 4294967296

/-- Reads a command line. -/
def read? (arguments : List String) : Option Plan := do
  let a ← Cli.Arguments.read? flags arguments
  let defaults : Plan := {}
  let iterations ← a.value? "iterations" (Cli.readSigned? roundBound)
  let warmup ← a.value? "warmup" (Cli.readSigned? roundBound)
  if a.operands.isEmpty then
    return {
      names := a.values "test"
      iterations := iterations.getD defaults.iterations
      warmup := warmup.getD defaults.warmup
      output := a.options.lookup "output"
      withFixtures := a.has "include-fixtures"
      listOnly := a.has "list" }
  else none

end Plan

/-- A schema to run. -/
structure Case where
  name : String
  path : String
  mode : Mode
deriving DecidableEq, Repr, Inhabited

namespace Case

/-- The schema that a file is, going by its extension. -/
def ofPath? (path : String) : Option Case :=
  ((Path.extension? path).bind Mode.ofExtension?).map fun mode =>
    ⟨(Path.stem? path).getD "", path, mode⟩

end Case

variable {m : Type → Type} [Monad m]

/-- The schemas in a folder, which may be absent. -/
def casesIn (host : Host m) (folder : String) : m (List Case) := do
  match ← host.list folder with
  | .ok names => return names.filterMap fun name => Case.ofPath? (Path.join folder name)
  | .error _ => return []

/-- All schemas under the folder `root`, by name. -/
def discover (host : Host m) (root : String) (withFixtures : Bool) : m (List Case) := do
  let schemas ← casesIn host (Path.join root "benchmark/schemas")
  let fixtures ← if withFixtures then casesIn host (Path.join root "fixtures") else pure []
  return (schemas ++ fixtures).mergeSort fun a b => !decide (b.name < a.name)

/-- The schemas that were asked for, whatever the case of their names. -/
def select (names : List String) (cases : List Case) : List Case :=
  let wanted := names.map Text.lower
  cases.filter fun c => wanted.contains (Text.lower c.name)

/-- Repeats a measurement. -/
def rounds {α : Type} (measure : m α) : Nat → m (List α)
  | 0 => return []
  | n + 1 => do
    let first ← measure
    return first :: (← rounds measure n)

/-- Runs one schema. -/
def measure (host : Host m) (plan : Plan) (c : Case) (source : String) :
    m (Except Diagnostic Result) := do
  let config : Parse.Config := { mode := some c.mode }
  let lexerConfig := Lexer.Config.ofDepth config.maxDepth
  let (edit, edited) := middleEdit source
  let trees : Except Diagnostic (Tree × Tree) := do
    let base ← AvroTree.parse config source
    let again ← AvroTree.reparse config base edit edited
    discard (AvroTree.parse config edited)
    return (base, again)
  match trees with
  | .error d => return .error d
  | .ok (base, again) =>
    let round : m Sample := do
      let tokenize ← host.timed (Lexer.tokenize lexerConfig c.mode) source
      let parse ← host.timed (AvroTree.parse config) source
      let reparse ← host.timed (AvroTree.reparse config base edit) edited
      return { tokenize, parse, reparse }
    discard (rounds round plan.warmup)
    let samples ← rounds round plan.iterations
    return .ok {
      name := c.name
      mode := again.mode
      bytes := source.utf8ByteSize
      tokens := again.tokens.length
      reused := again.reused
      diagnostics := again.diagnostics.length
      iterations := plan.iterations
      tokenize := .ofList (samples.map (·.tokenize))
      parse := .ofList (samples.map (·.parse))
      reparse := .ofList (samples.map (·.reparse)) }

/-- Runs the schema of a file, or tells why it cannot be run. -/
def measureFile (host : Host m) (plan : Plan) (c : Case) : m (Except String Result) := do
  match ← host.read c.path with
  | .error e => return .error s!"Failed to read {c.path}: {e.message}\n"
  | .ok source =>
    match ← measure host plan c source with
    | .error d => return .error s!"{c.name}: {d.render}\n"
    | .ok result => return .ok result

/-- Runs schemas up to the first that cannot be run, and tells why that is so. -/
def measureAll (host : Host m) (plan : Plan) : List Case → m (List Result × Option String)
  | [] => return ([], none)
  | c :: rest => do
    match ← measureFile host plan c with
    | .error message => return ([], some message)
    | .ok result =>
      let (results, failure) ← measureAll host plan rest
      return (result :: results, failure)

/-- Writes a document, making the folders around it, or tells why that cannot be done. -/
def writeDocument (host : Host m) (path : String) (doc : Json) : m (Except String Unit) := do
  let folder := (Path.parent? path).getD ""
  match ← if folder = "" then pure (.ok ()) else host.makeFolders folder with
  | .error e => return .error s!"Failed to create {folder}: {e.message}\n"
  | .ok () =>
    match ← host.write path doc.pretty with
    | .error e => return .error s!"Failed to write {path}: {e.message}\n"
    | .ok () => return .ok ()

/-- Measures schemas and writes what was found out about them. -/
def runCases (host : Host m) (root : String) (plan : Plan) (cases : List Case) : m Response := do
  let (results, failure) ← measureAll host plan cases
  let out := "".intercalate (results.map Result.line)
  match failure with
  | some err => return { exit := 1, out, err }
  | none =>
    let now ← host.now
    let path := plan.output.getD
      (Path.join (Path.join root "benchmark/results") (fileStamp now ++ ".json"))
    match ← writeDocument host path (document (timestamp now) results) with
    | .error err => return { exit := 1, out, err }
    | .ok () => return { out := out ++ s!"\nSaved results to {path}\n" }

def listing (cases : List Case) : String :=
  "Discovered schemas:\n" ++ "".intercalate (cases.map fun c => s!"- {c.name} ({c.path})\n")

/-- Carries out a plan for the schemas under the folder `root`. -/
def runPlan (host : Host m) (root : String) (plan : Plan) : m Response := do
  let cases ← discover host root plan.withFixtures
  let chosen := if plan.names.isEmpty then cases else select plan.names cases
  if plan.listOnly then
    return { out := listing cases }
  else if !chosen.isEmpty then
    runCases host root plan chosen
  else if plan.names.isEmpty then
    return { exit := 2, err := "No .avdl or .avsc files found in benchmark/schemas.\n" }
  else
    return { exit := 2, err := "No matching schemas. Use --list to see available.\n" }

def usage : String :=
  "usage: [--test NAME]... [--iterations N] [--warmup N] [--output FILE] [--include-fixtures]\n"
    ++ "       [--list]\n"

/-- Runs a command line. -/
def run (host : Host m) (root : String) (arguments : List String) : m Response :=
  match Plan.read? arguments with
  | some plan => runPlan host root plan
  | none => return { exit := 2, err := usage }

end Benchmark

end AvroTree
