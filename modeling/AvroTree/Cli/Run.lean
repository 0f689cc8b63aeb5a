import AvroTree.Cli.Command
import AvroTree.Cli.Report
import AvroTree.Cli.TokenList
import AvroTree.Files.Host
import AvroTree.Grammar.Avro
import AvroTree.Grammar.Export
import AvroTree.Grammar.Validate
import AvroTree.Json.Printer
import AvroTree.Parse.Tree

/-!
# Running commands

A command fails when a file cannot be read, when the settings are wrong and when there is anything
to complain about.
-/

namespace AvroTree

namespace Cli

variable {m : Type → Type} [Monad m]

/-- Reads a file that the user has named. -/
def readSource (host : Host m) (path : String) : ExceptT String m String := do
  match ← host.read path with
  | .ok text => return text
  | .error .notFound | .error .notFolder | .error .nameTooLong =>
    throw s!"File not found: {path}"
  | .error e => throw s!"Failed to read {path}: {e.message}"

/-- The language that a file's name promises. -/
def modeOfPath? (path : String) : Option Mode :=
  (Path.extension? path).bind Mode.ofExtension?

/-- Settings as changed by the options of a command. The language of the file is taken where none
is asked for. -/
def applyOptions (c : Parse.Config) (options : ParseOptions) (path : String) : Parse.Config :=
  let mode := match options.mode with
    | some .unknown => none
    | some mode => some mode
    | none => c.mode
  { c with
    maxDepth := options.maxDepth.getD c.maxDepth
    mode := mode.or (modeOfPath? path) }

/-- The settings for a file: those of the settings file, then the environment, then the options. -/
def parseConfig (host : Host m) (env : List (String × String)) (options : ParseOptions)
    (path : String) : ExceptT String m Parse.Config := do
  let settle {α : Type} (r : Except Diagnostic α) : ExceptT String m α :=
    match r with
    | .ok a => return a
    | .error d => throw d.render
  let start ← match options.config with
    | some file => do settle (Parse.Config.parse (← readSource host file))
    | none => pure {}
  let config := applyOptions (← settle (start.withEnvironment env)) options path
  settle config.validate
  return config

/-- The tree of a file if there is one, and what there is to say about it. -/
def parseFile (host : Host m) (env : List (String × String)) (options : ParseOptions)
    (path : String) : m (Option Tree × String) := do
  let read : ExceptT String m (String × Parse.Config) := do
    let source ← readSource host path
    return (source, ← parseConfig host env options path)
  match ← read.run with
  | .error message => return (none, reportFailure message)
  | .ok (source, config) =>
    match AvroTree.parse config source with
    | .ok tree =>
      return (some tree, reportDiagnostics path source tree.diagnostics)
    | .error d => return (none, reportDiagnostics path source [d])

def runParse (host : Host m) (env : List (String × String)) (file : String) (json : Bool)
    (options : ParseOptions) : m Response := do
  match ← parseFile host env options file with
  | (none, err) => return { exit := 1, err }
  | (some tree, err) =>
    let out := if json then tree.toJson.pretty else tree.sexp
    return { exit := if tree.hasErrors then 1 else 0, out := out ++ "\n", err }

def runTokens (host : Host m) (file : String) (json : Bool) (mode : Option Mode) : m Response := do
  match ← (readSource host file).run with
  | .error message => return { exit := 1, err := reportFailure message }
  | .ok source =>
    let mode := (mode.or (modeOfPath? file)).getD .unknown
    let tokens := Lexer.tokenize {} mode source
    let out :=
      if json then (Json.array (tokens.map tokenMembers)).pretty ++ "\n"
      else "".intercalate (tokenLines source (tokens.map (·.token)))
    let complaints := tokens.filterMap fun t => tokenDiagnostic? t.token
    return {
      exit := if complaints.isEmpty then 0 else 1
      out
      err := reportDiagnostics file source complaints }

/-- The line that tells how a file fared, and whether it has problems. -/
def verdict (file : String) : Option Tree → String × Bool
  | some tree =>
    if tree.hasErrors then
      (bold (red "FAIL") ++ s!" {file} ({tree.diagnostics.length} diagnostics)\n", true)
    else (bold (green "ok") ++ s!" {file}\n", false)
  | none => (bold (red "FAIL") ++ s!" {file}\n", true)

def runCheck (host : Host m) (env : List (String × String)) (files : List String)
    (options : ParseOptions) : m Response := do
  let results ← files.mapM fun file => do
    let (tree, err) ← parseFile host env options file
    return (verdict file tree, err)
  let bad := results.countP fun ((_, failed), _) => failed
  let lines := results.map fun ((line, _), _) => line
  return {
    exit := if bad = 0 then 0 else 1
    out := "".intercalate lines ++
      s!"\nChecked {files.length} file(s), {bad} with problems\n"
    err := "".intercalate (results.map (·.2)) }

def runGrammar : Response :=
  match Grammar.avro.problems with
  | [] => { out := Grammar.avro.toJson.pretty ++ "\n" }
  | problems =>
    { exit := 1, err := "".intercalate (problems.map fun p => reportFailure p.message) }

def usage : String :=
  "usage: parse FILE [--json] [--mode MODE] [--config FILE] [--max-depth N]\n"
    ++ "       tokens FILE [--json] [--mode MODE]\n"
    ++ "       check FILE... [--mode MODE] [--config FILE] [--max-depth N]\n"
    ++ "       grammar\n"

/-- Runs a command line. -/
def run (host : Host m) (env : List (String × String)) (arguments : List String) : m Response :=
  match Command.read? arguments with
  | some (.parse file json options) => runParse host env file json options
  | some (.tokens file json mode) => runTokens host file json mode
  | some (.check files options) => runCheck host env files options
  | some .grammar => return runGrammar
  | none => return { exit := 2, err := usage }

end Cli

end AvroTree
