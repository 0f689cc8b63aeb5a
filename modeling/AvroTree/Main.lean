import Std.Time.DateTime.Timestamp
import AvroTree.Benchmark.Run
import AvroTree.Cli.Run

/-!
# The command line

`bench` runs the benchmark for the schemas under the current folder; every other command reads the
files it is given.
-/

namespace AvroTree

/-- The cause behind an error of the system. -/
def FileError.ofSystem : IO.Error → FileError
  | .noFileOrDirectory .. => .notFound
  | .alreadyExists .. => .alreadyExists
  | .inappropriateType _ code _ => if code = 20 then .notFolder else .isFolder
  | e => .other (toString e)

/-- Does something that may fail. -/
def attempt {α : Type} (action : IO α) : IO (Except FileError α) := do
  try
    return .ok (← action)
  catch e => return .error (.ofSystem e)

/-- The machine the program runs on. -/
def machine : Host IO where
  read path := do
    match ← attempt (IO.FS.readBinFile path) with
    | .error e => return .error e
    | .ok content => return (String.fromUTF8? content).elim (.error .notText) .ok
  list path := attempt do
    let folder := (← IO.currentDir) / path
    return (← folder.readDir).toList.map fun entry => entry.fileName
  makeFolders path := attempt (IO.FS.createDirAll path)
  write path content := attempt (IO.FS.writeFile path content)
  now := return (← Std.Time.Timestamp.now).toSecondsSinceUnixEpoch.val.toNat
  timed f argument := do
    let start ← IO.monoNanosNow
    discard (IO.mkRef (f argument))
    return (← IO.monoNanosNow) - start

/-- The environment variables that change settings. -/
def environment : IO (List (String × String)) := do
  let names := ["AVRO_MAX_DEPTH", "AVRO_MAX_INPUT_BYTES", "AVRO_MODE"]
  return (← names.mapM fun name => return (name, ← IO.getEnv name)).filterMap fun
    | (name, some value) => some (name, value)
    | (_, none) => none

end AvroTree

def main (arguments : List String) : IO UInt32 := do
  let response ← match arguments with
    | "bench" :: rest => do
      AvroTree.Benchmark.run AvroTree.machine (← IO.currentDir).toString rest
    | _ => do AvroTree.Cli.run AvroTree.machine (← AvroTree.environment) arguments
  IO.print response.out
  IO.eprint response.err
  return UInt32.ofNat response.exit
