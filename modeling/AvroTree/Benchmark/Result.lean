import AvroTree.Benchmark.Times
import AvroTree.Lexer.State

/-!
# Results of a benchmark
-/

namespace AvroTree

namespace Benchmark

/-- What was found out about one schema. The counts are those of the edited text. -/
structure Result where
  name : String
  mode : Mode
  bytes : Nat
  tokens : Nat
  reused : Nat
  diagnostics : Nat
  iterations : Nat
  tokenize : Times
  parse : Times
  reparse : Times
deriving DecidableEq, Repr, Inhabited

namespace Result

/-- A result on a line of its own. -/
def line (r : Result) : String :=
  Text.alignRight 12 r.name
    ++ s!": parse avg={showMillis r.parse.average} min={r.parse.showLeast}"
    ++ s!" max={r.parse.showGreatest} | reparse avg={showMillis r.reparse.average}"
    ++ s!" | tokenize={showMillis r.tokenize.average} | reused {r.reused}/{r.tokens} tokens\n"

def toJson (r : Result) : Json :=
  .object [
    ("name", .string r.name),
    ("mode", .string r.mode.name),
    ("bytes", .ofNat r.bytes),
    ("tokens", .ofNat r.tokens),
    ("iterations", .ofNat r.iterations),
    ("avg_tokenize_ms", millis r.tokenize.average),
    ("avg_parse_ms", millis r.parse.average),
    ("min_parse_ms", Times.bound r.parse.least),
    ("max_parse_ms", Times.bound r.parse.greatest),
    ("avg_reparse_ms", millis r.reparse.average),
    ("min_reparse_ms", Times.bound r.reparse.least),
    ("max_reparse_ms", Times.bound r.reparse.greatest),
    ("reused_tokens", .ofNat r.reused),
    ("diagnostics", .ofNat r.diagnostics)]

end Result

/-- The version of the lexer and the parser that documents name. -/
def version : String := "0.1.0"

/-- The document of a whole run. -/
def document (timestamp : String) (results : List Result) : Json :=
  .object [
    ("timestamp", .string timestamp),
    ("avro_syntax_version", .string version),
    ("benchmarks", .array (results.map Result.toJson))]

end Benchmark

end AvroTree
