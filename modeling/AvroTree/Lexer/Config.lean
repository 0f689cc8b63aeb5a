import AvroTree.Json.Settings
import AvroTree.Lexer.State

/-!
# Settings of a lexer
-/

namespace AvroTree

namespace Lexer

/-- How deep brackets may nest. -/
structure Config where
  maxDepth : Nat := 64
deriving DecidableEq, Repr, Inhabited

namespace Config

/-- Settings that ask for no more than the ceiling. -/
def ofDepth (n : Nat) : Config :=
  ⟨min n depthCeiling⟩

/-- The depth that is kept to. -/
def cap (c : Config) : Nat :=
  min c.maxDepth depthCeiling

/-- Reads the settings from a JSON text. -/
def parse? (text : String) : Option Config :=
  match (Json.parse? text).bind (Json.settings? ["max_depth"]) with
  | some [depth] =>
    (Json.setting? ({} : Config).maxDepth (Json.natural? settingBound) depth).map Config.mk
  | _ => none

end Config

end Lexer

end AvroTree
