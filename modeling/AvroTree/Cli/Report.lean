import AvroTree.Diagnostic
import AvroTree.Text.Layout

/-!
# Diagnostics for a terminal

A complaint is shown with the line it is about and a mark under the column, in colour.
-/

namespace AvroTree

namespace Cli

/-! ## Colours -/

def bold (s : String) : String :=
  "\x1b[1m" ++ s ++ "\x1b[0m"

def red (s : String) : String :=
  "\x1b[31m" ++ s ++ "\x1b[39m"

def green (s : String) : String :=
  "\x1b[32m" ++ s ++ "\x1b[39m"

def yellow (s : String) : String :=
  "\x1b[33m" ++ s ++ "\x1b[39m"

def gray (s : String) : String :=
  "\x1b[90m" ++ s ++ "\x1b[39m"

/-! ## Advice -/

def mentions (s part : String) : Bool :=
  1 < (s.splitOn part).length

/-- What to do about messages that mention certain words. -/
def advice : List (List String × String) :=
  [(["missing `;`"], "fields, messages and most declarations end with `;`"),
   (["missing `\x7d`"],
    "check that every `\x7b` opened by a record, enum or protocol is closed"),
   (["trailing comma"], "only enum symbol lists accept a comma before the closing brace"),
   (["unterminated string"], "strings cannot span lines; close the quote on the same line"),
   (["unterminated", "comment"], "block comments run until `*/`"),
   (["nesting is deeper"], "raise the limit with --max-depth or AVRO_MAX_DEPTH"),
   (["byte limit"], "raise the limit with AVRO_MAX_INPUT_BYTES or a config file"),
   (["cannot be annotated"],
    "annotations apply to protocols, named types, fields and messages")]

def adviceFor? (message : String) : Option String :=
  (advice.find? fun (words, _) => words.all (mentions message)).map (·.2)

/-! ## Reports -/

def heading : Diagnostic.Category → String
  | .lexical => "Lex error"
  | .syntactic => "Syntax error"
  | .resourceLimit => "Resource limit"

/-- A failure that is about no place in a text. -/
def reportFailure (message : String) : String :=
  bold (red "error") ++ ": " ++ red message ++ "\n"

/-- A line of the source with its number and a mark under one of its columns. -/
def reportLine (line column : Nat) (text : String) : String :=
  let number := Text.alignRight 3 (toString line) ++ " | "
  let mark := Text.blanks (number.length + (column - 1)) ++ "^"
  "     |\n" ++ gray number ++ text ++ "\n" ++ red mark ++ red " here" ++ "\n     |\n"

/-- Where a complaint about a file is, with the line if the file has it. -/
def reportPlace (path : String) (lines : Array String) (d : Diagnostic) : String :=
  match d.line, d.column with
  | some line, some column =>
    s!"  --> {path}:{line}:{column}\n" ++
      match lines[line - 1]? with
      | some text => reportLine line column text
      | none => ""
  | _, _ => s!"  --> {path}\n"

/-- A complaint about a file with these lines. -/
def reportDiagnostic (path : String) (lines : Array String) (d : Diagnostic) : String :=
  bold (red (heading d.category)) ++ ": " ++ red d.message ++ "\n" ++ reportPlace path lines d ++
    match adviceFor? d.message with
    | some text => yellow ("Help: " ++ text) ++ "\n"
    | none => ""

/-- Complaints about a file. -/
def reportDiagnostics (path source : String) (l : List Diagnostic) : String :=
  "".intercalate (l.map (reportDiagnostic path (Text.lines source).toArray))

end Cli

end AvroTree
