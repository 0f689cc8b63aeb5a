/-!
# Arguments

Options have a long name behind two dashes or a letter behind one, and stand anywhere among the
operands. A value follows its option as the next argument or in the same one, with or without an
equals sign behind a letter. Two dashes alone end the options.
-/

namespace AvroTree

namespace Cli

/-- An option that a command knows. -/
structure Flag where
  name : String
  letter : Option Char := none
  takesValue : Bool := false
deriving DecidableEq, Repr

structure Arguments where
  /-- The options by their long names, in order, with their values. -/
  options : List (String × String) := []
  operands : List String := []
deriving DecidableEq, Repr, Inhabited

namespace Arguments

/-- The options of one argument, and the option that waits for the next one as its value. -/
abbrev Given := List (String × String) × Option String

/-- The options behind a single dash. -/
def readLetters? (flags : List Flag) : List Char → Option Given
  | [] => some ([], none)
  | c :: cs => do
    let flag ← flags.find? fun f => f.letter == some c
    if flag.takesValue then
      match cs with
      | [] => return ([], some flag.name)
      | '=' :: value => return ([(flag.name, String.ofList value)], none)
      | value => return ([(flag.name, String.ofList value)], none)
    else
      let (more, waiting) ← readLetters? flags cs
      return ((flag.name, "") :: more, waiting)

/-- The option behind two dashes. -/
def readName? (flags : List Flag) (cs : List Char) : Option Given := do
  let name := String.ofList (cs.takeWhile (· != '='))
  let flag ← flags.find? fun f => f.name == name
  match cs.dropWhile (· != '='), flag.takesValue with
  | _ :: value, true => return ([(name, String.ofList value)], none)
  | [], true => return ([], some name)
  | [], false => return ([(name, "")], none)
  | _ :: _, false => none

/-- Reads one argument, if it is an option. -/
def readOption? (flags : List Flag) (argument : String) : Option (Option Given) :=
  match argument.toList with
  | '-' :: '-' :: cs => some (readName? flags cs)
  | '-' :: c :: cs => some (readLetters? flags (c :: cs))
  | _ => none

/-- Reads arguments, unless an option is unknown or lacks its value. -/
def read? (flags : List Flag) : List String → Option Arguments
  | [] => some {}
  | "--" :: rest => some { operands := rest }
  | argument :: rest =>
    match readOption? flags argument with
    | none => (read? flags rest).map fun a => { a with operands := argument :: a.operands }
    | some none => none
    | some (some (given, none)) =>
      (read? flags rest).map fun a => { a with options := given ++ a.options }
    | some (some (given, some name)) =>
      match rest with
      | [] => none
      | value :: rest =>
        (read? flags rest).map fun a => { a with options := given ++ (name, value) :: a.options }

def has (a : Arguments) (name : String) : Bool :=
  (a.options.lookup name).isSome

/-- The values of an option, in order. -/
def values (a : Arguments) (name : String) : List String :=
  a.options.filterMap fun (given, value) => if given = name then some value else none

/-- The value of an option that may be absent, unless it cannot be read. -/
def value? {α : Type} (a : Arguments) (name : String) (read : String → Option α) :
    Option (Option α) :=
  match a.options.lookup name with
  | none => some none
  | some value => (read value).map some

end Arguments

/-- A number in decimal below a bound. -/
def readDigits? (bound : Nat) (digits : List Char) : Option Nat :=
  if digits.isEmpty || !digits.all Char.isDigit then none
  else
    let n := digits.foldl (fun n c => 10 * n + (c.toNat - '0'.toNat)) 0
    if n < bound then some n else none

/-- A number in decimal below a bound, a plus sign allowed in front. -/
def readNumber? (bound : Nat) (s : String) : Option Nat :=
  match s.toList with
  | '+' :: digits => readDigits? bound digits
  | digits => readDigits? bound digits

/-- A number in decimal below a bound with a sign or without. Of the numbers with a minus sign only
zero will do. -/
def readSigned? (bound : Nat) (s : String) : Option Nat :=
  match s.toList with
  | '-' :: digits => readDigits? 1 digits
  | _ => readNumber? bound s

end Cli

end AvroTree
