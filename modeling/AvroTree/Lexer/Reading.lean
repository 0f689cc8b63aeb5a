/-!
# Reading ahead

A lexer looks at the text in front of it and says what it found, how many characters it used up
and how many it had to see to be sure. Seeing that the text ends counts as one more character, so
what a lexer answers depends only on the part of the text that it has seen.
-/

namespace AvroTree

structure Reading (α : Type) where
  value : α
  /-- The characters used up. -/
  used : Nat
  /-- The characters examined, the end of the text counting as one. -/
  seen : Nat
deriving Repr, DecidableEq

namespace Reading

variable {α β : Type}

def map (f : α → β) (r : Reading α) : Reading β :=
  ⟨f r.value, r.used, r.seen⟩

/-- The same reading with `n` more characters in front of it. -/
def after (n : Nat) (r : Reading α) : Reading α :=
  ⟨r.value, n + r.used, n + r.seen⟩

/-- The same reading with nothing used up. -/
def back (r : Reading α) : Reading α :=
  ⟨r.value, 0, r.seen⟩

/-- The same reading by one who has also seen the first `n` characters. -/
def seeing (n : Nat) (r : Reading α) : Reading α :=
  ⟨r.value, r.used, max n r.seen⟩

/-- Whether the reading went past the end of the text it was made on. -/
def overran (r : Reading α) (s : List Char) : Bool :=
  s.length < r.seen

end Reading

def Lexer (α : Type) : Type :=
  List Char → Reading α

namespace Lexer

/-- One lexer after the other. -/
def bind {α β : Type} (p : Lexer α) (f : α → Lexer β) : Lexer β := fun s =>
  ((f (p s).value (s.drop (p s).used)).after (p s).used).seeing (p s).seen

instance : Monad Lexer where
  pure a := fun _ => ⟨a, 0, 0⟩
  bind := bind

def peek : Lexer (Option Char) := fun s =>
  ⟨s.head?, 0, 1⟩

/-- The character `n` places ahead. -/
def peekAt (n : Nat) : Lexer (Option Char) := fun s =>
  ⟨s[n]?, 0, n + 1⟩

/-- Uses up one character. -/
def next : Lexer (Option Char)
  | [] => ⟨none, 0, 1⟩
  | c :: _ => ⟨some c, 1, 1⟩

/-- Uses up a character of the class, if one comes next. -/
def skipIf (p : Char → Bool) : Lexer Bool
  | [] => ⟨false, 0, 1⟩
  | c :: _ => if p c then ⟨true, 1, 1⟩ else ⟨false, 0, 1⟩

/-- Uses up the characters of a class and counts them. -/
def skipWhile (p : Char → Bool) : Lexer Nat
  | [] => ⟨0, 0, 1⟩
  | c :: cs => if p c then ((skipWhile p cs).after 1).map (· + 1) else ⟨0, 0, 1⟩

end Lexer

end AvroTree
