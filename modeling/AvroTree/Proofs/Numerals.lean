import AvroTree.Lexer.JsonValue

/-!
# What numbers are read by

Numbers, those of JSON values too, are read by asking for a mark here and there and for digits
(`Numeral`). Whatever holds of asking for a mark and is kept by doing one thing after the other then
holds of a number as soon as it holds of digits (`number_numeral`, `jsonNumber_numeral`).
-/

namespace AvroTree

namespace Lexer

/-- The marks that are asked for in a number. -/
inductive NumberMark : (Char → Bool) → Prop
  | sign : NumberMark isSign
  | minus : NumberMark (· == '-')
  | zero : NumberMark (· == '0')
  | dot : NumberMark (· == '.')
  | exponent : NumberMark isExponentMark

/-- Attempts made of asking for marks and of attempts in `T`. -/
inductive Numeral (T : (α : Type) → Attempt α → Prop) : {α : Type} → Attempt α → Prop
  | given {α : Type} {p : Attempt α} (h : T α p) : Numeral T p
  | pure {α : Type} (a : α) : Numeral T (pure a)
  | invalid {α : Type} : Numeral T (throw .invalidNumber : Attempt α)
  | mark {p : Char → Bool} (h : NumberMark p) : Numeral T (liftM (skipIf p))
  | bind {α β : Type} {p : Attempt α} {f : α → Attempt β} (hp : Numeral T p)
      (hf : ∀ a, Numeral T (f a)) : Numeral T (p >>= f)

/-- What stands behind the digits of a number. -/
def numberEnd (whole fraction : Nat) : Attempt Token.Kind := do
  if whole + fraction = 0 then throw .invalidNumber
  exponent digits
  return .number

theorem number_eq : number = (do
    let _ ← skipIf isSign
    let whole ← digits
    let fraction ← if ← skipIf (· == '.') then digits else pure 0
    numberEnd whole fraction) :=
  rfl

/-- What stands behind the digits in front of the dot. -/
def jsonDecimals : Attempt Unit := do
  if ← skipIf (· == '.') then
    if (← plainDigits) = 0 then throw .invalidNumber
  exponent plainDigits

/-- What stands behind the sign. -/
def jsonUnsigned : Attempt Unit := do
  if ← skipIf (· == '0') then
    pure ()
  else if (← plainDigits) = 0 then
    throw .invalidNumber
  jsonDecimals

variable {T : (α : Type) → Attempt α → Prop} {α : Type}

theorem Numeral.ite {c : Prop} [Decidable c] {p q : Attempt α} (hp : Numeral T p)
    (hq : Numeral T q) : Numeral T (if c then p else q) := by
  split
  · exact hp
  · exact hq

/-- A number that is found invalid is not read on. -/
theorem Numeral.unless {c : Prop} [Decidable c] {p : Attempt α} (h : Numeral T p) :
    Numeral T (do
      if c then throw .invalidNumber
      p) :=
  .ite (.bind .invalid fun _ => h) h

theorem exponent_numeral {run : Attempt Nat} (h : Numeral T run) : Numeral T (exponent run) :=
  .bind (.mark .exponent) fun _ => .ite
    (.bind (.mark .sign) fun _ => .bind h fun _ => .ite .invalid (.pure _)) (.pure _)

theorem number_numeral (h : Numeral T digits) : Numeral T number := by
  have hend (whole fraction : Nat) : Numeral T (numberEnd whole fraction) :=
    .unless (.bind (exponent_numeral h) fun _ => .pure _)
  rw [number_eq]
  exact .bind (.mark .sign) fun _ => .bind h fun whole => .bind (.mark .dot) fun _ =>
    .ite (.bind h (hend whole)) (.bind (.pure 0) (hend whole))

theorem jsonNumber_numeral (h : Numeral T plainDigits) : Numeral T jsonNumber := by
  have hexponent := exponent_numeral h
  have hdecimals : Numeral T jsonDecimals :=
    .bind (.mark .dot) fun _ => .ite (.bind h fun _ => .unless hexponent) hexponent
  exact .bind (.mark .minus) fun _ => .bind (.mark .zero) fun _ =>
    .ite hdecimals (.bind h fun _ => .unless hdecimals)

end Lexer

end AvroTree
