import Translucent.Text

/-!
  # Numbers

  A number is an optional sign, digits, a fraction (a point with at least one digit behind it) and
  an exponent (`e`, an optional sign and at least one digit), where digits or fraction may be
  missing, though not both.  Each part is measured where the one before it ends.
-/

namespace Translucent

/-- The length of the sign at the start of a text, 0 or 1. -/
def signLength : Text → Nat
  | c :: _ => if c = '+' ∨ c = '-' then 1 else 0
  | [] => 0

/-- The number of digits at the start of a text. -/
def digitsLength (s : Text) : Nat := (s.takeWhile Char.isDigit).length

/-- The length of the fraction at the start of a text; a point alone is none. -/
def fractionLength : Text → Nat
  | '.' :: s => if digitsLength s = 0 then 0 else 1 + digitsLength s
  | _ => 0

/-- The length of the exponent at the start of a text; without digits it is none. -/
def exponentLength : Text → Nat
  | c :: s =>
    let sign := signLength s
    let digits := digitsLength (s.drop sign)
    if (c = 'e' ∨ c = 'E') ∧ digits ≠ 0 then 1 + sign + digits else 0
  | [] => 0

/-- `mantissaLength s` = the length of sign, digits and fraction. -/
def mantissaLength (s : Text) : Nat :=
  let whole := signLength s + digitsLength (s.drop (signLength s))
  whole + fractionLength (s.drop whole)

/-- `numberLength s` = the length of the number at the start of `s`. -/
def numberLength (s : Text) : Nat :=
  mantissaLength s + exponentLength (s.drop (mantissaLength s))

/-- Whether a number starts here: a sign alone is not enough. -/
def startsNumber (s : Text) : Bool := signLength s < mantissaLength s

end Translucent
