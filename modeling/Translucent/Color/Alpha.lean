import Translucent.Text

/-!
  # Opacity

  An opacity is a number from 0 to 1, kept exactly: no digit that was written is rounded away.

  1. **Representation** — `Alpha` has the two ends as constructors of their own and every number
     between them as the digits behind its point, the last of which is not zero.  So equal numbers
     are equal values.
  2. **Reading** — `ofLiteral?` takes digits, or digits around a point with at least one behind it;
     neither signs nor exponents nor units.  A number above 1 is refused.
  3. **Writing** — `text`, the shortest decimal: `0`, `1`, or `0.` and the digits.
-/

namespace Translucent

/-- The digits behind the point of a number strictly between 0 and 1, as short as possible. -/
abbrev IsFraction (digits : Text) : Prop :=
  digits.all Char.isDigit = true ∧ digits ≠ [] ∧ digits.getLast? ≠ some '0'

/-- An opacity from 0 to 1. -/
inductive Alpha
  /-- The opacity 0. -/
  | transparent
  /-- The opacity 1. -/
  | full
  /-- The opacity written `0.` and the digits. -/
  | fraction (digits : Text) (shortest : IsFraction digits)
  deriving DecidableEq

namespace Alpha

/-! ## Reading -/

/-- `trimZeros digits` = `digits` without the zeros at its end. -/
def trimZeros (digits : Text) : Text := (digits.reverse.dropWhile (· == '0')).reverse

/-- Trimming takes away zeros only. -/
theorem trimZeros_append_zeros (digits : Text) :
    trimZeros digits ++ (digits.reverse.takeWhile (· == '0')).reverse = digits := by
  rw [trimZeros, ← List.reverse_append, List.takeWhile_append_dropWhile, List.reverse_reverse]

/-- No zero is left at the end. -/
theorem getLast?_trimZeros (digits : Text) : (trimZeros digits).getLast? ≠ some '0' := by
  rw [trimZeros, List.getLast?_reverse]
  intro h
  have := List.head?_dropWhile_not (· == '0') digits.reverse
  simp [h] at this

/-- What is left of digits is digits. -/
theorem all_isDigit_trimZeros {digits : Text} (h : digits.all Char.isDigit = true) :
    (trimZeros digits).all Char.isDigit = true := by
  rw [← trimZeros_append_zeros digits, List.all_append, Bool.and_eq_true] at h
  exact h.1

/-- `ofFraction digits` = the opacity written `0.` and `digits`, which may end in zeros. -/
def ofFraction (digits : Text) (h : digits.all Char.isDigit = true) : Alpha :=
  if nonzero : trimZeros digits = [] then .transparent
  else .fraction (trimZeros digits)
    ⟨all_isDigit_trimZeros h, nonzero, getLast?_trimZeros digits⟩

/-- `parts? literal` = what stands before and behind the first point of `literal`.  Digits without
    a point may not be missing, and neither may those behind one. -/
def parts? (literal : Text) : Option (Text × Text) :=
  let whole := literal.takeWhile (· != '.')
  match literal.dropWhile (· != '.') with
  | [] => if whole = [] then none else some (whole, [])
  | _ :: places => if places = [] then none else some (whole, places)

/-- `ofLiteral? literal` = the opacity that `literal` writes. -/
def ofLiteral? (literal : Text) : Option Alpha :=
  match parts? literal with
  | none => none
  | some (whole, places) =>
    if h : whole.all Char.isDigit = true ∧ places.all Char.isDigit = true then
      match whole.dropWhile (· == '0') with
      | [] => some (ofFraction places h.2)
      | ['1'] => if trimZeros places = [] then some .full else none
      | _ => none
    else none

/-! ## Writing -/

/-- `text a` = the shortest decimal of `a`. -/
def text : Alpha → Text
  | .transparent => ['0']
  | .full => ['1']
  | .fraction digits _ => '0' :: '.' :: digits

/-- Whether nothing shines through: the opacity is exactly 1. -/
def isFull (a : Alpha) : Bool := a == .full

end Alpha

end Translucent
