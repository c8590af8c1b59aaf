import Translucent.Text.Digit

/-!
  # Colour channels and their hexadecimal digits

  A colour without opacity is three channels of eight bits.  Style sheets write it as three or six
  hexadecimal digits behind a `#`; the short form stands for the long one with each digit doubled.

  * `Rgb.isHex` — which digits name a colour;
  * `Rgb.ofHex?` — the colour that they name, defined exactly on those (`isSome_ofHex?`).
-/

namespace Translucent

/-- Three channels of eight bits. -/
structure Rgb where
  /-- The red channel. -/
  red : UInt8
  /-- The green channel. -/
  green : UInt8
  /-- The blue channel. -/
  blue : UInt8
  deriving DecidableEq, Repr

namespace Rgb

/-- All channels off. -/
def black : Rgb := ⟨0, 0, 0⟩

/-- All channels full. -/
def white : Rgb := ⟨255, 255, 255⟩

/-! ## Digits -/

/-- `channel? high low` = the channel written by two digits, the high one first. -/
def channel? (high low : Char) : Option UInt8 := do
  let h ← hexDigit? high
  let l ← hexDigit? low
  return UInt8.ofNat (16 * h + l)

/-- Two digits make a channel exactly if both are digits. -/
theorem isSome_channel? (high low : Char) :
    (channel? high low).isSome = (isHexDigit high && isHexDigit low) := by
  simp only [channel?, isHexDigit]
  cases hexDigit? high <;> cases hexDigit? low <;> rfl

/-! ## The two lengths of a colour -/

/-- Whether `digits` is three or six hexadecimal digits.  The lengths four and eight carry an
    opacity of their own and name no colour here. -/
def isHex (digits : Text) : Bool :=
  (digits.length == 3 || digits.length == 6) && digits.all isHexDigit

/-- `ofHex? digits` = the colour named by three or six hexadecimal digits; three digits count
    twice each. -/
def ofHex? : Text → Option Rgb
  | [r, g, b] => do return ⟨← channel? r r, ← channel? g g, ← channel? b b⟩
  | [r₁, r₂, g₁, g₂, b₁, b₂] => do
    return ⟨← channel? r₁ r₂, ← channel? g₁ g₂, ← channel? b₁ b₂⟩
  | _ => none

/-- Exactly the digits that `isHex` accepts name a colour. -/
theorem isSome_ofHex? (digits : Text) : (ofHex? digits).isSome = isHex digits := by
  have bind {x y z : Option UInt8} :
      (do return (⟨← x, ← y, ← z⟩ : Rgb) : Option Rgb).isSome
        = (x.isSome && y.isSome && z.isSome) := by
    cases x <;> cases y <;> cases z <;> rfl
  match digits with
  | [] | [_] | [_, _] | [_, _, _, _] | [_, _, _, _, _] => rfl
  | [r, g, b] =>
    simp only [ofHex?, bind, isSome_channel?, isHex, List.all, List.length]
    cases isHexDigit r <;> cases isHexDigit g <;> cases isHexDigit b <;> rfl
  | [r₁, r₂, g₁, g₂, b₁, b₂] =>
    simp only [ofHex?, bind, isSome_channel?, isHex, List.all, List.length]
    simp [Bool.and_assoc]
  | _ :: _ :: _ :: _ :: _ :: _ :: _ :: _ => simp [ofHex?, isHex]

end Rgb

end Translucent
