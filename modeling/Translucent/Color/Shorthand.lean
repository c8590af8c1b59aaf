import Translucent.Color.Alpha
import Translucent.Color.Rgb

/-!
  # Shorthands for translucent colours

  A *shorthand* names a colour and its opacity in one of six spellings that browsers do not know.
  Each stands for one `Color` (`Shorthand.color`), and `Shorthand.standard` writes that colour
  in a form which they do know: `rgba(r, g, b, a)`, or `#000` and `#FFF` for black and white of
  opacity 1.
-/

namespace Translucent

/-- A colour with its opacity. -/
structure Color where
  /-- The three channels. -/
  rgb : Rgb
  /-- The opacity. -/
  alpha : Alpha
  deriving DecidableEq

/-- `decimal n` = the channel `n` in decimal digits. -/
def Color.decimal (n : UInt8) : Text := Nat.toDigits 10 n.toNat

/-- `text c` = `c` as `rgba(r, g, b, a)`. -/
def Color.text (c : Color) : Text :=
  ['r', 'g', 'b', 'a', '('] ++ Color.decimal c.rgb.red ++ [',', ' '] ++ Color.decimal c.rgb.green
    ++ [',', ' '] ++ Color.decimal c.rgb.blue ++ [',', ' '] ++ c.alpha.text ++ [')']

/-- A colour with its opacity in one of six spellings. -/
inductive Shorthand
  /-- `black(a)` -/
  | black (alpha : Alpha)
  /-- `white(a)`, and `white()` for the opacity 0 -/
  | white (alpha : Alpha)
  /-- `#rgb.a` -/
  | shortHex (rgb : Rgb) (alpha : Alpha)
  /-- `#rrggbb.a` -/
  | longHex (rgb : Rgb) (alpha : Alpha)
  /-- `rgba(#rgb, a)` and `rgba(#rrggbb, a)` -/
  | rgbaHex (rgb : Rgb) (alpha : Alpha)
  /-- `rgba(rgb(r, g, b), a)` -/
  | rgbaRgb (rgb : Rgb) (alpha : Alpha)
  deriving DecidableEq

namespace Shorthand

/-- The colour that a shorthand stands for. -/
def color : Shorthand → Color
  | black a => ⟨.black, a⟩
  | white a => ⟨.white, a⟩
  | shortHex c a | longHex c a | rgbaHex c a | rgbaRgb c a => ⟨c, a⟩

/-- Black and white of opacity 1 have a spelling of three digits. -/
def solid? : Shorthand → Option Text
  | black .full => some ['#', '0', '0', '0']
  | white .full => some ['#', 'F', 'F', 'F']
  | _ => none

/-- `standard s` = the text that takes the place of `s`. -/
def standard (s : Shorthand) : Text := s.solid?.getD s.color.text

end Shorthand

end Translucent
