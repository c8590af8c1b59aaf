import Translucent.Color.Shorthand
import Translucent.Content

/-!
  # The spellings of shorthands

  A shorthand is either three or six hexadecimal digits with an opacity right behind them, or a call
  of `black`, `white` or `rgba`.  White space and comments may stand anywhere between the arguments
  of a call, so a call is judged by its significant content alone.

  Names are compared without their escapes and with case; numbers by how they are spelled.
-/

namespace Translucent

/-! ## Single lexemes -/

namespace Lexeme

/-- The opacity that a number without sign and exponent writes. -/
def alpha? (l : Lexeme) : Option Alpha :=
  if l.token = .number then Alpha.ofLiteral? l.text else none

/-- The channel that a number of digits alone writes, up to 255. -/
def channel? (l : Lexeme) : Option UInt8 :=
  if l.token = .number ∧ l.text.all Char.isDigit ∧ decimalValue l.text ≤ 255 then
    some (UInt8.ofNat (decimalValue l.text))
  else none

/-- The colour that a name behind `#` writes. -/
def rgb? (l : Lexeme) : Option Rgb :=
  match l.token with
  | .hash digits => Rgb.ofHex? digits
  | _ => none

end Lexeme

/-! ## Calls -/

namespace CallName

/-- The call `black(a)`. -/
def black : Text := ['b', 'l', 'a', 'c', 'k']

/-- The call `white(a)`. -/
def white : Text := ['w', 'h', 'i', 't', 'e']

/-- The call `rgb(r, g, b)`. -/
def rgb : Text := ['r', 'g', 'b']

/-- The call `rgba(c, a)`. -/
def rgba : Text := ['r', 'g', 'b', 'a']

/-- Calls that are colours themselves: no shorthand is looked for inside one. -/
def colors : List Text := [rgb, rgba, ['h', 's', 'l'], ['h', 's', 'l', 'a']]

end CallName

/-- The colour of `rgb` with the arguments `r, g, b`. -/
def rgbCall? (arguments : Content) : Option Rgb :=
  match arguments.significant with
  | .leaf r (.leaf c₁ (.leaf g (.leaf c₂ (.leaf b .nil)))) =>
    if c₁.token = .comma ∧ c₂.token = .comma then do
      return ⟨← r.channel?, ← g.channel?, ← b.channel?⟩
    else none
  | _ => none

/-- The shorthand of `black` with the argument `a`. -/
def blackCall? (arguments : Content) : Option Shorthand :=
  match arguments.significant with
  | .leaf a .nil => a.alpha?.map .black
  | _ => none

/-- The shorthand of `white` with the argument `a`, or with none. -/
def whiteCall? (arguments : Content) : Option Shorthand :=
  match arguments.significant with
  | .nil => some (.white .transparent)
  | .leaf a .nil => a.alpha?.map .white
  | _ => none

/-- The shorthand of `rgba` with the arguments `#hex, a` or `rgb(r, g, b), a`. -/
def rgbaCall? (arguments : Content) : Option Shorthand :=
  match arguments.significant with
  | .leaf hex (.leaf c (.leaf a .nil)) =>
    if c.token = .comma then do return .rgbaHex (← hex.rgb?) (← a.alpha?) else none
  | .block (.call name) _ inner _ (.leaf c (.leaf a .nil)) =>
    if name = CallName.rgb ∧ c.token = .comma then do
      return .rgbaRgb (← rgbCall? inner) (← a.alpha?)
    else none
  | _ => none

/-- The shorthand that a call of `name` writes. -/
def call? (name : Text) (arguments : Content) : Option Shorthand :=
  if name = CallName.black then blackCall? arguments
  else if name = CallName.white then whiteCall? arguments
  else if name = CallName.rgba then rgbaCall? arguments
  else none

/-! ## Digits with an opacity -/

namespace Content

/-- Whether a colour may end here: at the end of its level, at white space, a comma or a closing
    parenthesis. -/
def mayEndColor : Content → Bool
  | nil => true
  | leaf l _ => l.token == .space || l.token == .comma || l.token == .closing .round
  | block .. => false

end Content

/-- The shorthand that starts with the lexeme `l` before `rest`, and the lexeme of its opacity:
    digits behind `#`, and right behind them a number that starts with its point and ends at a
    delimiter. -/
def hexShorthand? (l : Lexeme) (rest : Content) : Option (Shorthand × Lexeme) :=
  match l.token, rest with
  | .hash digits, .leaf number after =>
    if number.text.head? = some '.' ∧ after.mayEndColor then do
      let c ← Rgb.ofHex? digits
      let a ← number.alpha?
      return (if digits.length = 3 then .shortHex c a else .longHex c a, number)
    else none
  | _, _ => none

end Translucent
