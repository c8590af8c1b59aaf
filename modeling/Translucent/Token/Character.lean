import Translucent.Text

/-!
  # Characters by their part in a token

  The classes that the tokenizer asks for.  White space is five characters here, far fewer than the
  blanks of `Text.isBlank`; every character outside ASCII may start a name.
-/

namespace Translucent

namespace Character

/-- Line feed, carriage return and form feed end a line. -/
def isNewline (c : Char) : Bool := c == '\n' || c == '\r' || c == '\x0c'

/-- A space, a tab or the end of a line. -/
def isSpace (c : Char) : Bool := c == ' ' || c == '\t' || isNewline c

/-- Either quotation mark. -/
def isQuote (c : Char) : Bool := c == '\x22' || c == '\x27'

/-- Control characters that an address may not hold.  The null character is not among them. -/
def isUnprintable (c : Char) : Bool :=
  let n := c.toNat
  (1 ≤ n && n ≤ 8) || n == 0xB || (0xE ≤ n && n ≤ 0x1F) || n == 0x7F

/-- Letters, the underscore, the null character, and all that is not ASCII. -/
def isNameStart (c : Char) : Bool := c.isAlpha || c == '_' || c == '\x00' || 0x80 ≤ c.toNat

/-- What may follow inside a name without an escape. -/
def isNameChar (c : Char) : Bool := isNameStart c || c.isDigit || c == '-'

end Character

/-- Whether the text goes on at the start of a new line. -/
def startsNewline : Text → Bool
  | [] => false
  | c :: _ => Character.isNewline c

/-- The length of the line end that a text starts with: two characters for a carriage return and
    its line feed, one for any other line end, none if the text starts otherwise. -/
def newlineLength : Text → Nat
  | '\r' :: '\n' :: _ => 2
  | c :: _ => if Character.isNewline c then 1 else 0
  | [] => 0

end Translucent
