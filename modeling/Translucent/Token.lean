import Translucent.Text

/-!
  # Tokens

  The words of a style sheet.  A `Lexeme` is a token together with the text that it was read from;
  what depends on spelling (the digits of a number, say) is taken from that text, what depends on
  meaning (a name without its escapes) from the token.

  Tokens that open a block carry an `Opener`, which fixes the `Bracket` that closes it.  All of
  white space, comments and closing brackets are tokens too, so that lexemes cover the whole text.
-/

namespace Translucent

/-- The three kinds of brackets. -/
inductive Bracket
  /-- `(` and `)` -/
  | round
  /-- `[` and `]` -/
  | square
  /-- `{` and `}`, in that order -/
  | curly
  deriving DecidableEq, Repr

/-- The character that closes a bracket. -/
def Bracket.closer : Bracket → Char
  | round => ')'
  | square => ']'
  | curly => '\x7d'

/-- What opens a block. -/
inductive Opener
  /-- A name with a `(` right behind it; the name is free of escapes. -/
  | call (name : Text)
  /-- A bracket alone. -/
  | bracket (b : Bracket)
  deriving DecidableEq, Repr

/-- The bracket that a block is written in. -/
def Opener.shape : Opener → Bracket
  | call _ => .round
  | bracket b => b

/-- The words of a style sheet. -/
inductive Token
  /-- Spaces, tabs and line ends. -/
  | space
  /-- A comment; an unclosed one runs to the end of the text. -/
  | comment (closed : Bool)
  /-- A name, free of escapes. -/
  | ident (name : Text)
  /-- A name behind `@`. -/
  | atKeyword (name : Text)
  /-- A name behind `#`. -/
  | hash (name : Text)
  /-- A quoted string, possibly broken off by a line end; an unclosed one runs to the end of the
      text. -/
  | string (closed : Bool)
  /-- A `url(` with an unquoted address, well formed or not; an unclosed one runs to the end. -/
  | url (closed : Bool)
  /-- A number without a unit. -/
  | number
  /-- A number with `%`. -/
  | percentage
  /-- A number with a unit. -/
  | dimension
  /-- `:` -/
  | colon
  /-- `;` -/
  | semicolon
  /-- `,` -/
  | comma
  /-- The start of a block. -/
  | opening (o : Opener)
  /-- A closing bracket, whether or not it closes anything. -/
  | closing (b : Bracket)
  /-- Any other character, and the fixed groups `~=`, `|=`, `^=`, `$=`, `*=`, `<!--` and `-->`. -/
  | symbol
  deriving DecidableEq, Repr

/-- White space and comments stand between the words that count. -/
def Token.isTrivia : Token → Bool
  | space | comment _ => true
  | _ => false

/-- A token and the text that it was read from. -/
structure Lexeme where
  /-- What was read. -/
  token : Token
  /-- How it is spelled. -/
  text : Text
  deriving DecidableEq, Repr

/-- The text of lexemes in a row. -/
def Lexeme.textOf (ls : List Lexeme) : Text := ls.flatMap (·.text)

@[simp] theorem Lexeme.textOf_nil : textOf [] = [] := rfl

@[simp] theorem Lexeme.textOf_cons (l : Lexeme) (ls : List Lexeme) :
    textOf (l :: ls) = l.text ++ textOf ls := List.flatMap_cons

end Translucent
