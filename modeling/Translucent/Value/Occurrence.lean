import Translucent.Value.Spelling

/-!
  # Where shorthands occur in a value

  `occurrencesIn` lists the shorthands of a value from left to right, each with its span in bytes.
  A shorthand is reported whole: inside a call that is one, or that is a colour of its own, nothing
  is looked for.  All other blocks are searched, down to `maxSearchDepth` blocks inside one
  another.
-/

namespace Translucent

/-- How many blocks inside one another are searched. -/
def maxSearchDepth : Nat := 128

/-- A shorthand and the bytes of the value that it takes up. -/
structure Occurrence where
  /-- The first byte. -/
  start : Nat
  /-- The byte behind the last one. -/
  stop : Nat
  /-- What was found. -/
  shorthand : Shorthand
  deriving DecidableEq

namespace Content

/-- Whether the text of a call ends in a closing parenthesis.  A comment that was left open may
    supply it at the very end of a value. -/
def endsInParenthesis (body : Content) (closed : Bool) : Bool :=
  closed || body.text.getLast? == some ')'

/-- `occurrences depth start pos c` = the shorthands in `c`, which lies `depth` blocks deep at the
    byte `pos`.  A shorthand of digits that comes first starts at `start`: that is `pos`, except
    behind a block too deep to be searched, where the span takes in the rest of that block. -/
def occurrences (depth start pos : Nat) : Content → List Occurrence
  | nil => []
  | leaf l rest =>
    let next := pos + Text.byteLength l.text
    match hexShorthand? l rest with
    | some (s, number) =>
      ⟨start, next + Text.byteLength number.text, s⟩ :: occurrences depth next next rest
    | none => occurrences depth next next rest
  | block o t body closed rest =>
    let inner := pos + Text.byteLength t
    let next := inner + body.width + closingWidth closed
    if maxSearchDepth ≤ depth then occurrences depth inner next rest
    else
      let found :=
        match o with
        | .bracket _ => occurrences (depth + 1) inner inner body
        | .call name =>
          match call? name body with
          | some s => if endsInParenthesis body closed then [⟨pos, next, s⟩] else []
          | none => if CallName.colors.contains name then [] else occurrences (depth + 1) inner inner body
      found ++ occurrences depth next next rest

end Content

end Translucent
