import Translucent.Text.Blank

/-!
  # Declarations

  A declaration gives a property a value.  It remembers where its value stands in the source, so
  that another value can be put there later with everything around it kept.

  The value is what stands behind the colon up to the end of the declaration, without the blanks
  around it and without a trailing `!important`, which `splitImportant` takes off.
-/

namespace Translucent

/-- A property with its value. -/
structure Declaration where
  /-- The name of the property, in small letters unless it is a custom one. -/
  name : Text
  /-- The value, without `!important`. -/
  value : Text
  /-- Whether `!important` was written behind the value. -/
  important : Bool
  /-- The first byte of the value in the source. -/
  start : Nat
  /-- The byte of the source behind the value. -/
  stop : Nat
  deriving DecidableEq

/-! ## The mark of importance -/

/-- The word behind the exclamation mark. -/
def importantWord : Text := ['i', 'm', 'p', 'o', 'r', 't', 'a', 'n', 't']

/-- `splitImportant raw` = the value written as `raw`, and whether it is important: blanks around it
    do not count, and at its end neither do an exclamation mark and the word, in any case, with
    blanks before, between and behind them. -/
def splitImportant (raw : Text) : Text × Bool :=
  let value := Text.trim raw
  let head := Text.trimEnd (value.take (value.length - importantWord.length))
  let word := value.drop (value.length - importantWord.length)
  if Text.eqIgnoreCase word importantWord ∧ head.getLast? = some '!' then
    (Text.trimEnd head.dropLast, true)
  else (value, false)

/-! ## Reading -/

/-- Whether a name is that of a custom property. -/
def isCustomName : Text → Bool
  | '-' :: '-' :: _ => true
  | _ => false

/-- Property names count without case, except for those of custom properties. -/
def propertyName (name : Text) : Text := if isCustomName name then name else Text.lower name

/-- `Declaration.ofParts name pos raw` = the declaration of `name` with the text `raw` behind its
    colon, where `raw` starts at the byte `pos` of the source. -/
def Declaration.ofParts (name : Text) (pos : Nat) (raw : Text) : Declaration :=
  let (value, important) := splitImportant raw
  let start := pos + Text.byteLength (raw.takeWhile Text.isBlank)
  ⟨propertyName name, value, important, start, start + Text.byteLength value⟩

end Translucent
