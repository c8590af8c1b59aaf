import Translucent.Json.Check
import Translucent.Text.Blank

/-!
  # Options

  The options of the expansion, read from JSON.  No option has an effect yet; names that are not
  known are passed over, so that an object shared with other tools can be read.
-/

namespace Translucent

/-- The options of the expansion. -/
structure Options where
  deriving DecidableEq, Inhabited

/-- Why options cannot be read. -/
inductive OptionsError
  /-- The text is neither blank nor an object. -/
  | malformed
  deriving DecidableEq

/-- The words for an error. -/
def OptionsError.message : OptionsError → String
  | malformed => "invalid color-alpha options"

/-- `Options.ofJson t` = the options written as the JSON text `t`; a blank text writes none. -/
def Options.ofJson (t : Text) : Except OptionsError Options :=
  if (Text.trim t).isEmpty then .ok {}
  else if Json.isObject t then .ok {}
  else .error .malformed

end Translucent
