import Translucent.Value.Scanner

/-!
  # Expanding the shorthands of a value

  `expand v` puts the standard text of each shorthand of `v` in its place and keeps everything between
  them as written.  A value without shorthands has no expansion.
-/

namespace Translucent

/-- `replaceFrom cursor v os` = the text `v` from the byte `cursor` on, with the span of each of `os`
    replaced by the standard text of its shorthand; nothing if the spans are out of order or do not
    fit the text. -/
def replaceFrom (cursor : Nat) (v : Text) : List Occurrence → Option Text
  | [] => Text.dropBytes cursor v
  | o :: os => do
    let between ← Text.slice? cursor o.start v
    let rest ← replaceFrom o.stop v os
    return between ++ o.shorthand.standard ++ rest

/-- `expand v` = the value `v` with its shorthands expanded, if it has any. -/
def expand (v : Text) : Option Text :=
  match occurrencesIn v with
  | [] => none
  | os => replaceFrom 0 v os

/-- `expanded v` = `v` with its shorthands expanded, or `v` itself. -/
def expanded (v : Text) : Text := (expand v).getD v

end Translucent
