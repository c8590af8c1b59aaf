import Translucent.Options
import Translucent.Stylesheet.Items
import Translucent.Value.Expansion
import Translucent.Visitor

/-!
  # Plugins

  A plugin gives each declaration a new value, which depends on its property and its value.  It runs
  as a visitor, on anything that visitors can be led through: a style sheet, or a plain list of
  properties with values.

  `Expander.plugin` is the plugin that expands shorthands, and `restyle` the way of a style sheet
  through plugins, from text to text.
-/

namespace Translucent

/-- A change of values, with a name. -/
structure Plugin where
  /-- The name of the plugin. -/
  name : Text
  /-- The new value of a property with a value. -/
  newValue : (property value : Text) → Text

namespace Plugin

/-- `run p s` = `s` with the values that `p` gives. -/
def run {τ : Type} [DeclarationSource τ] (p : Plugin) (s : τ) : τ :=
  (DeclarationSource.forEach (fun property value _ => (p.newValue property value, ())) s ()).1

/-- `runAll ps s` = `s` after each of the plugins in turn. -/
def runAll {τ : Type} [DeclarationSource τ] (ps : List Plugin) (s : τ) : τ :=
  ps.foldl (fun s p => p.run s) s

end Plugin

/-- `restyle css ps` = the style sheet `css` after each of the plugins in turn. -/
def restyle (css : Text) (ps : List Plugin) : Text := (Plugin.runAll ps (Stylesheet.ofText css)).text

/-! ## The expansion of shorthands -/

/-- The expansion of shorthands with its options. -/
structure Expander where
  /-- The options that it was made with. -/
  options : Options
  deriving DecidableEq

/-- The plugin that expands the shorthands in every value. -/
def Expander.plugin (_ : Expander) : Plugin :=
  ⟨['c', 'o', 'l', 'o', 'r', '-', 'a', 'l', 'p', 'h', 'a'], fun _ value => expanded value⟩

/-- The visitor that expands shorthands: it sets a value only if it has an expansion. -/
def Expander.visitor (_ : Expander) : Visitor Unit := fun _ value _ =>
  match expand value with
  | some w => (w, ())
  | none => (value, ())

/-- `expandStylesheet css options` = the style sheet `css` with all shorthands expanded. -/
def expandStylesheet (css : Text) (options : Options) : Text :=
  restyle css [Expander.plugin ⟨options⟩]

end Translucent
