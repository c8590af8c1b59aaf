import Translucent.Rule

/-!
  # Style sheets

  A style sheet keeps the text it was read from, its source, beside its declarations and rules.

  1. **Order** — `visit` takes the declarations of a level before its rules; `inOrder` sorts what is
     visited by where the values start in the source, keeping the order of those that start at the
     same byte.
  2. **Mapping** — `map` changes all declarations alike.
  3. **Edits** — values and spans can be set and declarations and rules dropped, wherever they
     stand.  The source is never touched.
  4. **Text** — `text` writes the source with the span of each declaration replaced by its value.
     What was dropped stays as it is in the source.
-/

namespace Translucent

/-- A source with the declarations and rules that were found in it. -/
structure Stylesheet where
  /-- The text that the sheet was read from. -/
  source : Text
  /-- The declarations outside all rules. -/
  declarations : List Declaration
  /-- The rules outside all others. -/
  rules : List Rule
  deriving DecidableEq

namespace Stylesheet

/-- The sheet of an empty text. -/
def empty : Stylesheet := ⟨[], [], []⟩

/-! ## Order -/

/-- The declarations of a sheet: those outside all rules, then those of each rule in turn. -/
def visit (s : Stylesheet) : List Declaration := s.declarations ++ Rule.visitAll s.rules

/-- The declarations of a sheet by where their values start in the source. -/
def inOrder (s : Stylesheet) : List Declaration :=
  s.visit.mergeSort fun d e => d.start ≤ e.start

/-! ## Mapping -/

/-- `map f s` = the sheet `s` with each declaration replaced by what `f` makes of it. -/
def map (f : Declaration → Declaration) (s : Stylesheet) : Stylesheet :=
  { s with declarations := s.declarations.map f, rules := Rule.mapAll f s.rules }

/-- Mapping a sheet maps what it visits. -/
theorem visit_map (f : Declaration → Declaration) (s : Stylesheet) : (s.map f).visit = s.visit.map f := by
  rw [visit, visit, List.map_append, ← Rule.visitAll_mapAll]
  rfl

/-- `mapValues f s` = `s` with each value replaced by what `f` makes of property and value. -/
def mapValues (f : (property value : Text) → Text) : Stylesheet → Stylesheet :=
  map fun d => { d with value := f d.name d.value }

/-! ## Edits -/

/-- `revise f s` = the sheet `s` with each declaration, numbered in the order of `visit`, replaced
    by what `f` makes of it. -/
def revise (f : Nat → Declaration → Option Declaration) (s : Stylesheet) : Stylesheet :=
  { s with
    declarations := Rule.reviseList f 0 s.declarations
    rules := Rule.reviseAll f s.declarations.length s.rules }

/-- Revising a sheet is revising what it visits. -/
theorem visit_revise (f : Nat → Declaration → Option Declaration) (s : Stylesheet) :
    (s.revise f).visit = Rule.reviseList f 0 s.visit := by
  rw [visit, visit, revise, Rule.reviseList_append, Rule.visitAll_reviseAll, Nat.zero_add]

/-- Without regard to numbers, and with none dropped, revising a sheet is mapping it. -/
theorem revise_some (g : Declaration → Declaration) (s : Stylesheet) :
    (s.revise fun _ d => some (g d)) = s.map g := by
  rw [revise, map, Rule.reviseList_some, Rule.reviseAll_some]

/-- `reviseAt i f s` = the sheet `s` with its `i`-th visited declaration replaced by what `f` makes
    of it. -/
def reviseAt (i : Nat) (f : Declaration → Option Declaration) (s : Stylesheet) : Stylesheet :=
  s.revise (Rule.onlyAt i f)

/-- `setValue i v s` = `s` with `v` as the value of the `i`-th visited declaration. -/
def setValue (i : Nat) (v : Text) : Stylesheet → Stylesheet :=
  reviseAt i fun d => some { d with value := v }

/-- `setSpan i start stop s` = `s` with the span of the `i`-th visited declaration set, whether or
    not that makes sense. -/
def setSpan (i start stop : Nat) : Stylesheet → Stylesheet :=
  reviseAt i fun d => some { d with start, stop }

/-- `remove i s` = `s` without its `i`-th visited declaration. -/
def remove (i : Nat) : Stylesheet → Stylesheet := reviseAt i fun _ => none

/-- `insert d s` = `s` with `d` as the last declaration outside all rules. -/
def insert (d : Declaration) (s : Stylesheet) : Stylesheet :=
  { s with declarations := s.declarations ++ [d] }

/-- `dropRule path s` = `s` without the rule that `path` leads to. -/
def dropRule (path : List Nat) (s : Stylesheet) : Stylesheet :=
  { s with rules := Rule.dropAt path s.rules }

/-! ## Text -/

/-- `splice source cursor ds` = the text `source` from the byte `cursor` on with the values of `ds`
    in place of their spans.  Where a span starts before the cursor or within a character, nothing
    is copied before its value. -/
def splice (source : Text) (cursor : Nat) : List Declaration → Text
  | [] => (Text.dropBytes cursor source).getD []
  | d :: ds =>
    (Text.slice? cursor d.start source).getD [] ++ d.value ++ splice source d.stop ds

/-- `text s` = the text of the sheet with its current values. -/
def text (s : Stylesheet) : Text := splice s.source 0 s.inOrder

end Stylesheet

end Translucent
