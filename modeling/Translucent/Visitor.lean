import Translucent.Stylesheet

/-!
  # Visitors

  A visitor goes from declaration to declaration; it is shown a property with its
  value, sets the value, and may remember something on its way.

  1. **Traversals** — `Stylesheet.traverse` goes through a style sheet: the declarations outside all rules first, then
     those of each rule in turn.
  2. **Sources** — a `DeclarationSource` is what visitors can be led through: a style sheet, or a plain list of
     properties with values.
-/

namespace Translucent

/-! ## Traversals -/

/-- `traverseList f xs a` = the list `xs` with each element replaced by what `f` makes of it and of what is remembered
    by then, and what is remembered in the end; in the beginning it is `a`. -/
def traverseList {α σ : Type} (f : α → σ → α × σ) : List α → σ → List α × σ
  | [], a => ([], a)
  | x :: xs, a =>
    let (y, a) := f x a
    let (ys, a) := traverseList f xs a
    (y :: ys, a)

namespace Rule

mutual

/-- The same for the declarations of a rule: its own, then those of its rules in turn. -/
def traverse {σ : Type} (f : Declaration → σ → Declaration × σ) : Rule → σ → Rule × σ
  | mk h ds rs, a =>
    let (ds, a) := traverseList f ds a
    let (rs, a) := traverseAll f rs a
    (mk h ds rs, a)

/-- The same for the declarations of rules in turn. -/
def traverseAll {σ : Type} (f : Declaration → σ → Declaration × σ) : List Rule → σ → List Rule × σ
  | [], a => ([], a)
  | r :: rs, a =>
    let (r, a) := traverse f r a
    let (rs, a) := traverseAll f rs a
    (r :: rs, a)

end

end Rule

namespace Stylesheet

/-- The same for the declarations of a sheet: those outside all rules, then those of each rule in turn. -/
def traverse {σ : Type} (f : Declaration → σ → Declaration × σ) (s : Stylesheet) (a : σ) : Stylesheet × σ :=
  let (declarations, a) := traverseList f s.declarations a
  let (rules, a) := Rule.traverseAll f s.rules a
  ({ s with declarations, rules }, a)

/-- The declarations that a traversal comes to, in its order. -/
def visited (s : Stylesheet) : List Declaration := (s.traverse (fun d seen => (d, seen ++ [d])) []).2

end Stylesheet

/-! ## Sources -/

/-- A visitor that remembers a `σ`: of a property, its value and what is remembered it makes the new value and what is
    remembered from then on. -/
abbrev Visitor (σ : Type) := (property value : Text) → σ → Text × σ

/-- What visitors can be led through. -/
class DeclarationSource (τ : Type) where
  /-- `forEach v s a` = `s` with the values that the visitor `v` sets, and what `v` remembers in the end if it is `a` in
      the beginning. -/
  forEach : {σ : Type} → Visitor σ → τ → σ → τ × σ

instance : DeclarationSource Stylesheet where
  forEach v := Stylesheet.traverse fun d a =>
    let (value, a) := v d.name d.value a
    ({ d with value }, a)

instance : DeclarationSource (List (Text × Text)) where
  forEach v := traverseList fun (property, value) a =>
    let (value, a) := v property value a
    ((property, value), a)

/-- The properties of a sheet with their values, as a visitor is shown them. -/
def Stylesheet.entries (s : Stylesheet) : List (Text × Text) := s.visited.map fun d => (d.name, d.value)

end Translucent
