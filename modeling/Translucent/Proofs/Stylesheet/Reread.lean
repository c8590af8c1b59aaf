import Translucent.Proofs.Stylesheet.Exchange

/-!
  # Reading an edited sheet again

  A sheet with a value set is read again as it is, if the value is one that may be printed.

  1. **Setting a value** — what is done to a declaration by its number depends on the declaration alone, as no
     two of them start at the same byte (`setValue_eq_revalue`).
  2. **Printed values** — `admits_value`: they may stand in the place of any value, whatever that was.

  **Main statement** — `ofText_setValue`.
-/

namespace Translucent

open Content

/-! ## Setting a value -/

namespace Stylesheet

/-- `valueAt i v css` = the value of a declaration of the sheet once `v` is set at the `i`-th visited one. -/
def valueAt (i : Nat) (v css : Text) (d : Declaration) : Text := if (ofText css).visit[i]? = some d then v else d.value

/-- No declaration is visited twice, as no two of them start at the same byte. -/
theorem nodup_visit (css : Text) : (ofText css).visit.Nodup := by
  refine (perm_inSource css).nodup_iff.mpr ((placed_inSource css).pairwise.2.imp fun less same => ?_)
  rw [same] at less
  exact Nat.lt_irrefl _ less

/-- Setting a value by its number is setting it at the declaration that has the number. -/
theorem setValue_eq_revalue (i : Nat) (v css : Text) :
    (ofText css).setValue i v = (ofText css).map (Declaration.revalue (valueAt i v css)) := by
  rw [← revise_some]
  refine revise_congr fun x hx => ?_
  rw [List.mem_zipIdx_iff_getElem?] at hx
  rw [Rule.onlyAt, Declaration.revalue, valueAt]
  by_cases same : x.2 = i
  · rw [if_pos same, ← same, if_pos hx]
  · have other : (ofText css).visit[i]? ≠ some x.1 := by
      intro found
      obtain ⟨less, -⟩ := List.getElem?_eq_some_iff.mp hx
      exact same ((List.getElem?_inj less (nodup_visit css)).mp (hx.trans found.symm))
    rw [if_neg same, if_neg other]

end Stylesheet

/-! ## Printed values -/

namespace Draft

/-- **A value that may be printed may stand in the place of any value.** -/
theorem admits_value {stack : List Bracket} (hs : stack.head? ≠ some .round) (value : Content) (z : Text)
    (v : Value) : Admits stack value z v.1 := by
  intro z' borders
  obtain ⟨v, hv⟩ := v
  obtain ⟨chars, balanced, trimmed⟩ := plain_of_isValue hv
  have before := plain_of_blank (blank_takeWhile value.text)
  have behind := plain_of_behind (behind_value value.text)
  have plain : ∀ c ∈ respelled value.text v, Character.isPlain c = true := by
    intro c hc
    rw [respelled] at hc
    rcases List.mem_append.mp hc with hc | hc
    · exact (before c hc).1
    · rcases List.mem_append.mp hc with hc | hc
      · exact isPlain_of_isChar (chars c hc)
      · exact (behind c hc).1
  have closed : parens 0 (respelled value.text v) = some 0 := by
    rw [respelled, parens_append, parens_of_none fun c hc => (before c hc).2, Option.bind_some, parens_append,
      balanced]
    exact parens_of_none (fun c hc => (behind c hc).2) 0
  obtain ⟨new, quiet, text, levels⟩ := levels_quiet borders.stop hs plain closed
  refine ⟨new, quiet, text, ?_, by rw [text, levels]⟩
  rw [text]
  have own : splitImportant v = (v, false) := by
    have mark := splitImportant_mark trimmed chars (noMark_of_isValue hv) false
    rwa [importantMark, if_neg Bool.false_ne_true, List.append_nil] at mark
  exact splitImportant_respelled value.text (ne_nil_of_isTrimmed trimmed) (head_of_isTrimmed trimmed chars)
    (last_of_isTrimmed trimmed chars) fun _ => own

end Draft

namespace Stylesheet

theorem bare_setValue (css : Text) (i : Nat) (v : Draft.Value) :
    (ofText ((ofText css).setValue i v.1).text).bare = ((ofText css).setValue i v.1).bare := by
  rw [setValue_eq_revalue]
  refine ofText_exchange css ?_
  intro stack value z name pos hs quiet spelled _ _
  rw [valueAt]
  split
  · exact Draft.admits_value hs value z v
  · exact admits_self quiet spelled

/-- **Reading a sheet with a value set**: the same rules and declarations are read, with that value, whatever
    it was set in.  Each declaration has a number among those that are visited; the one with the number `i` has the
    value that was set, and all others have theirs. -/
theorem ofText_setValue (css : Text) (i : Nat) (v : Draft.Value) :
    let sheet := ofText css
    let edited := sheet.setValue i v.1
    let again := ofText edited.text
    again.bare = edited.bare
      ∧ (edited = sheet.map fun d => if sheet.visited[i]? = some d then { d with value := v.1 } else d)
      ∧ (∀ j : Nat, again.visited[j]?.map Declaration.bare
        = sheet.visited[j]?.map fun d => if j = i then { d.bare with value := v.1 } else d.bare)
      ∧ ∀ d, sheet.Holds d ↔ ∃ j : Nat, sheet.visited[j]? = some d := by
  intro sheet edited again
  have same : again.bare = edited.bare := bare_setValue css i v
  refine ⟨same, ?_, fun j => ?_, fun d => ?_⟩
  · rw [visited_eq, show edited = _ from setValue_eq_revalue i v.1 css]
    congr 1
    funext d
    rw [Declaration.revalue, valueAt]
    split <;> rfl
  · have list := congrArg visit same
    rw [visit_bare, visit_bare, show edited.visit = _ from visit_setValue i v.1 sheet] at list
    rw [visited_eq, visited_eq, ← List.getElem?_map, list, List.getElem?_map, List.getElem?_modify]
    by_cases here : j = i
    · subst here
      cases sheet.visit[j]? <;> simp [Declaration.bare]
    · simp [here, Ne.symm here]
  · rw [← mem_visit_iff, visited_eq]
    exact List.mem_iff_getElem?

/-- In `a{b:c!important;@d{e:(}}f` a parenthesis is left open in the value of `e`, which is set. -/
theorem ofText_setValue_open :
    let css : Text := ['a', '\x7b', 'b', ':', 'c', '!', 'i', 'm', 'p', 'o', 'r', 't', 'a', 'n', 't', ';', '@', 'd',
      '\x7b', 'e', ':', '(', '\x7d', '\x7d', 'f']
    let v : Draft.Value := ⟨['x', ' ', 'y'], rfl⟩
    let sheet := ofText css
    let edited := sheet.setValue 1 v.1
    let again := ofText edited.text
    sheet.visited = [⟨['b'], ['c'], true, 4, 5⟩, ⟨['e'], ['(', '\x7d', '\x7d', 'f'], false, 21, 25⟩]
      ∧ again.bare = ⟨[], [], [.mk (.style ['a']) [⟨['b'], ['c'], true, 0, 0⟩]
        [.mk (.atRule ['d'] []) [⟨['e'], ['x', ' ', 'y'], false, 0, 0⟩] []]]⟩
      ∧ (again.visited[0]?.map Declaration.bare = some ⟨['b'], ['c'], true, 0, 0⟩)
      ∧ again.visited[1]?.map Declaration.bare = some ⟨['e'], ['x', ' ', 'y'], false, 0, 0⟩ := by
  intro css v sheet edited again
  obtain ⟨same, -, numbered, -⟩ := ofText_setValue css 1 v
  have visited : sheet.visited = [⟨['b'], ['c'], true, 4, 5⟩, ⟨['e'], ['(', '\x7d', '\x7d', 'f'], false, 21, 25⟩] := by
    decide +kernel
  refine ⟨visited, same.trans (by decide +kernel), (numbered 0).trans ?_, (numbered 1).trans ?_⟩
  · rw [show (ofText css).visited = _ from visited]
    rfl
  · rw [show (ofText css).visited = _ from visited]
    rfl

end Stylesheet

end Translucent
