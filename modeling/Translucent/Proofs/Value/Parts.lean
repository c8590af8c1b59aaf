import Translucent.Proofs.Content.Closed
import Translucent.Proofs.Value.Spans

/-!
  # Values in parts

  What is found in a part of a value depends neither on what stands around the part nor on where it stands, if nothing
  in it is left open.

  1. **Cuts in a row** — `Respelled.join`: two texts that are cut by spans are cut one behind the other; the expansion of
     a value is what its cuts make of it (`cut_expanded`, `expanded_of_respelled`).
  2. **Moving** — further behind in a text the same shorthands are found, with their spans moved
     (`occurrences_shift`).
  3. **Lists** — before a comma nothing else is found than alone (`occurrencesIn_comma`).
  4. **Calls** — inside a call without a meaning of its own, neither (`occurrencesIn_call`).

  **Main statement** — `expanded_parts`.
-/

namespace Translucent

open Content

/-! ## Cuts in a row -/

/-- One text behind another, each with its own spans. -/
theorem Respelled.join {pos : Nat} {s t out out' : Text} {os ps : List Occurrence} (hs : Respelled pos s os out)
    (ht : Respelled (pos + Text.byteLength s) t ps out') : Respelled pos (s ++ t) (os ++ ps) (out ++ out') := by
  induction hs with
  | rest pos s => exact ht.prepend s
  | @shorthand pos gap old rest out o os start stop some_text _ ih =>
    have here : o.stop + Text.byteLength rest = pos + Text.byteLength (gap ++ (old ++ rest)) := by
      simp only [Text.byteLength_append]
      omega
    have whole := Respelled.shorthand start stop some_text (ih (here ▸ ht))
    simpa only [List.append_assoc, List.cons_append] using whole

/-- The spans found in a value make its expansion of it, or leave the value as it is. -/
theorem cut_expanded (v : Text) : Respelled 0 v (occurrencesIn v) (expanded v) := by
  obtain ⟨out, cut⟩ := exists_respelled v
  by_cases none_found : occurrencesIn v = []
  · have stays : expanded v = v := by
      rw [expanded, expand, none_found]
      rfl
    rw [none_found, stays]
    exact .rest 0 v
  · rw [expanded, cut.expand_eq none_found]
    exact cut

/-- Whatever the spans found in a value make of it is its expansion. -/
theorem expanded_of_respelled {v out : Text} (cut : Respelled 0 v (occurrencesIn v) out) : expanded v = out :=
  (cut_expanded v).unique cut [] rfl

/-! ## Moving -/

namespace Content

/-- Further behind in a text the same is found, with the spans moved. -/
theorem occurrences_shift (c : Content) (depth start pos n : Nat) :
    c.occurrences depth (start + n) (pos + n) = (c.occurrences depth start pos).map (·.shift n) := by
  induction c generalizing depth start pos with
  | nil => rfl
  | leaf l rest ih =>
    have next : pos + n + Text.byteLength l.text = pos + Text.byteLength l.text + n := Nat.add_right_comm ..
    rw [occurrences, occurrences, next, ih]
    cases hexShorthand? l rest with
    | none => rfl
    | some found =>
      have stop : pos + Text.byteLength l.text + n + Text.byteLength found.2.text
          = pos + Text.byteLength l.text + Text.byteLength found.2.text + n := Nat.add_right_comm ..
      dsimp only
      rw [stop]
      rfl
  | block o t body closed rest ihb ihr =>
    have inner : pos + n + Text.byteLength t = pos + Text.byteLength t + n := Nat.add_right_comm ..
    have next : pos + Text.byteLength t + n + body.width + closingWidth closed
        = pos + Text.byteLength t + body.width + closingWidth closed + n := by omega
    by_cases deep : maxSearchDepth ≤ depth
    · rw [occurrences_deep deep, occurrences_deep deep, inner, next, ihr]
    · have shallow := Nat.lt_of_not_le deep
      rw [occurrences_shallow shallow, occurrences_shallow shallow]
      dsimp only
      rw [inner, next, ihb, ihr, List.map_append]
      cases whole? o body closed with
      | some s => rfl
      | none =>
        dsimp only
        split <;> rfl

/-! ## Lists -/

/-- A comma behind digits is as good as the end of the row. -/
theorem hexShorthand?_comma (l : Lexeme) (rest d : Content) :
    hexShorthand? l (rest.append (.leaf ⟨.comma, [',']⟩ d)) = hexShorthand? l rest := by
  cases rest with
  | nil =>
    rw [hexShorthand?_of_next (by simp), hexShorthand?_of_next (by simp)]
  | leaf n after =>
    have ends : (after.append (.leaf ⟨.comma, [',']⟩ d)).mayEndColor = after.mayEndColor := by
      cases after <;> rfl
    obtain ⟨k, t⟩ := l
    cases k with
    | hash digits => simp only [leaf_append, hexShorthand?, ends]
    | _ => rfl
  | block o t body closed rest =>
    rw [hexShorthand?_of_next (by simp), hexShorthand?_of_next (by simp)]

/-- **Before a comma** a row holds what it holds alone, and behind the comma there is what is there alone. -/
theorem occurrences_comma (c d : Content) {depth : Nat} (shallow : depth < maxSearchDepth) (start pos : Nat) :
    (c.append (.leaf ⟨.comma, [',']⟩ d)).occurrences depth start pos
      = c.occurrences depth start pos ++ d.occurrences depth (pos + c.width + 1) (pos + c.width + 1) := by
  induction c generalizing start pos with
  | nil =>
    have no_shorthand := hexShorthand?_of_ne (l := ⟨.comma, [',']⟩) (by simp) d
    have one : Text.byteLength [','] = 1 := rfl
    simp only [nil_append, occurrences, no_shorthand, one, width, Nat.add_zero, List.nil_append]
  | leaf l rest ih =>
    have behind : pos + Text.byteLength l.text + rest.width + 1 = pos + (leaf l rest).width + 1 := by
      rw [width]
      omega
    rw [leaf_append, occurrences, occurrences, hexShorthand?_comma, ih, behind]
    cases hexShorthand? l rest with
    | none => rfl
    | some found => rfl
  | block o t body closed rest _ ih =>
    have behind : pos + Text.byteLength t + body.width + closingWidth closed + rest.width + 1
        = pos + (block o t body closed rest).width + 1 := by
      rw [width]
      omega
    rw [block_append, occurrences_shallow shallow, occurrences_shallow shallow]
    dsimp only
    rw [ih, behind, List.append_assoc]

end Content

/-- Before a comma the same is found as alone, and behind it what is found there alone, moved. -/
theorem occurrencesIn_comma {v : Text} (h : SelfContained v) (w : Text) :
    occurrencesIn (v ++ ',' :: w)
      = occurrencesIn v ++ (occurrencesIn w).map (·.shift (Text.byteLength v + 1)) := by
  have here : 0 + (ofText v).width + 1 = 0 + (Text.byteLength v + 1) := by
    rw [width_eq, text_ofText, Nat.zero_add, Nat.zero_add]
  rw [occurrencesIn_eq, h.ofText_comma, occurrences_comma _ _ (by decide), here, occurrences_shift, occurrencesIn_eq,
    occurrencesIn_eq]

/-! ## Calls -/

/-- Whether a name of letters is that of a call without a meaning of its own: neither a shorthand nor a colour, and no
    address. -/
structure CallName.IsOrdinary (f : Text) : Prop where
  /-- There are letters, and nothing else. -/
  letters : f ≠ [] ∧ f.all Char.isAlpha = true
  /-- It is no shorthand. -/
  shorthand : f ≠ black ∧ f ≠ white
  /-- It is no colour of its own. -/
  color : f ∉ colors
  /-- It is not `url`, in any case. -/
  address : Token.isUrlName f = false

/-- A call without a meaning of its own is searched. -/
theorem CallName.IsOrdinary.searched {f : Text} (h : IsOrdinary f) (body : Content) (closed : Bool) :
    whole? (.call f) body closed = none ∧ isSearched (.call f) body = true := by
  have rgba : f ≠ CallName.rgba := by
    rintro rfl
    exact h.color (by decide)
  have none_called : call? f body = none := by
    rw [call?, if_neg h.shorthand.1, if_neg h.shorthand.2, if_neg rgba]
  have no_color : CallName.colors.contains f = false :=
    Bool.eq_false_iff.mpr fun found => h.color (List.contains_iff_mem.mp found)
  constructor
  · rw [whole?, none_called]
    exact ite_self none
  · rw [isSearched, none_called, no_color]
    rfl

/-- In such a call the same is found as alone, moved. -/
theorem occurrencesIn_call {f v : Text} (name : CallName.IsOrdinary f) (h : SelfContained v)
    (matched : (ofText v).isMatched = true) (depth : (ofText v).depth < maxSearchDepth) :
    occurrencesIn (f ++ '(' :: (v ++ [')']))
      = (occurrencesIn v).map (·.shift (Text.byteLength (f ++ ['(']))) := by
  obtain ⟨no_shorthand, searched⟩ := name.searched (ofText v) true
  have shallow : 0 < maxSearchDepth := by decide
  -- the depth does not matter to a body that fits within both
  have same (p : Nat) : (ofText v).occurrences 1 p p = (ofText v).occurrences 0 p p := by
    rw [occurrences_eq_shorthands _ 1 p (by omega), occurrences_eq_shorthands _ 0 p (by omega)]
  rw [occurrencesIn_eq, h.ofText_call matched name.letters.2 name.letters.1 name.address, occurrences_shallow shallow,
    no_shorthand]
  dsimp only
  rw [if_pos searched, same, occurrences_shift, ← occurrencesIn_eq]
  exact List.append_nil _

/-! ## Expansions -/

/-- **Values are expanded part by part.**  Before a comma a text that stands for itself is expanded as it is alone, and
    so is all that follows the comma, whatever it is; and in a call without a meaning of its own such a text is
    expanded as it is alone, if it has no closing brackets to spare and its blocks are not too deep there. -/
theorem expanded_parts :
    (∀ v w : Text, SelfContained v → expanded (v ++ ',' :: w) = expanded v ++ ',' :: expanded w)
      ∧ ∀ f v : Text, CallName.IsOrdinary f → SelfContained v → (ofText v).isMatched = true
        → (ofText v).depth < maxSearchDepth → expanded (f ++ '(' :: (v ++ [')'])) = f ++ '(' :: (expanded v ++ [')']) := by
  constructor
  · intro v w h
    have behind := (cut_expanded w).shift (Text.byteLength v + 1)
    have here : 0 + (Text.byteLength v + 1) = 0 + Text.byteLength v + Text.byteLength [','] := by
      rw [Nat.zero_add, Nat.zero_add]
      rfl
    rw [here] at behind
    have cut := (cut_expanded v).join (behind.prepend [','])
    rw [← occurrencesIn_comma h w] at cut
    exact expanded_of_respelled cut
  · intro f v name h matched depth
    have inside := (cut_expanded v).shift (Text.byteLength (f ++ ['(']))
    have cut := (inside.prepend (f ++ ['('])).append [')']
    rw [← occurrencesIn_call name h matched depth] at cut
    simp only [List.append_assoc, List.cons_append, List.nil_append] at cut
    exact expanded_of_respelled cut

/-- Digits with an opacity before a comma and a bracket that closes nothing, and in a call. -/
theorem expanded_parts_list_and_call :
    let v := ['#', 'f', 'f', 'f', '.', '5']
    let c := ['r', 'g', 'b', 'a', '(', '2', '5', '5', ',', ' ', '2', '5', '5', ',', ' ', '2', '5', '5', ',', ' ',
      '0', '.', '5', ')']
    expanded (v ++ [',', ')']) = c ++ [',', ')'] ∧ expanded ('f' :: '(' :: (v ++ [')'])) = 'f' :: '(' :: (c ++ [')']) := by
  intro v c
  have contained : SelfContained v := ⟨by decide, by decide⟩
  have name : CallName.IsOrdinary ['f'] := ⟨by decide, by decide, by decide, by decide⟩
  have alone : expanded v = c := by
    rw [expanded, expand_eq_replaced (by decide), occurrencesIn_eq]
    decide
  have nothing : expanded [')'] = [')'] := by
    rw [expanded, expand_eq_replaced (by decide), occurrencesIn_eq]
    decide
  have list := expanded_parts.1 v [')'] contained
  have call := expanded_parts.2 ['f'] v name contained (by decide) (by decide)
  rw [alone] at list call
  rw [nothing] at list
  exact ⟨list, call⟩

end Translucent
