import Translucent.Proofs.Stylesheet.Respelled

/-!
  # Levels and the order of the source

  A level of a style sheet keeps its declarations and its rules in two lists, so what of them comes first in the
  source is to be seen from spans alone.

  1. **One behind the other** — the values of the declarations of all levels stand one behind the other in the
     source (`Placed.before`), each as the text of its own span (`Placed.exists_cut`).
  2. **Arranged levels** — `Arranged` is what spans tell about the two lists of a level.  Items that stand one behind
     the other are sorted into such lists (`Items.arranged`).
  3. **All levels** — each is the level of a row of items (`exists_items`), whose declarations come in the order of the
     row that holds it.

  **Main statement** — `arranged_ofText`.
-/

namespace Translucent

/-! ## One behind the other -/

/-- Whether the span of one declaration, from its start to its stop, ends before that of another starts. -/
def Declaration.Before (d e : Declaration) : Prop := d.start ≤ d.stop ∧ d.stop < e.start

/-- What a declaration that was read tells about the text it was read from. -/
structure Declaration.Covers (css : Text) (d : Declaration) : Prop where
  /-- The value stands between two parts of the text, and its span is counted in their bytes. -/
  cut : ∃ before behind, css = before ++ (d.value ++ behind) ∧ d.start = Text.byteLength before
    ∧ d.stop = Text.byteLength (before ++ d.value)
  /-- The text at the span is the value. -/
  slice : Text.slice? d.start d.stop css = some d.value
  /-- The value starts with no blank. -/
  head : ∀ c ∈ d.value.head?, Text.isBlank c = false
  /-- The value ends in no blank. -/
  last : ∀ c ∈ d.value.getLast?, Text.isBlank c = false

namespace Placed

/-- Values end before the next one starts. -/
theorem before {pos : Nat} {t : Text} {ds : List Declaration} (h : Placed pos t ds) :
    ds.Pairwise Declaration.Before := by
  induction h with
  | nil => exact .nil
  | cons _ _ stop behind ih =>
    exact .cons (fun e he => ⟨stop ▸ Nat.le_add_right _ _, behind.pairwise.1 e he⟩) ih

/-- A value stands between what is before it and what is behind it. -/
theorem exists_cut {pos : Nat} {t : Text} {ds : List Declaration} (h : Placed pos t ds) {d : Declaration}
    (hd : d ∈ ds) : ∃ before behind, t = before ++ (d.value ++ behind)
      ∧ d.start = pos + Text.byteLength before ∧ d.stop = pos + Text.byteLength (before ++ d.value) := by
  induction h with
  | nil => exact absurd hd List.not_mem_nil
  | @cons pos gap rest e ds lead start stop _ ih =>
    rcases List.mem_cons.mp hd with rfl | hd
    · refine ⟨gap, rest, rfl, start, ?_⟩
      rw [stop, start, Text.byteLength_append, Nat.add_assoc]
    · obtain ⟨before, behind, rfl, start', stop'⟩ := ih hd
      refine ⟨gap ++ (e.value ++ before), behind, by simp only [List.append_assoc], ?_, ?_⟩
      · simp only [Text.byteLength_append] at stop' ⊢
        omega
      · simp only [Text.byteLength_append] at stop' ⊢
        omega

end Placed

/-! ## Arranged levels -/

/-- What spans tell about the declarations and rules of one level. -/
structure Arranged (ds : List Declaration) (rs : List Rule) : Prop where
  /-- The declarations of the level stand one behind the other. -/
  declarations : ds.Pairwise Declaration.Before
  /-- So do its rules, with all that is in them. -/
  rules : rs.Pairwise fun r s => ∀ d ∈ r.visit, ∀ e ∈ s.visit, d.Before e
  /-- A declaration of the level stands before all that is in a rule of it, or behind all of that. -/
  apart : ∀ d ∈ ds, ∀ r ∈ rs, (∀ e ∈ r.visit, d.Before e) ∨ ∀ e ∈ r.visit, e.Before d

namespace Items

theorem declarations_sublist (i : Items) : i.declarations.Sublist i.inSource := by
  induction i with
  | nil => exact .slnil
  | declaration d rest ih => exact ih.cons_cons d
  | rule h inner rest _ ih => exact ih.trans (List.sublist_append_right _ _)

/-- A rule of a row is made of a row of its own, which is read from a part of the text. -/
theorem exists_inner {i : Items} {r : Rule} (hr : r ∈ i.rules) :
    ∃ h inner, r = .mk h (declarations inner) (rules inner) ∧ inner.inSource.Sublist i.inSource := by
  induction i with
  | nil => exact absurd hr List.not_mem_nil
  | declaration d rest ih =>
    obtain ⟨h, inner, made, within⟩ := ih hr
    exact ⟨h, inner, made, within.trans (List.sublist_cons_self _ _)⟩
  | rule h inner rest _ ih =>
    rcases List.mem_cons.mp hr with rfl | hr
    · exact ⟨h, inner, rfl, List.sublist_append_left _ _⟩
    · obtain ⟨h', inner', made, within⟩ := ih hr
      exact ⟨h', inner', made, within.trans (List.sublist_append_right _ _)⟩

/-- What a rule visits is what its row holds. -/
theorem mem_visit_iff (h : Heading) (inner : Items) (d : Declaration) :
    d ∈ (Rule.mk h inner.declarations inner.rules).visit ↔ d ∈ inner.inSource :=
  (perm_inSource inner).mem_iff

/-- What a rule of a row visits is held by the row. -/
theorem mem_inSource {i : Items} {r : Rule} (hr : r ∈ i.rules) {d : Declaration} (hd : d ∈ r.visit) :
    d ∈ i.inSource := by
  obtain ⟨h, inner, rfl, within⟩ := exists_inner hr
  exact within.subset ((mem_visit_iff h inner d).mp hd)

/-- **Items that stand one behind the other** are sorted into lists from which spans tell their order. -/
theorem arranged {i : Items} (order : i.inSource.Pairwise Declaration.Before) :
    Arranged i.declarations i.rules := by
  induction i with
  | nil => exact ⟨.nil, .nil, fun _ hd => absurd hd List.not_mem_nil⟩
  | declaration d rest ih =>
    obtain ⟨first, order⟩ := List.pairwise_cons.mp order
    obtain ⟨declarations, rules, apart⟩ := ih order
    refine ⟨.cons (fun e he => first e (rest.declarations_sublist.subset he)) declarations, rules, ?_⟩
    intro e he r hr
    rcases List.mem_cons.mp he with rfl | he
    · exact .inl fun e' he' => first e' (mem_inSource (i := rest) hr he')
    · exact apart e he r hr
  | rule h inner rest _ ih =>
    obtain ⟨-, order, between⟩ := List.pairwise_append.mp order
    obtain ⟨declarations, rules, apart⟩ := ih order
    have first (d : Declaration) (hd : d ∈ (Rule.mk h inner.declarations inner.rules).visit) (e : Declaration)
        (he : e ∈ rest.inSource) : d.Before e := between d ((mem_visit_iff h inner d).mp hd) e he
    refine ⟨declarations, .cons (fun s hs d hd e he => first d hd e (mem_inSource hs he)) rules, ?_⟩
    intro d hd r hr
    rcases List.mem_cons.mp hr with rfl | hr
    · exact .inr fun e he => first e he d (rest.declarations_sublist.subset hd)
    · exact apart d hd r hr

/-- A value that is read has no blanks around it. -/
theorem trimmed_ofContent (depth pos : Nat) (c : Content) : ∀ d ∈ (ofContent depth (.pass 0) pos c).inSource,
    (∀ x ∈ d.value.head?, Text.isBlank x = false) ∧ ∀ x ∈ d.value.getLast?, Text.isBlank x = false := by
  refine @ofContent_induction (fun _ _ _ items => ∀ d ∈ items.inSource,
    (∀ x ∈ d.value.head?, Text.isBlank x = false) ∧ ∀ x ∈ d.value.getLast?, Text.isBlank x = false)
    ?_ ?_ ?_ ?_ ?_ depth pos c
  · exact fun _ _ _ hd => absurd hd List.not_mem_nil
  · exact fun _ _ _ _ _ ih => ih
  · intro _ _ _ a _ _ ih d hd
    rcases List.mem_cons.mp hd with rfl | hd
    · exact trimmed_splitImportant a.value.text
    · exact ih d hd
  · exact fun _ _ _ _ _ _ ih => ih
  · intro _ _ _ _ _ _ _ _ _ _ _ _ _ ihi ihr d hd
    rcases List.mem_append.mp hd with hd | hd
    · exact ihi d hd
    · exact ihr d hd

end Items

/-! ## All levels -/

namespace Stylesheet

/-- A level that was read is sorted out of a row of items, which stand one behind the other. -/
theorem IsLevel.exists_items {css : Text} {ds : List Declaration} {rs : List Rule}
    (level : (ofText css).IsLevel ds rs) :
    ∃ i : Items, ds = i.declarations ∧ rs = i.rules ∧ i.inSource.Pairwise Declaration.Before := by
  induction level with
  | outside => exact ⟨Items.ofContent 0 (.pass 0) 0 (Content.ofText css), rfl, rfl, (placed_inSource css).before⟩
  | inside _ hr ih =>
    obtain ⟨i, -, rfl, order⟩ := ih
    obtain ⟨h, inner, rfl, within⟩ := Items.exists_inner hr
    exact ⟨inner, rfl, rfl, order.sublist within⟩

/-- What is read from a text covers its spans there. -/
theorem covers_ofText (css : Text) : ∀ d ∈ (ofText css).visit, d.Covers css := by
  intro d hd
  have mem : d ∈ inSource css := (perm_inSource css).mem_iff.mp hd
  obtain ⟨before, behind, cut, start, stop⟩ := (placed_inSource css).exists_cut mem
  obtain ⟨head, last⟩ := Items.trimmed_ofContent 0 0 (Content.ofText css) d mem
  rw [Nat.zero_add] at start stop
  refine ⟨⟨before, behind, cut, start, stop⟩, ?_, head, last⟩
  have slice := Text.slice?_append before d.value behind
  rwa [← cut, ← start, start, ← Text.byteLength_append, ← start, ← stop] at slice

/-- **From spans alone the order of the source can be told**: each declaration of a sheet that was read covers its
    span; and at each level, outside all rules or inside any of them, the declarations stand one behind the other, so
    do the rules with all that is in them, and a declaration stands before or behind all that is in a rule. -/
theorem arranged_ofText (css : Text) :
    (∀ d ∈ (ofText css).visit, d.Covers css) ∧ ∀ ds rs, (ofText css).IsLevel ds rs → Arranged ds rs := by
  refine ⟨covers_ofText css, fun ds rs level => ?_⟩
  obtain ⟨i, rfl, rfl, order⟩ := level.exists_items
  exact Items.arranged order

/-- A sheet with a rule in a rule, and declarations around both. -/
theorem arranged_ofText_nested :
    let css := ['a', ':', 'b', ';', 'c', '{', 'd', ':', 'e', ';', 'f', '{', 'g', ':', 'h', '}', '}', 'i', ':', 'j']
    let d : Declaration := ⟨['d'], ['e'], false, 8, 9⟩
    let f := Rule.mk (.style ['f']) [⟨['g'], ['h'], false, 14, 15⟩] []
    d.Covers css ∧ Arranged [d] [f] := by
  intro css d f
  have read : ofText css = ⟨css, [⟨['a'], ['b'], false, 2, 3⟩, ⟨['i'], ['j'], false, 19, 20⟩],
      [.mk (.style ['c']) [d] [f]]⟩ := by decide
  have level : (ofText css).IsLevel [d] [f] := by
    have inside := IsLevel.inside (r := .mk (.style ['c']) [d] [f]) (.outside (s := ofText css)) (by rw [read]; simp)
    exact inside
  have visited : d ∈ (ofText css).visit := by
    rw [read]
    decide
  obtain ⟨covers, arranged⟩ := arranged_ofText css
  exact ⟨covers d visited, arranged [d] [f] level⟩

end Stylesheet

end Translucent
