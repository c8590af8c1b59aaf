import Translucent.Proofs.Stylesheet.Exchange

/-!
  # What visitors do

  Plugins set values through visitors, and a style sheet is written from its declarations in order.  Both come to the
  same declarations.

  1. **Order** — `IsStableSort`: what `inOrder` makes of what is visited (`isStableSort_inOrder`).
  2. **Plugins** — visitors whose values do not depend on what they remember (`forEach_newValue`); in turn they keep all
     but values (`unvalued_runAll`), and the order (`inOrder_runAll`).

  **Main statement** — `plugins_inOrder`.
-/

namespace Translucent

/-! ## Order -/

/-- Whether the declarations `es` are `ds`, sorted by the starts of their spans, where those that start at the same byte
    keep their order. -/
structure IsStableSort (ds es : List Declaration) : Prop where
  /-- The declarations are the same, each as often as before. -/
  perm : es.Perm ds
  /-- They are sorted. -/
  sorted : es.Pairwise fun d e => d.start ≤ e.start
  /-- Those that start at one byte keep their order. -/
  stable : ∀ n, es.filter (fun d => d.start == n) = ds.filter (fun d => d.start == n)

namespace Stylesheet

/-- **What `inOrder` gives is the stable sort** of what is visited. -/
theorem isStableSort_inOrder (s : Stylesheet) : IsStableSort s.visit s.inOrder := by
  have perm : s.inOrder.Perm s.visit := List.mergeSort_perm _ _
  refine ⟨perm, pairwise_inOrder s, fun n => ?_⟩
  -- those that start at one byte are sorted, so that sorting keeps them as they stand
  have ties : (s.visit.filter fun d => d.start == n).Pairwise fun d e => decide (d.start ≤ e.start) = true := by
    refine List.pairwise_of_forall_mem_list fun d hd e he => ?_
    have hd := eq_of_beq (List.mem_filter.mp hd).2
    have he := eq_of_beq (List.mem_filter.mp he).2
    exact decide_eq_true (by omega)
  have kept : (s.visit.filter fun d => d.start == n).Sublist s.inOrder :=
    List.sublist_mergeSort start_trans start_total ties List.filter_sublist
  have inside := kept.filter fun d => d.start == n
  rw [List.filter_filter] at inside
  simp only [Bool.and_self] at inside
  exact (inside.eq_of_length (perm.filter _).length_eq.symm).symm

/-! ## Plugins -/

/-- **A plugin is a visitor**, whatever else it remembers of the values on its way. -/
theorem forEach_newValue {σ : Type} (p : Plugin) (step : (property value : Text) → σ → σ) (s : Stylesheet) (a : σ) :
    DeclarationSource.forEach (fun property value a => (p.newValue property value, step property value a)) s a
      = (p.run s, s.visit.foldl (fun a d => step d.name d.value a) a) := by
  rw [run_eq]
  exact traverse_map (fun d => { d with value := p.newValue d.name d.value }) (fun d => step d.name d.value) s a

theorem unvalued_run (p : Plugin) (s : Stylesheet) : (p.run s).unvalued = s.unvalued := unvalued_forEach _ s ()

theorem inOrder_run (p : Plugin) (s : Stylesheet) :
    (p.run s).inOrder = s.inOrder.map fun d => { d with value := p.newValue d.name d.value } := by
  rw [run_eq]
  exact inOrder_map (fun d => p.newValue d.name d.value) s

/-- Plugins in turn change nothing but values. -/
theorem unvalued_runAll (ps : List Plugin) (s : Stylesheet) : (Plugin.runAll ps s).unvalued = s.unvalued := by
  induction ps generalizing s with
  | nil => rfl
  | cons p ps ih => exact (ih (p.run s)).trans (unvalued_run p s)

/-- Plugins in turn leave the order of the declarations, each with the value that all of them make of it. -/
theorem inOrder_runAll (ps : List Plugin) (s : Stylesheet) : (Plugin.runAll ps s).inOrder
    = s.inOrder.map fun d => { d with value := ps.foldl (fun value p => p.newValue d.name value) d.value } := by
  induction ps generalizing s with
  | nil => exact (List.map_id _).symm
  | cons p ps ih =>
    refine (ih (p.run s)).trans ?_
    rw [inOrder_run, List.map_map]
    rfl

/-- A plugin makes of the entries of a sheet what it makes of them in a plain list. -/
theorem entries_run (p : Plugin) (s : Stylesheet) : (p.run s).entries = p.run s.entries := by
  have list := traverseList_map (fun entry => (entry.1, p.newValue entry.1 entry.2)) (fun _ => id) s.entries ()
  have run : p.run s.entries = s.entries.map fun entry => (entry.1, p.newValue entry.1 entry.2) :=
    congrArg Prod.fst list
  rw [run, run_eq, mapValues, entries, entries, visited_eq, visited_eq, visit_map, List.map_map, List.map_map]
  rfl

end Stylesheet

/-- Expanding where there is an expansion is setting every value to what the plugin makes of it. -/
theorem Expander.visitor_eq (e : Expander) :
    e.visitor = fun property value _ => (e.plugin.newValue property value, ()) := by
  funext property value _
  show e.visitor property value _ = ((expand value).getD value, ())
  unfold Expander.visitor
  cases expand value <;> rfl

namespace Stylesheet

/-- **Plugins and the order of declarations come to the same declarations.**  Whatever a visitor does, it does it to
    each visited declaration once, and `inOrder` is the stable sort of these by the starts of their spans, sensible or
    not.  A plugin is a visitor; plugins in turn change nothing but values, and leave the order of the declarations,
    each with the value that all of them make of it.  The expansion of shorthands is such a plugin, and does to a sheet
    what it does to the plain list of its entries. -/
theorem plugins_inOrder (s : Stylesheet) :
    ((∀ {σ : Type} (f : Declaration → σ → Declaration × σ) (a : σ),
          ((s.traverse f a).1.visited, (s.traverse f a).2) = traverseList f s.visited a)
        ∧ IsStableSort s.visited s.inOrder)
      ∧ (∀ {σ : Type} (p : Plugin) (step : (property value : Text) → σ → σ) (a : σ),
        DeclarationSource.forEach (fun property value a => (p.newValue property value, step property value a)) s a
            = (p.run s, s.visited.foldl (fun a d => step d.name d.value a) a)
          ∧ p.run s = s.mapValues p.newValue)
      ∧ (∀ ps : List Plugin, (Plugin.runAll ps s).unvalued = s.unvalued
        ∧ (Plugin.runAll ps s).inOrder
          = s.inOrder.map fun d => { d with value := ps.foldl (fun value p => p.newValue d.name value) d.value })
      ∧ ∀ e : Expander, (∀ property value, e.plugin.newValue property value = (expand value).getD value)
        ∧ DeclarationSource.forEach e.visitor s () = (e.plugin.run s, ())
        ∧ (e.plugin.run s).entries = (DeclarationSource.forEach e.visitor s.entries ()).1 := by
  refine ⟨⟨fun f a => ?_, ?_⟩, fun p step a => ⟨?_, run_eq p s⟩, fun ps => ⟨unvalued_runAll ps s, inOrder_runAll ps s⟩,
    fun e => ⟨fun _ _ => rfl, ?_, ?_⟩⟩
  · rw [visited_eq, visited_eq]
    exact visit_traverse f s a
  · rw [visited_eq]
    exact isStableSort_inOrder s
  · rw [visited_eq]
    exact forEach_newValue p step s a
  · rw [e.visitor_eq]
    exact forEach_newValue e.plugin (fun _ _ => id) s ()
  · rw [entries_run, e.visitor_eq]
    rfl

end Stylesheet

end Translucent
