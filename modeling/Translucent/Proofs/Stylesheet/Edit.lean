import Translucent.Proofs.Stylesheet.Placement
import Translucent.Proofs.Stylesheet.Traversal

/-!
  # Editing a style sheet

  After any edits the text of a sheet is its source with the values of the declarations that are left in
  place of their spans, and nothing else changed.

  1. **Edits** — `Edit` is a step from one sheet to another: at some level a value is set, a declaration or a rule
     dropped, or values are changed all over the sheet.  `Edited` is what comes of any number of them.
  2. **The edits of the program** — its functions make such steps, or none where there is nothing to edit
     (`Edited.setValue`, `Edited.remove`, `Edited.dropRule`, `Edited.forEach`).
  3. **What edits keep** — apart from their values, the declarations that are left are those that were read
     (`Edited.kept`).
  4. **Patches** — `Patched` says what it means for a text to be another one with spans replaced; it is
     what `splice` computes (`Patched.splice_eq`), and it holds for whatever is left of declarations that
     are `Placed` (`exists_patched`).

  **Main statement** — `text_edit`.
-/

namespace Translucent

namespace Stylesheet

/-! ## Edits -/

/-- `EditsLevel ds rs ds' rs'`: the declarations `ds` and the rules `rs` of a level become `ds'` and `rs'`, as one thing
    is changed there or in a level inside. -/
inductive EditsLevel : List Declaration → List Rule → List Declaration → List Rule → Prop
  /-- The value of a declaration is set. -/
  | setValue (ds : List Declaration) (d : Declaration) (v : Text) (es : List Declaration) (rs : List Rule) :
      EditsLevel (ds ++ d :: es) rs (ds ++ { d with value := v } :: es) rs
  /-- A declaration is dropped. -/
  | remove (ds : List Declaration) (d : Declaration) (es : List Declaration) (rs : List Rule) :
      EditsLevel (ds ++ d :: es) rs (ds ++ es) rs
  /-- A rule is dropped, with all that is in it. -/
  | dropRule (ds : List Declaration) (rs : List Rule) (r : Rule) (ss : List Rule) :
      EditsLevel ds (rs ++ r :: ss) ds (rs ++ ss)
  /-- The change is inside a rule. -/
  | inside (ds : List Declaration) (rs : List Rule) (h : Heading) {es es' : List Declaration} {qs qs' : List Rule}
      (ss : List Rule) (change : EditsLevel es qs es' qs') :
      EditsLevel ds (rs ++ .mk h es qs :: ss) ds (rs ++ .mk h es' qs' :: ss)

/-- `Edit s s'`: the sheet `s` becomes `s'` in one step. -/
inductive Edit : Stylesheet → Stylesheet → Prop
  /-- One thing is changed, outside all rules or inside one. -/
  | level {s : Stylesheet} {ds : List Declaration} {rs : List Rule}
      (change : EditsLevel s.declarations s.rules ds rs) : Edit s { s with declarations := ds, rules := rs }
  /-- Any number of values are set, as by a plugin.  What they are may depend on anything. -/
  | values {s s' : Stylesheet} (kept : s'.unvalued = s.unvalued) : Edit s s'

/-- Whether a sheet comes of reading the text `css` and editing what was read. -/
inductive Edited (css : Text) : Stylesheet → Prop
  /-- Nothing was edited yet. -/
  | read : Edited css (ofText css)
  /-- One more edit. -/
  | edit {s s' : Stylesheet} (before : Edited css s) (step : Edit s s') : Edited css s'

end Stylesheet

/-! ## The edits of the program -/

namespace Rule

open Stylesheet

variable {i : Nat} {f : Declaration → Option Declaration}

/-- What is done to one declaration of a list changes the level. -/
theorem editsLevel_reviseList (hf : ∀ d, f d = none ∨ ∃ v, f d = some { d with value := v }) {k : Nat}
    {ds : List Declaration} (le : k ≤ i) (lt : i - k < ds.length) (rs : List Rule) :
    EditsLevel ds rs (reviseList (onlyAt i f) k ds) rs := by
  have cut : ds = ds.take (i - k) ++ ds[i - k] :: ds.drop (i - k + 1) := by
    rw [List.getElem_cons_drop, List.take_append_drop]
  rw [reviseList_inside le lt]
  rcases hf ds[i - k] with none | ⟨v, some⟩
  · have change := EditsLevel.remove (ds.take (i - k)) ds[i - k] (ds.drop (i - k + 1)) rs
    rw [← cut] at change
    rw [none]
    exact change
  · have change := EditsLevel.setValue (ds.take (i - k)) ds[i - k] v (ds.drop (i - k + 1)) rs
    rw [← cut] at change
    rw [some]
    exact change

mutual

/-- What is done to one declaration of a rule changes the level of the rule. -/
theorem editsLevel_revise (hf : ∀ d, f d = none ∨ ∃ v, f d = some { d with value := v }) : (k : Nat) → (r : Rule) →
    k ≤ i → i < k + (visit r).length → EditsLevel r.declarations r.rules
      (revise (onlyAt i f) k r).declarations (revise (onlyAt i f) k r).rules
  | k, mk h ds rs, le, lt => by
    rw [visit, List.length_append] at lt
    show EditsLevel ds rs (reviseList (onlyAt i f) k ds) (reviseAll (onlyAt i f) (k + ds.length) rs)
    rcases Nat.lt_or_ge i (k + ds.length) with here | inside
    · rw [reviseAll_outside _ rs (.inl here)]
      exact editsLevel_reviseList hf le (by omega) rs
    · rw [reviseList_outside (.inr inside)]
      exact editsLevel_reviseAll hf ds [] (k + ds.length) rs inside (by omega)

theorem editsLevel_reviseAll (hf : ∀ d, f d = none ∨ ∃ v, f d = some { d with value := v }) (ds : List Declaration)
    (qs : List Rule) : (k : Nat) → (rs : List Rule) → k ≤ i → i < k + (visitAll rs).length →
      EditsLevel ds (qs ++ rs) ds (qs ++ reviseAll (onlyAt i f) k rs)
  | k, [], le, lt => absurd lt (Nat.not_lt.mpr le)
  | k, r :: rs, le, lt => by
    rw [visitAll, List.length_append] at lt
    rw [reviseAll]
    rcases Nat.lt_or_ge i (k + (visit r).length) with here | behind
    · have change := editsLevel_revise hf k r le here
      rw [reviseAll_outside _ rs (.inl here)]
      obtain ⟨h, es, ss⟩ := r
      exact .inside ds qs h rs change
    · rw [revise_outside k r (.inr behind), List.append_cons qs r rs,
        List.append_cons qs r (reviseAll _ _ rs)]
      exact editsLevel_reviseAll hf ds (qs ++ [r]) (k + (visit r).length) rs behind (by omega)

end

/-- Dropping the rule that a path leads to changes the level, if there is such a rule. -/
theorem editsLevel_dropAt (path : List Nat) (ds : List Declaration) (rs : List Rule) :
    dropAt path rs = rs ∨ EditsLevel ds rs ds (dropAt path rs) := by
  induction path generalizing ds rs with
  | nil => exact .inl rfl
  | cons i path ih =>
    rcases Nat.lt_or_ge i rs.length with inside | outside
    · have cut : rs = rs.take i ++ rs[i] :: rs.drop (i + 1) := by
        rw [List.getElem_cons_drop, List.take_append_drop]
      cases path with
      | nil =>
        have change := EditsLevel.dropRule ds (rs.take i) rs[i] (rs.drop (i + 1))
        rw [← cut, ← List.eraseIdx_eq_take_drop_succ] at change
        exact .inr change
      | cons j path =>
        show rs.modify i _ = rs ∨ EditsLevel ds rs ds (rs.modify i fun r =>
          mk r.heading r.declarations (dropAt (j :: path) r.rules))
        rw [List.modify_eq_take_cons_drop inside]
        generalize rs[i] = r at cut ⊢
        obtain ⟨h, es, ss⟩ := r
        rcases ih es ss with same | change
        · left
          conv => rhs; rw [cut]
          show rs.take i ++ mk h es (dropAt (j :: path) ss) :: rs.drop (i + 1) = _
          rw [same]
        · right
          have change := EditsLevel.inside ds (rs.take i) h (rs.drop (i + 1)) change
          rw [← cut] at change
          exact change
    · left
      cases path with
      | nil => exact List.eraseIdx_of_length_le outside
      | cons j path => exact List.modify_eq_self outside

end Rule

namespace Stylesheet

/-- What is done to one declaration of a sheet is an edit, if there is such a declaration. -/
theorem edit_reviseAt {i : Nat} {f : Declaration → Option Declaration}
    (hf : ∀ d, f d = none ∨ ∃ v, f d = some { d with value := v }) {s : Stylesheet} (lt : i < s.visit.length) :
    Edit s (s.reviseAt i f) := by
  rw [visit, List.length_append] at lt
  rcases Nat.lt_or_ge i s.declarations.length with here | inside
  · have change := Rule.editsLevel_reviseList hf (Nat.zero_le i) here s.rules
    rw [reviseAt, revise, Rule.reviseAll_outside _ s.rules (.inl here)]
    exact .level change
  · have change := Rule.editsLevel_reviseAll hf s.declarations [] _ s.rules inside lt
    rw [reviseAt, revise, Rule.reviseList_outside (.inr (by omega))]
    exact .level change

namespace Edited

variable {css : Text} {s : Stylesheet} (h : Edited css s)
include h

theorem reviseAt (i : Nat) {f : Declaration → Option Declaration}
    (hf : ∀ d, f d = none ∨ ∃ v, f d = some { d with value := v }) : Edited css (s.reviseAt i f) := by
  rcases Nat.lt_or_ge i s.visit.length with inside | outside
  · exact .edit h (edit_reviseAt hf inside)
  · rw [reviseAt_outside outside]
    exact h

/-- Setting a value edits a sheet. -/
theorem setValue (i : Nat) (v : Text) : Edited css (s.setValue i v) := h.reviseAt i fun _ => .inr ⟨v, rfl⟩

/-- So does dropping a declaration. -/
theorem remove (i : Nat) : Edited css (s.remove i) := h.reviseAt i fun _ => .inl rfl

/-- So does dropping a rule. -/
theorem dropRule (path : List Nat) : Edited css (s.dropRule path) := by
  rcases Rule.editsLevel_dropAt path s.declarations s.rules with same | change
  · rw [Stylesheet.dropRule, same]
    exact h
  · exact .edit h (.level change)

/-- And so does anything that is led through it as a visitor. -/
theorem forEach {σ : Type} (v : Visitor σ) (a : σ) : Edited css (DeclarationSource.forEach v s a).1 :=
  .edit h (.values (unvalued_forEach v s a))

end Edited

/-! ## What edits keep -/

/-- **A change at a level keeps origins**: declarations are dropped or get other values. -/
theorem EditsLevel.sublist {ds ds' : List Declaration} {rs rs' : List Rule} (h : EditsLevel ds rs ds' rs') :
    ((ds' ++ Rule.visitAll rs').map Declaration.origin).Sublist
      ((ds ++ Rule.visitAll rs).map Declaration.origin) := by
  induction h with
  | setValue ds d v es rs =>
    simp only [List.map_append, List.map_cons]
    exact .refl _
  | remove ds d es rs =>
    exact (((List.sublist_cons_self d es).append_left ds).append_right _).map _
  | dropRule ds rs r ss =>
    simp only [Rule.visitAll_append, Rule.visitAll]
    exact (((List.sublist_append_right _ _).append_left _).append_left ds).map _
  | inside ds rs h ss _ ih =>
    simp only [Rule.visitAll_append, Rule.visitAll, Rule.visit, List.map_append] at ih ⊢
    exact ((ih.append_right _).append_left _).append_left _

/-- An edit keeps the source and the origins of the declarations that are left. -/
theorem Edit.kept {s s' : Stylesheet} (h : Edit s s') : s'.source = s.source
    ∧ (s'.visit.map Declaration.origin).Sublist (s.visit.map Declaration.origin) := by
  cases h with
  | level change => exact ⟨rfl, change.sublist⟩
  | values kept =>
    have same := congrArg visit kept
    rw [unvalued, unvalued, visit_map, visit_map] at same
    refine ⟨?_, same ▸ .refl _⟩
    show s'.unvalued.source = s.unvalued.source
    rw [kept]

/-- So do any edits. -/
theorem Edited.kept {css : Text} {s : Stylesheet} (h : Edited css s) : s.source = css
    ∧ (s.visit.map Declaration.origin).Sublist ((ofText css).visit.map Declaration.origin) := by
  induction h with
  | read => exact ⟨rfl, .refl _⟩
  | edit _ step ih => exact ⟨step.kept.1.trans ih.1, step.kept.2.trans ih.2⟩

/-! ## Patches -/

/-- `Patched pos t ds out`: `out` is the text `t`, which starts at the byte `pos`, with the span of each of
    `ds` replaced by its value.  The spans stand in `t` one behind the other. -/
inductive Patched : Nat → Text → List Declaration → Text → Prop
  /-- No span is left, and the rest stays as it is. -/
  | rest (pos : Nat) (t : Text) : Patched pos t [] t
  /-- What stands before the first span stays, and the span gives way to the value. -/
  | value {pos : Nat} {gap old rest out : Text} {d : Declaration} {ds : List Declaration}
      (start : d.start = pos + Text.byteLength gap) (stop : d.stop = d.start + Text.byteLength old)
      (behind : Patched d.stop rest ds out) :
      Patched pos (gap ++ (old ++ rest)) (d :: ds) (gap ++ (d.value ++ out))

/-- Text before all spans stays. -/
theorem Patched.prepend {pos : Nat} {t out : Text} {ds : List Declaration} (g : Text)
    (h : Patched (pos + Text.byteLength g) t ds out) : Patched pos (g ++ t) ds (g ++ out) := by
  cases h with
  | rest => exact .rest _ _
  | value start stop behind =>
    rw [← List.append_assoc g, ← List.append_assoc g]
    refine .value ?_ stop behind
    rw [start, Text.byteLength_append, Nat.add_assoc]

/-- One text behind another. -/
theorem Patched.append {pos : Nat} {s t out out' : Text} {ds es : List Declaration}
    (hs : Patched pos s ds out) (ht : Patched (pos + Text.byteLength s) t es out') :
    Patched pos (s ++ t) (ds ++ es) (out ++ out') := by
  induction hs with
  | rest pos s => exact ht.prepend s
  | value start stop _ ih =>
    simp only [List.append_assoc]
    refine .value start stop (ih ?_)
    rw [stop, start]
    simpa only [Text.byteLength_append, Nat.add_assoc] using ht

/-- Patching is what `splice` computes. -/
theorem Patched.splice_eq {pos : Nat} {t out : Text} {ds : List Declaration}
    (h : Patched pos t ds out) (before : Text) (hpos : pos = Text.byteLength before) :
    splice (before ++ t) pos ds = out := by
  induction h generalizing before with
  | rest pos t =>
    have dropped := Text.dropBytes_append before t 0
    rw [Nat.add_zero, Text.dropBytes_zero] at dropped
    rw [splice, hpos, dropped, Option.getD_some]
  | @value pos gap old rest out d ds start stop _ ih =>
    have ih := ih (before ++ (gap ++ old)) (by
      simp only [Text.byteLength_append]
      omega)
    have cut := Text.slice?_append before gap (old ++ rest)
    rw [← hpos, ← start] at cut
    rw [splice, cut, Option.getD_some, List.append_assoc]
    simp only [List.append_assoc] at ih
    rw [ih]

/-- With the values that stand there already, patching changes nothing. -/
theorem patched_of_placed {pos : Nat} {t : Text} {ds : List Declaration} (h : Placed pos t ds) :
    Patched pos t ds t := by
  induction h with
  | nil => exact .rest _ _
  | cons _ start stop _ ih => exact .value start stop ih

/-- What is left of placed declarations can be patched, whatever its values are. -/
theorem exists_patched {pos : Nat} {t : Text} {ds : List Declaration} (h : Placed pos t ds)
    {left : List Declaration}
    (hl : (left.map Declaration.origin).Sublist (ds.map Declaration.origin)) :
    ∃ out, Patched pos t left out := by
  induction h generalizing left with
  | nil pos t =>
    obtain rfl := List.map_eq_nil_iff.mp (List.sublist_nil.mp hl)
    exact ⟨t, .rest _ _⟩
  | @cons pos gap rest d ds _ start stop _ ih =>
    cases left with
    | nil => exact ⟨_, .rest _ _⟩
    | cons e left =>
      rcases List.sublist_cons_iff.mp hl with skipped | ⟨tail, eq, kept⟩
      · -- the first declaration is not among those that are left
        obtain ⟨out, patched⟩ := ih skipped
        refine ⟨gap ++ (d.value ++ out), .prepend gap (.prepend d.value ?_)⟩
        rw [← start, ← stop]
        exact patched
      · -- the first one is left, perhaps with another value
        injection eq with head tail_eq
        obtain ⟨out, patched⟩ := ih (tail_eq ▸ kept)
        have hstart : e.origin.start = d.origin.start := by rw [head]
        have hstop : e.origin.stop = d.origin.stop := by rw [head]
        change e.start = d.start at hstart
        change e.stop = d.stop at hstop
        refine ⟨gap ++ (e.value ++ out), .value (hstart.trans start) ?_ ?_⟩
        · rw [hstop, stop, hstart]
        · rw [hstop]
          exact patched

namespace Edited

variable {css : Text} {s : Stylesheet} (h : Edited css s)
include h

/-- Sorted by their spans, the declarations that are left are in the order of the source. -/
theorem inOrder_sublist :
    (s.inOrder.map Declaration.origin).Sublist ((ofText css).inOrder.map Declaration.origin) := by
  rw [inOrder_ofText]
  have strict : ((inSource css).map Declaration.origin).Pairwise fun d e => d.start < e.start :=
    List.pairwise_map.mpr (placed_inSource css).pairwise.2
  obtain ⟨left, perm, sub⟩ := List.exists_perm_sublist h.kept.2 ((perm_inSource css).map Declaration.origin)
  -- both are sorted lists of the same declarations, which start at different bytes
  have sorted : (s.inOrder.map Declaration.origin).Pairwise fun d e => d.start ≤ e.start :=
    List.pairwise_map.mpr (pairwise_inOrder _)
  have perm : (s.inOrder.map Declaration.origin).Perm left := ((List.mergeSort_perm _ _).map _).trans perm.symm
  have eq := List.Perm.eq_of_pairwise ?_ sorted ((strict.sublist sub).imp Nat.le_of_lt) perm
  · rw [eq]
    exact sub
  · intro d e hd he hde hed
    exact eq_of_start_eq (strict.sublist sub) (perm.mem_iff.mp hd) he (Nat.le_antisymm hde hed)

/-- They start at different bytes. -/
theorem inOrder_pairwise : s.inOrder.Pairwise fun d e => d.start < e.start := by
  have left := h.inOrder_sublist
  rw [inOrder_ofText] at left
  have strict : ((inSource css).map Declaration.origin).Pairwise fun d e => d.start < e.start :=
    List.pairwise_map.mpr (placed_inSource css).pairwise.2
  have sorted : (s.inOrder.map Declaration.origin).Pairwise fun d e => d.start < e.start := strict.sublist left
  rwa [List.pairwise_map] at sorted

/-- The text of an edited sheet is a patch of its source. -/
theorem patched : Patched 0 css s.inOrder s.text := by
  have left := h.inOrder_sublist
  rw [inOrder_ofText] at left
  obtain ⟨out, patched⟩ := exists_patched (placed_inSource css) left
  have spliced := patched.splice_eq [] rfl
  rw [List.nil_append] at spliced
  rw [text, h.kept.1, spliced]
  exact patched

end Edited

/-- A sheet that was not edited has the text that it was read from. -/
theorem text_unedited (css : Text) : (ofText css).text = css := by
  have spliced := (patched_of_placed (placed_inSource css)).splice_eq [] rfl
  rw [List.nil_append] at spliced
  rw [text, inOrder_ofText]
  exact spliced

theorem mem_inOrder_iff (s : Stylesheet) (d : Declaration) : d ∈ s.inOrder ↔ s.Holds d :=
  (List.mergeSort_perm _ _).mem_iff.trans (s.mem_visit_iff d)

/-- **Editing patches the source**: after any edits of a sheet that was read, the declarations that are left at its
    levels, in the order of their spans, each have the span they were read with, and the text is the source with
    those spans replaced by the values and everything else kept.  In particular, without edits nothing is changed.
    Setting a value, dropping a declaration or a rule, and running a plugin or any other visitor are such edits: the
    first three are made to the declaration with that number and the rule that the path leads to. -/
theorem text_edit (css : Text) :
    (∀ s, Edited css s → (∀ d, d ∈ s.inOrder ↔ s.Holds d)
        ∧ s.inOrder.Pairwise (fun d e => d.start < e.start)
        ∧ (s.inOrder.map Declaration.origin).Sublist ((ofText css).inOrder.map Declaration.origin)
        ∧ Patched 0 css s.inOrder s.text)
      ∧ (ofText css).text = css
      ∧ ∀ s, Edited css s →
        (∀ i v, Edited css (s.setValue i v)
          ∧ (s.setValue i v).visited = s.visited.modify i fun d => { d with value := v })
        ∧ (∀ i, Edited css (s.remove i) ∧ (s.remove i).visited = s.visited.eraseIdx i)
        ∧ (∀ path, Edited css (s.dropRule path)
          ∧ ∀ r, Rule.find? path s.rules = some r → ∃ before after,
            s.visited = before ++ (Rule.visit r ++ after) ∧ (s.dropRule path).visited = before ++ after)
        ∧ (∀ p : Plugin, Edited css (p.run s) ∧ p.run s = s.mapValues p.newValue)
        ∧ ∀ {σ : Type} (v : Visitor σ) (a : σ), Edited css (DeclarationSource.forEach v s a).1 := by
  refine ⟨fun s h => ⟨s.mem_inOrder_iff, h.inOrder_pairwise, h.inOrder_sublist, h.patched⟩, text_unedited css,
    fun s h => ⟨fun i v => ⟨h.setValue i v, ?_⟩, fun i => ⟨h.remove i, ?_⟩,
      fun path => ⟨h.dropRule path, fun r found => ?_⟩, fun p => ⟨h.forEach _ (), run_eq p s⟩, h.forEach⟩⟩
  · rw [visited_eq, visited_eq, visit_setValue]
  · rw [visited_eq, visited_eq, visit_remove]
  · rw [visited_eq, visited_eq]
    exact visit_dropRule found

/-- In `a{b:c;d{e:f}}g:h;i{j:k}` the value of `e` is set, `b` and the rule with the selector `i` are dropped, and a
    plugin doubles the values of `g`. -/
theorem text_edit_nested :
    let css : Text := ['a', '\x7b', 'b', ':', 'c', ';', 'd', '\x7b', 'e', ':', 'f', '\x7d', '\x7d', 'g', ':', 'h', ';',
      'i', '\x7b', 'j', ':', 'k', '\x7d']
    let p : Plugin := ⟨['p'], fun property value => if property = ['g'] then value ++ value else value⟩
    let s := p.run ((((ofText css).setValue 2 ['x', ' ', 'y']).remove 1).dropRule [1])
    let e : Declaration := ⟨['e'], ['x', ' ', 'y'], false, 10, 11⟩
    let g : Declaration := ⟨['g'], ['h', 'h'], false, 15, 16⟩
    Edited css s ∧ s = ⟨css, [g], [.mk (.style ['a']) [] [.mk (.style ['d']) [e] []]]⟩
      ∧ (∀ d, d ∈ s.inOrder ↔ s.Holds d) ∧ s.inOrder = [e, g] ∧ Patched 0 css s.inOrder s.text
      ∧ s.text = ['a', '\x7b', 'b', ':', 'c', ';', 'd', '\x7b', 'e', ':', 'x', ' ', 'y', '\x7d', '\x7d', 'g', ':', 'h',
        'h', ';', 'i', '\x7b', 'j', ':', 'k', '\x7d'] := by
  intro css p s e g
  obtain ⟨kept, -, edits⟩ := text_edit css
  have edited : Edited css s := by
    have set := ((edits _ .read).1 2 ['x', ' ', 'y']).1
    have removed := ((edits _ set).2.1 1).1
    have dropped := ((edits _ removed).2.2.1 [1]).1
    exact ((edits _ dropped).2.2.2.1 p).1
  have sheet : s = ⟨css, [g], [.mk (.style ['a']) [] [.mk (.style ['d']) [e] []]]⟩ := by decide +kernel
  have order : s.inOrder = [e, g] := by
    rw [inOrder, sheet, show visit _ = [g, e] from rfl, List.mergeSort]
    simp [e, g]
  obtain ⟨all, -, -, patched⟩ := kept s edited
  refine ⟨edited, sheet, all, order, patched, ?_⟩
  rw [text, order, sheet]
  decide +kernel

end Stylesheet

end Translucent
