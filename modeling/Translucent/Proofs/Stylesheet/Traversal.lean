import Translucent.Plugin

/-!
  # Levels, and the ways through them

  The declarations of a sheet stand in levels, one outside all rules and one inside each rule.  The program goes
  through them in three ways: it lists them, it leads a visitor along them, and it revises them by their numbers.

  1. **Levels** — `IsLevel`, and `Holds` of what stands in one; `mem_visit_iff`: nothing else is listed, and all of it.
  2. **Traversals** — `visit_traverse`: whatever a visitor does, it does it to the listed declarations one by one.  If
     its values do not depend on what it remembers, the sheet is mapped (`traverse_map`).
  3. **All but values** — `unvalued`: a sheet without its values, which visitors keep (`unvalued_forEach`).
  4. **Revising** — what is done to a declaration by its number depends on what is done to the listed ones
     (`revise_congr`); done to a single one, it is seen in the list at its number (`visit_setValue`, `visit_remove`).
  5. **Dropping rules** — `visit_dropRule`: what the dropped rule lists is dropped with it.
-/

namespace Translucent

/-! ## Levels -/

namespace Stylesheet

/-- The levels of a sheet, each with its declarations and its rules. -/
inductive IsLevel (s : Stylesheet) : List Declaration → List Rule → Prop
  /-- Outside all rules. -/
  | outside : IsLevel s s.declarations s.rules
  /-- Inside a rule of a level. -/
  | inside {ds : List Declaration} {rs : List Rule} {r : Rule} (level : IsLevel s ds rs) (hr : r ∈ rs) :
      IsLevel s r.declarations r.rules

/-- Whether a declaration stands in a level of the sheet. -/
def Holds (s : Stylesheet) (d : Declaration) : Prop := ∃ ds rs, s.IsLevel ds rs ∧ d ∈ ds

end Stylesheet

namespace Rule

/-- What a rule visits is visited with all rules around it. -/
theorem mem_visitAll {r : Rule} {rs : List Rule} (hr : r ∈ rs) {d : Declaration} (hd : d ∈ visit r) :
    d ∈ visitAll rs := by
  induction rs with
  | nil => exact absurd hr List.not_mem_nil
  | cons s rs ih =>
    rcases List.mem_cons.mp hr with rfl | hr
    · exact List.mem_append_left _ hd
    · exact List.mem_append_right _ (ih hr)

variable {s : Stylesheet}

mutual

/-- What a rule visits stands in its level or in one inside it. -/
theorem holds_of_visit : (r : Rule) → s.IsLevel r.declarations r.rules → ∀ d ∈ visit r, s.Holds d
  | mk _ ds rs, level, d, hd => by
    rcases List.mem_append.mp hd with hd | hd
    · exact ⟨ds, rs, level, hd⟩
    · exact holds_of_visitAll rs (fun r hr => .inside level hr) d hd

theorem holds_of_visitAll : (rs : List Rule) → (∀ r ∈ rs, s.IsLevel r.declarations r.rules) →
    ∀ d ∈ visitAll rs, s.Holds d
  | [], _, _, hd => absurd hd List.not_mem_nil
  | r :: rs, levels, d, hd => by
    rcases List.mem_append.mp hd with hd | hd
    · exact holds_of_visit r (levels r List.mem_cons_self) d hd
    · exact holds_of_visitAll rs (fun r hr => levels r (List.mem_cons_of_mem _ hr)) d hd

end

end Rule

namespace Stylesheet

/-- What a level holds is listed. -/
theorem IsLevel.visit_subset {s : Stylesheet} {ds : List Declaration} {rs : List Rule} (level : s.IsLevel ds rs) :
    ∀ d ∈ ds ++ Rule.visitAll rs, d ∈ s.visit := by
  induction level with
  | outside => exact fun _ hd => hd
  | @inside ds rs r _ hr ih =>
    obtain ⟨h, es, ss⟩ := r
    exact fun d hd => ih d (List.mem_append_right _ (Rule.mem_visitAll hr hd))

/-- **What stands in the levels of a sheet is listed**, and nothing else. -/
theorem mem_visit_iff (s : Stylesheet) (d : Declaration) : d ∈ s.visit ↔ s.Holds d := by
  constructor
  · intro hd
    rcases List.mem_append.mp hd with hd | hd
    · exact ⟨_, _, .outside, hd⟩
    · exact Rule.holds_of_visitAll s.rules (fun r hr => .inside .outside hr) d hd
  · rintro ⟨ds, rs, level, hd⟩
    exact level.visit_subset d (List.mem_append_left _ hd)

end Stylesheet

/-! ## Traversals -/

section List

variable {α β σ : Type} (f : α → σ → α × σ)

/-- A list in two parts. -/
theorem traverseList_append (xs ys : List α) (a : σ) :
    traverseList f (xs ++ ys) a =
      ((traverseList f xs a).1 ++ (traverseList f ys (traverseList f xs a).2).1,
        (traverseList f ys (traverseList f xs a).2).2) := by
  induction xs generalizing a with
  | nil => rfl
  | cons x xs ih =>
    show ((f x a).1 :: (traverseList f (xs ++ ys) (f x a).2).1, (traverseList f (xs ++ ys) (f x a).2).2) = _
    rw [ih]
    rfl

/-- If the new elements do not depend on what is remembered, the list is mapped. -/
theorem traverseList_map (g : α → α) (step : α → σ → σ) (xs : List α) (a : σ) :
    traverseList (fun x a => (g x, step x a)) xs a = (xs.map g, xs.foldl (fun a x => step x a) a) := by
  induction xs generalizing a with
  | nil => rfl
  | cons x xs ih =>
    show (g x :: (traverseList _ xs (step x a)).1, (traverseList _ xs (step x a)).2) = _
    rw [ih]
    rfl

/-- What a traversal keeps of single elements it keeps of a list. -/
theorem map_traverseList {h : α → β} (kept : ∀ x a, h (f x a).1 = h x) (xs : List α) (a : σ) :
    (traverseList f xs a).1.map h = xs.map h := by
  induction xs generalizing a with
  | nil => rfl
  | cons x xs ih =>
    show h (f x a).1 :: (traverseList f xs (f x a).2).1.map h = _
    rw [kept, ih]
    rfl

end List

namespace Rule

variable {σ : Type} (f : Declaration → σ → Declaration × σ)

mutual

/-- A traversal of a rule is one of what the rule visits. -/
theorem visit_traverse : (r : Rule) → (a : σ) →
    (visit (traverse f r a).1, (traverse f r a).2) = traverseList f (visit r) a
  | mk _ ds rs, a => by
    have inside := visitAll_traverseAll rs (traverseList f ds a).2
    rw [visit, traverseList_append, ← inside]
    rfl

/-- A traversal of rules is one of what they visit. -/
theorem visitAll_traverseAll : (rs : List Rule) → (a : σ) →
    (visitAll (traverseAll f rs a).1, (traverseAll f rs a).2) = traverseList f (visitAll rs) a
  | [], _ => rfl
  | r :: rs, a => by
    have here := visit_traverse r a
    have behind := visitAll_traverseAll rs (traverse f r a).2
    rw [visitAll, traverseList_append, ← here, ← behind]
    rfl

end

variable (g : Declaration → Declaration) (step : Declaration → σ → σ)

mutual

/-- If the new declarations do not depend on what is remembered, a rule is mapped. -/
theorem traverse_map : (r : Rule) → (a : σ) →
    traverse (fun d a => (g d, step d a)) r a = (map g r, (visit r).foldl (fun a d => step d a) a)
  | mk h ds rs, a => by
    rw [traverse, traverseList_map, map, visit, List.foldl_append]
    dsimp only
    rw [traverseAll_map rs]

theorem traverseAll_map : (rs : List Rule) → (a : σ) →
    traverseAll (fun d a => (g d, step d a)) rs a = (mapAll g rs, (visitAll rs).foldl (fun a d => step d a) a)
  | [], _ => rfl
  | r :: rs, a => by
    rw [traverseAll, traverse_map r, mapAll, visitAll, List.foldl_append]
    dsimp only
    rw [traverseAll_map rs]

end

end Rule

namespace Stylesheet

variable {σ : Type}

/-- **A traversal of a sheet is one of what the sheet visits.** -/
theorem visit_traverse (f : Declaration → σ → Declaration × σ) (s : Stylesheet) (a : σ) :
    ((s.traverse f a).1.visit, (s.traverse f a).2) = traverseList f s.visit a := by
  have inside := Rule.visitAll_traverseAll f s.rules (traverseList f s.declarations a).2
  rw [visit, visit, traverseList_append, ← inside]
  rfl

/-- If the new declarations do not depend on what is remembered, a sheet is mapped. -/
theorem traverse_map (g : Declaration → Declaration) (step : Declaration → σ → σ) (s : Stylesheet) (a : σ) :
    s.traverse (fun d a => (g d, step d a)) a = (s.map g, s.visit.foldl (fun a d => step d a) a) := by
  rw [traverse, traverseList_map, map, visit, List.foldl_append]
  dsimp only
  rw [Rule.traverseAll_map g step s.rules]

/-- A plugin, run as a visitor, maps the values. -/
theorem run_eq (p : Plugin) (s : Stylesheet) : p.run s = s.mapValues p.newValue :=
  congrArg Prod.fst (traverse_map (fun d => { d with value := p.newValue d.name d.value }) (fun _ => id) s ())

/-- A traversal comes to the declarations that are listed. -/
theorem visited_eq (s : Stylesheet) : s.visited = s.visit := by
  have all := congrArg Prod.snd (traverse_map id (fun d seen => seen ++ [d]) s [])
  refine all.trans ?_
  dsimp only
  rw [List.foldl_append_eq_append, List.nil_append, ← List.flatMap_def, List.flatMap_singleton']

end Stylesheet

/-! ## All but values -/

/-- A declaration apart from its value. -/
def Declaration.origin (d : Declaration) : Declaration := { d with value := [] }

/-- A sheet without its values. -/
def Stylesheet.unvalued (s : Stylesheet) : Stylesheet := s.map Declaration.origin

namespace Rule

variable {σ : Type} (f : Declaration → σ → Declaration × σ) {h : Declaration → Declaration}

mutual

/-- What a traversal keeps of single declarations it keeps of a rule. -/
theorem map_traverse (kept : ∀ d a, h (f d a).1 = h d) : (r : Rule) → (a : σ) → map h (traverse f r a).1 = map h r
  | mk hd ds rs, a => by
    have inside := mapAll_traverseAll kept rs (traverseList f ds a).2
    show mk hd ((traverseList f ds a).1.map h) (mapAll h (traverseAll f rs _).1) = _
    rw [map_traverseList f kept, inside, map]

theorem mapAll_traverseAll (kept : ∀ d a, h (f d a).1 = h d) :
    (rs : List Rule) → (a : σ) → mapAll h (traverseAll f rs a).1 = mapAll h rs
  | [], _ => rfl
  | r :: rs, a => by
    have here := map_traverse kept r a
    have behind := mapAll_traverseAll kept rs (traverse f r a).2
    show map h (traverse f r a).1 :: mapAll h (traverseAll f rs _).1 = _
    rw [here, behind, mapAll]

end

end Rule

/-- **A visitor changes nothing but values**, whatever it remembers. -/
theorem Stylesheet.unvalued_forEach {σ : Type} (v : Visitor σ) (s : Stylesheet) (a : σ) :
    (DeclarationSource.forEach v s a).1.unvalued = s.unvalued := by
  let f (d : Declaration) (a : σ) : Declaration × σ :=
    ({ d with value := (v d.name d.value a).1 }, (v d.name d.value a).2)
  have origins (d : Declaration) (a : σ) : (f d a).1.origin = d.origin := rfl
  have inside := Rule.mapAll_traverseAll f origins s.rules (traverseList f s.declarations a).2
  show Stylesheet.mk s.source ((traverseList f s.declarations a).1.map Declaration.origin)
    (Rule.mapAll _ (Rule.traverseAll f s.rules _).1) = _
  rw [map_traverseList f origins, inside, unvalued, map]

/-! ## Revising -/

namespace Rule

variable {f f' : Nat → Declaration → Option Declaration}

theorem reviseList_cons (f : Nat → Declaration → Option Declaration) (k : Nat) (d : Declaration)
    (ds : List Declaration) : reviseList f k (d :: ds) = (f k d).toList ++ reviseList f (k + 1) ds := by
  rw [reviseList, List.zipIdx_cons, List.filterMap_cons]
  dsimp only
  cases f k d <;> rfl

theorem reviseList_congr {k : Nat} {ds : List Declaration} (h : ∀ x ∈ ds.zipIdx k, f x.2 x.1 = f' x.2 x.1) :
    reviseList f k ds = reviseList f' k ds := by
  induction ds generalizing k with
  | nil => rfl
  | cons d ds ih =>
    rw [List.zipIdx_cons] at h
    rw [reviseList_cons, reviseList_cons, h _ List.mem_cons_self, ih fun x hx => h x (List.mem_cons_of_mem _ hx)]

mutual

/-- Rules are revised alike if what they visit is. -/
theorem revise_congr {k : Nat} : (r : Rule) → (∀ x ∈ (visit r).zipIdx k, f x.2 x.1 = f' x.2 x.1) →
    revise f k r = revise f' k r
  | mk hd ds rs, h => by
    rw [visit, List.zipIdx_append] at h
    rw [revise, revise, reviseList_congr fun x hx => h x (List.mem_append_left _ hx),
      reviseAll_congr rs fun x hx => h x (List.mem_append_right _ hx)]

theorem reviseAll_congr {k : Nat} : (rs : List Rule) → (∀ x ∈ (visitAll rs).zipIdx k, f x.2 x.1 = f' x.2 x.1) →
    reviseAll f k rs = reviseAll f' k rs
  | [], _ => rfl
  | r :: rs, h => by
    rw [visitAll, List.zipIdx_append] at h
    rw [reviseAll, reviseAll, revise_congr r fun x hx => h x (List.mem_append_left _ hx),
      reviseAll_congr rs fun x hx => h x (List.mem_append_right _ hx)]

end

variable {i k : Nat} {f : Declaration → Option Declaration}

/-- Nothing is done to a list without the number. -/
theorem reviseList_outside {ds : List Declaration} (out : i < k ∨ k + ds.length ≤ i) :
    reviseList (onlyAt i f) k ds = ds := by
  induction ds generalizing k with
  | nil => rfl
  | cons d ds ih =>
    rw [List.length_cons] at out
    rw [reviseList_cons, onlyAt, if_neg (by omega), ih (by omega)]
    rfl

/-- Something is done to the declaration that has the number. -/
theorem reviseList_inside {ds : List Declaration} (le : k ≤ i) (lt : i - k < ds.length) :
    reviseList (onlyAt i f) k ds = ds.take (i - k) ++ ((f ds[i - k]).toList ++ ds.drop (i - k + 1)) := by
  have length : (ds.take (i - k)).length = i - k := List.length_take_of_le (by omega)
  have first : reviseList (onlyAt i f) k (ds.take (i - k)) = ds.take (i - k) := reviseList_outside (.inr (by omega))
  have last : reviseList (onlyAt i f) (i + 1) (ds.drop (i - k + 1)) = ds.drop (i - k + 1) :=
    reviseList_outside (.inl (by omega))
  conv => lhs; rw [← List.take_append_drop (i - k) ds, ← List.getElem_cons_drop lt]
  rw [reviseList_append, first, length, show k + (i - k) = i by omega, reviseList_cons, last, onlyAt, if_pos rfl]

mutual

theorem revise_outside : (k : Nat) → (r : Rule) → i < k ∨ k + (visit r).length ≤ i → revise (onlyAt i f) k r = r
  | k, mk h ds rs, out => by
    rw [visit, List.length_append] at out
    rw [revise, reviseList_outside (by omega), reviseAll_outside (k + ds.length) rs (by omega)]

theorem reviseAll_outside : (k : Nat) → (rs : List Rule) → i < k ∨ k + (visitAll rs).length ≤ i →
    reviseAll (onlyAt i f) k rs = rs
  | _, [], _ => rfl
  | k, r :: rs, out => by
    rw [visitAll, List.length_append] at out
    rw [reviseAll, revise_outside k r (by omega), reviseAll_outside (k + (visit r).length) rs (by omega)]

end

end Rule

namespace Stylesheet

/-- Sheets are revised alike if what they visit is. -/
theorem revise_congr {f f' : Nat → Declaration → Option Declaration} {s : Stylesheet}
    (h : ∀ x ∈ s.visit.zipIdx, f x.2 x.1 = f' x.2 x.1) : s.revise f = s.revise f' := by
  rw [visit, List.zipIdx_append, Nat.zero_add] at h
  rw [revise, revise, Rule.reviseList_congr fun x hx => h x (List.mem_append_left _ hx),
    Rule.reviseAll_congr s.rules fun x hx => h x (List.mem_append_right _ hx)]

/-- Nothing is done to a sheet without the number. -/
theorem reviseAt_outside {i : Nat} {f : Declaration → Option Declaration} {s : Stylesheet}
    (out : s.visit.length ≤ i) : s.reviseAt i f = s := by
  rw [visit, List.length_append] at out
  rw [reviseAt, revise, Rule.reviseList_outside (by omega), Rule.reviseAll_outside _ _ (by omega)]

/-- A value is set at its number in the list. -/
theorem visit_setValue (i : Nat) (v : Text) (s : Stylesheet) :
    (s.setValue i v).visit = s.visit.modify i fun d => { d with value := v } := by
  rcases Nat.lt_or_ge i s.visit.length with inside | outside
  · show (s.revise _).visit = _
    rw [visit_revise, Rule.reviseList_inside (Nat.zero_le i) inside, List.modify_eq_take_cons_drop inside]
    rfl
  · show (s.reviseAt i _).visit = _
    rw [reviseAt_outside outside, List.modify_eq_self outside]

/-- A declaration is dropped at its number in the list. -/
theorem visit_remove (i : Nat) (s : Stylesheet) : (s.remove i).visit = s.visit.eraseIdx i := by
  rcases Nat.lt_or_ge i s.visit.length with inside | outside
  · show (s.revise _).visit = _
    rw [visit_revise, Rule.reviseList_inside (Nat.zero_le i) inside, List.eraseIdx_eq_take_drop_succ]
    rfl
  · show (s.reviseAt i _).visit = _
    rw [reviseAt_outside outside, List.eraseIdx_of_length_le outside]

end Stylesheet

/-! ## Dropping rules -/

/-- `find? path rs` = the rule among the rules `rs` that `path` leads to: its first number counts in `rs`, each further
    one in the rules of the rule before. -/
def Rule.find? : List Nat → List Rule → Option Rule
  | [], _ => none
  | [i], rs => rs[i]?
  | i :: path, rs => rs[i]?.bind fun r => find? path r.rules

/-- What a rule lists is dropped with it from the list. -/
theorem Rule.visitAll_dropAt {path : List Nat} {rs : List Rule} {r : Rule} (found : find? path rs = some r) :
    ∃ before after, visitAll rs = before ++ (visit r ++ after) ∧ visitAll (dropAt path rs) = before ++ after := by
  induction path generalizing rs with
  | nil => cases found
  | cons i path ih =>
    cases path with
    | nil =>
      obtain ⟨inside, eq⟩ := List.getElem?_eq_some_iff.mp (show rs[i]? = some r from found)
      refine ⟨visitAll (rs.take i), visitAll (rs.drop (i + 1)), ?_, ?_⟩
      · conv => lhs; rw [← List.take_append_drop i rs, ← List.getElem_cons_drop inside, eq]
        rw [visitAll_append, visitAll]
      · rw [dropAt, List.eraseIdx_eq_take_drop_succ, visitAll_append]
    | cons j path =>
      change (rs[i]?.bind fun q => find? (j :: path) q.rules) = some r at found
      obtain ⟨q, hq, found⟩ := Option.bind_eq_some_iff.mp found
      obtain ⟨inside, eq⟩ := List.getElem?_eq_some_iff.mp hq
      obtain ⟨before, after, list, dropped⟩ := ih found
      obtain ⟨h, ds, qs⟩ := q
      refine ⟨visitAll (rs.take i) ++ (ds ++ before), after ++ visitAll (rs.drop (i + 1)), ?_, ?_⟩
      · conv => lhs; rw [← List.take_append_drop i rs, ← List.getElem_cons_drop inside, eq]
        rw [visitAll_append, visitAll, visit, show visitAll qs = _ from list]
        simp only [List.append_assoc]
      · rw [dropAt, List.modify_eq_take_cons_drop inside, eq, visitAll_append, visitAll]
        · show _ ++ ((ds ++ visitAll (dropAt (j :: path) qs)) ++ _) = _
          rw [show visitAll (dropAt (j :: path) qs) = _ from dropped]
          simp only [List.append_assoc]
        · exact List.cons_ne_nil j path

/-- The same for a sheet. -/
theorem Stylesheet.visit_dropRule {path : List Nat} {s : Stylesheet} {r : Rule}
    (found : Rule.find? path s.rules = some r) : ∃ before after,
      s.visit = before ++ (Rule.visit r ++ after) ∧ (s.dropRule path).visit = before ++ after := by
  obtain ⟨before, after, list, dropped⟩ := Rule.visitAll_dropAt found
  refine ⟨s.declarations ++ before, after, ?_, ?_⟩
  · rw [visit, list, List.append_assoc]
  · rw [List.append_assoc, ← dropped]
    rfl

end Translucent
