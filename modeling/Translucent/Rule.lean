import Translucent.Declaration

/-!
  # Rules

  A rule has a heading (a selector, or an at-keyword with what follows it), declarations, and rules
  of its own.  An at-rule without a block has neither of the two.

  * `Rule.visit` lists the declarations of a rule: its own, then those of its rules in turn.
  * `Rule.map` changes them all alike.
  * `Rule.revise` changes or drops them, each with its number in that list.
-/

namespace Translucent

/-- What stands before the block of a rule. -/
inductive Heading
  /-- The text before the block, typically selectors. -/
  | style (prelude : Text)
  /-- The name of an at-rule in small letters, and the text behind it. -/
  | atRule (name prelude : Text)
  deriving DecidableEq

/-- A heading with declarations and rules. -/
inductive Rule
  /-- A rule of its parts. -/
  | mk (heading : Heading) (declarations : List Declaration) (rules : List Rule)

namespace Rule

/-- What stands before the block. -/
def heading : Rule → Heading
  | mk h _ _ => h

/-- The declarations of the rule itself. -/
def declarations : Rule → List Declaration
  | mk _ ds _ => ds

/-- The rules within the rule. -/
def rules : Rule → List Rule
  | mk _ _ rs => rs

/-! ## Equality -/

mutual

/-- Whether two rules are equal. -/
def decEq : (r s : Rule) → Decidable (r = s)
  | mk h ds rs, mk h' ds' rs' =>
    if hh : h = h' then
      if hd : ds = ds' then
        match decEqAll rs rs' with
        | isTrue hr => isTrue (by rw [hh, hd, hr])
        | isFalse hr => isFalse fun e => hr (by injection e)
      else isFalse fun e => hd (by injection e)
    else isFalse fun e => hh (by injection e)

/-- Whether two lists of rules are equal. -/
def decEqAll : (rs ss : List Rule) → Decidable (rs = ss)
  | [], [] => isTrue rfl
  | [], _ :: _ => isFalse (by simp)
  | _ :: _, [] => isFalse (by simp)
  | r :: rs, s :: ss =>
    match decEq r s with
    | isTrue h =>
      match decEqAll rs ss with
      | isTrue ht => isTrue (by rw [h, ht])
      | isFalse ht => isFalse fun e => ht (by injection e)
    | isFalse h => isFalse fun e => h (by injection e)

end

instance : DecidableEq Rule := decEq

/-! ## Visiting declarations -/

mutual

/-- The declarations of a rule: its own, then those of its rules in turn. -/
def visit : Rule → List Declaration
  | mk _ ds rs => ds ++ visitAll rs

/-- The declarations of rules in turn. -/
def visitAll : List Rule → List Declaration
  | [] => []
  | r :: rs => visit r ++ visitAll rs

end

theorem visitAll_append (rs ss : List Rule) : visitAll (rs ++ ss) = visitAll rs ++ visitAll ss := by
  induction rs with
  | nil => rfl
  | cons r rs ih => rw [List.cons_append, visitAll, visitAll, ih, List.append_assoc]

/-! ## Mapping declarations -/

mutual

/-- `map f r` = the rule `r` with each declaration replaced by what `f` makes of it. -/
def map (f : Declaration → Declaration) : Rule → Rule
  | mk h ds rs => mk h (ds.map f) (mapAll f rs)

/-- The same for rules in turn. -/
def mapAll (f : Declaration → Declaration) : List Rule → List Rule
  | [] => []
  | r :: rs => map f r :: mapAll f rs

end

mutual

/-- Mapping a rule maps what it visits. -/
theorem visit_map (f : Declaration → Declaration) : (r : Rule) → visit (map f r) = (visit r).map f
  | mk _ ds rs => by rw [map, visit, visit, List.map_append, visitAll_mapAll f rs]

/-- Mapping rules maps what they visit. -/
theorem visitAll_mapAll (f : Declaration → Declaration) :
    (rs : List Rule) → visitAll (mapAll f rs) = (visitAll rs).map f
  | [] => rfl
  | r :: rs => by rw [mapAll, visitAll, visitAll, List.map_append, visit_map f r, visitAll_mapAll f rs]

end

/-! ## Revising declarations -/

/-- `reviseList f k ds` = the declarations `ds`, numbered from `k`, each replaced by what `f` makes
    of it. -/
def reviseList (f : Nat → Declaration → Option Declaration) (k : Nat) (ds : List Declaration) :
    List Declaration :=
  (ds.zipIdx k).filterMap fun (d, i) => f i d

/-- `onlyAt i f` = what `f` does, done to the declaration with the number `i` alone. -/
def onlyAt (i : Nat) (f : Declaration → Option Declaration) (j : Nat) (d : Declaration) :
    Option Declaration :=
  if j = i then f d else some d

/-- Without regard to numbers, and with none dropped, revising is mapping. -/
theorem reviseList_some (g : Declaration → Declaration) (k : Nat) (ds : List Declaration) :
    reviseList (fun _ d => some (g d)) k ds = ds.map g := by
  induction ds generalizing k with
  | nil => rfl
  | cons d ds ih => exact congrArg (g d :: ·) (ih (k + 1))

mutual

/-- `revise f k r` = the rule `r` with its declarations, numbered from `k` in the order of `visit`,
    each replaced by what `f` makes of it. -/
def revise (f : Nat → Declaration → Option Declaration) (k : Nat) : Rule → Rule
  | mk h ds rs => mk h (reviseList f k ds) (reviseAll f (k + ds.length) rs)

/-- The same for rules in turn. -/
def reviseAll (f : Nat → Declaration → Option Declaration) (k : Nat) : List Rule → List Rule
  | [] => []
  | r :: rs => revise f k r :: reviseAll f (k + (visit r).length) rs

end

mutual

/-- Without regard to numbers, and with none dropped, revising a rule is mapping it. -/
theorem revise_some (g : Declaration → Declaration) :
    (k : Nat) → (r : Rule) → revise (fun _ d => some (g d)) k r = map g r
  | k, mk h ds rs => by rw [revise, map, reviseList_some, reviseAll_some g (k + ds.length) rs]

theorem reviseAll_some (g : Declaration → Declaration) :
    (k : Nat) → (rs : List Rule) → reviseAll (fun _ d => some (g d)) k rs = mapAll g rs
  | _, [] => rfl
  | k, r :: rs => by rw [reviseAll, mapAll, revise_some g k r, reviseAll_some g (k + (visit r).length) rs]

end

/-- Numbering a list in two parts. -/
theorem reviseList_append (f : Nat → Declaration → Option Declaration) (k : Nat)
    (ds es : List Declaration) :
    reviseList f k (ds ++ es) = reviseList f k ds ++ reviseList f (k + ds.length) es := by
  rw [reviseList, List.zipIdx_append, List.filterMap_append]; rfl

mutual

/-- Revising a rule is revising what it visits. -/
theorem visit_revise (f : Nat → Declaration → Option Declaration) (k : Nat) :
    (r : Rule) → visit (revise f k r) = reviseList f k (visit r)
  | mk _ ds rs => by
    rw [revise, visit, visit, reviseList_append, visitAll_reviseAll f (k + ds.length) rs]

/-- Revising rules is revising what they visit. -/
theorem visitAll_reviseAll (f : Nat → Declaration → Option Declaration) (k : Nat) :
    (rs : List Rule) → visitAll (reviseAll f k rs) = reviseList f k (visitAll rs)
  | [] => rfl
  | r :: rs => by
    rw [reviseAll, visitAll, visitAll, reviseList_append, visit_revise f k r,
      visitAll_reviseAll f (k + (visit r).length) rs]

end

/-! ## Dropping rules -/

/-- `dropAt path rs` = the rules `rs` without the one that `path` leads to: its first number counts
    in `rs`, each further one in the rules of the rule before. -/
def dropAt : List Nat → List Rule → List Rule
  | [], rs => rs
  | [i], rs => rs.eraseIdx i
  | i :: path, rs => rs.modify i fun r => mk r.heading r.declarations (dropAt path r.rules)

end Rule

end Translucent
