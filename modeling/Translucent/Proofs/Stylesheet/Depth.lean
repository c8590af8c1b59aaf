import Translucent.Proofs.Stylesheet.Steps

/-!
  # How deep rules are read

  The block of a rule is entered only within fewer than `maxRuleDepth` rules; one that is deeper is passed over with
  its rule.

  1. **What is pending** — `Pending.Held`: a block that is to be entered is not too deep; `Pending.Ahead`: it stands
     where it is to be entered, in curly brackets.
  2. **The limit** — `turn_limit`: at any depth the same is found, but that a block which is too deep is not entered.
  3. **Starts of rules** — `ruleStarts` lists the rules that start in a text, whether they are read or not.  Those that
     are read are the ones without a block and the ones that are not too deep (`headings_ofContent`).
  4. **Levels** — `HasLevel` counts the rules around a level of a sheet.  There is nothing within more than
     `maxRuleDepth` of them, and at the last level only at-rules that hold nothing (`HasLevel.bounded`).
-/

namespace Translucent

open Content

/-! ## What is pending -/

namespace Pending

/-- Whether a block is to be entered only where it is not too deep. -/
def Held (depth : Nat) : Pending → Prop
  | pass _ => True
  | enter _ _ => depth < maxRuleDepth

/-- Whether the block that is to be entered, if any, stands behind its count of components in the row `c`. -/
def Ahead (c : Content) : Pending → Prop
  | pass _ => True
  | enter _ n => (c.drop n).startsCurly = true

theorem held_advance {depth : Nat} {p : Pending} (h : p.Held depth) : p.advance.Held depth := by
  cases p <;> exact h

/-- Behind a lexeme the block is one component nearer. -/
theorem Ahead.leaf {p : Pending} {l : Lexeme} {rest : Content} (h : p.Ahead (.leaf l rest)) :
    p.advance.Ahead rest := by
  cases p with
  | pass n => trivial
  | enter hd n =>
    cases n with
    | zero => cases h
    | succ n => exact h

/-- Behind a block that is not entered the one that is to be entered is one component nearer. -/
theorem Ahead.block {p : Pending} {o : Opener} {t : Text} {body rest : Content} {closed : Bool}
    (h : p.Ahead (.block o t body closed rest)) (other : ∀ hd, p ≠ .enter hd 0) : p.advance.Ahead rest := by
  cases p with
  | pass n => trivial
  | enter hd n =>
    cases n with
    | zero => exact absurd rfl (other hd)
    | succ n => exact h

end Pending

namespace Items

variable {p : Pending} {depth pos : Nat} {c : Content}

theorem held_turn (h : p.Held depth) (pos : Nat) (c : Content) : (turn p depth pos c).2.Held depth := by
  unfold turn
  split
  · have starts := starts_find depth pos c
    generalize find depth pos c = r at starts
    cases starts with
    | rule hd n shallow ahead => exact shallow
    | _ => trivial
  · exact h

theorem ahead_turn (h : p.Ahead c) (depth pos : Nat) : (turn p depth pos c).2.Ahead c := by
  unfold turn
  split
  · have starts := starts_find depth pos c
    generalize find depth pos c = r at starts
    cases starts with
    | rule hd n shallow ahead => exact congrArg startsCurly ahead
    | _ => trivial
  · exact h

/-- A rule with a block is no item before its block is entered. -/
theorem nothing_of_enter {hd : Heading} {n : Nat} (h : (turn p depth pos c).2 = .enter hd n) :
    (turn p depth pos c).1 = .nothing := by
  unfold turn at h ⊢
  split at h
  · have starts := starts_find depth pos c
    generalize find depth pos c = r at starts h ⊢
    cases starts with
    | rule => rfl
    | nothing => cases h
    | statement => cases h
    | declaration ha => cases h
  · rfl

/-- Only at-rules have no block. -/
theorem atRule_of_statement {hd : Heading} (h : (turn p depth pos c).1 = .statement hd) :
    ∃ name prelude, hd = .atRule name prelude := by
  unfold turn at h
  split at h
  · have starts := starts_find depth pos c
    generalize find depth pos c = r at starts h
    cases starts with
    | statement name prelude n => exact ⟨name, prelude, (Found.statement.inj h).symm⟩
    | _ => cases h
  · cases h

/-! ### One component -/

/-- A lexeme, with what is to be done at it. -/
theorem ofContent_leaf {l : Lexeme} {rest : Content} {found : Found} {pending : Pending}
    (h : turn p depth pos (.leaf l rest) = (found, pending)) :
    ofContent depth p pos (.leaf l rest)
      = found.put (ofContent depth pending.advance (pos + Text.byteLength l.text) rest) := by
  rw [ofContent, h]

section Block

variable {o : Opener} {t : Text} {body : Content} {closed : Bool} {rest : Content} {found : Found}

/-- A block that is entered. -/
theorem ofContent_block_enter {hd : Heading}
    (h : turn p depth pos (.block o t body closed rest) = (found, .enter hd 0)) :
    ofContent depth p pos (.block o t body closed rest) =
      .rule hd (ofContent (depth + 1) (.pass 0) (pos + Text.byteLength t) body)
        (ofContent depth (.pass 0) (pos + Text.byteLength t + body.width + closingWidth closed) rest) := by
  rw [ofContent, h]
  rfl

/-- A block that is not entered. -/
theorem ofContent_block_other {pending : Pending}
    (h : turn p depth pos (.block o t body closed rest) = (found, pending)) (other : ∀ hd, pending ≠ .enter hd 0) :
    ofContent depth p pos (.block o t body closed rest) = found.put
      (ofContent depth pending.advance (pos + Text.byteLength t + body.width + closingWidth closed) rest) := by
  rw [ofContent, h]
  cases pending with
  | pass n => rfl
  | enter hd n =>
    cases n with
    | zero => exact absurd rfl (other hd)
    | succ n => rfl

end Block

end Items

/-! ## The limit -/

/-- What is pending, where a block that is too deep is passed over. -/
def Pending.limit (depth : Nat) : Pending → Pending
  | pass n => .pass n
  | enter h n => Items.enterBlock depth n h

namespace Items

/-- **The depth has no say in what starts a row**, but that blocks which are too deep are passed over. -/
theorem find_limit (depth pos : Nat) (c : Content) :
    find depth pos c = ((find 0 pos c).1, (find 0 pos c).2.limit depth) := by
  have style (c : Content) : findStyle depth c = ((findStyle 0 c).1, (findStyle 0 c).2.limit depth) := by
    have rule (prelude : Content) : findStyle.styleRule depth c prelude
        = ((findStyle.styleRule 0 c prelude).1, (findStyle.styleRule 0 c prelude).2.limit depth) := by
      unfold findStyle.styleRule
      split <;> rfl
    unfold findStyle
    dsimp only
    split
    · split
      · rfl
      · exact rule _
    · exact rule _
  unfold find
  split
  · split
    · rfl
    · rfl
    · rfl
    · rfl
    · unfold findAtRule
      dsimp only
      split <;> rfl
    · unfold findNamed
      split
      · split
        · exact style _
        · rfl
      · exact style _
    · exact style _
  · exact style _

theorem turn_limit (p : Pending) (depth pos : Nat) (c : Content) :
    turn (p.limit depth) depth pos c = ((turn p 0 pos c).1, (turn p 0 pos c).2.limit depth) := by
  cases p with
  | pass n =>
    cases n with
    | zero => exact find_limit depth pos c
    | succ n => rfl
  | enter h n =>
    show turn (enterBlock depth n h) depth pos c = (.nothing, enterBlock depth n h)
    unfold enterBlock
    split <;> rfl

/-- The limit is kept while a block comes nearer, unless it comes next. -/
theorem limit_advance {p : Pending} (other : ∀ hd, p ≠ .enter hd 0) (depth : Nat) :
    (p.limit depth).advance = p.advance.limit depth ∧ ∀ hd, p.limit depth ≠ .enter hd 0 := by
  cases p with
  | pass n => exact ⟨rfl, nofun⟩
  | enter h n =>
    cases n with
    | zero => exact absurd rfl (other h)
    | succ n =>
      show (enterBlock depth (n + 1) h).advance = enterBlock depth n h
        ∧ ∀ hd, enterBlock depth (n + 1) h ≠ .enter hd 0
      unfold enterBlock
      split
      · exact ⟨rfl, nofun⟩
      · exact ⟨rfl, nofun⟩

end Items

/-! ## Starts of rules -/

/-- The start of a rule. -/
structure RuleStart where
  /-- How many rules the rule stands in. -/
  depth : Nat
  /-- What stands before its block, or before the semicolon. -/
  heading : Heading
  /-- The byte where the content of its block starts, if it has a block. -/
  block : Option Nat
  deriving DecidableEq

/-- Whether a rule that starts like this is read: it has no block, or one that is not too deep. -/
def RuleStart.isRead (r : RuleStart) : Bool := r.block.isNone || decide (r.depth < maxRuleDepth)

/-- The rule that is found without a block. -/
def Found.starts (depth : Nat) : Found → List RuleStart
  | statement h => [⟨depth, h, none⟩]
  | _ => []

theorem Found.block_of_mem {found : Found} {depth : Nat} {r : RuleStart} (h : r ∈ found.starts depth) :
    r.block = none := by
  cases found with
  | statement hd =>
    obtain rfl := List.mem_singleton.mp h
    rfl
  | _ => cases h

namespace Items

/-- `ruleStarts depth p pos c` = the starts of the rules in the row `c` at the byte `pos`, within `depth` rules, when
    `p` is pending.  A rule with a block that is too deep counts, but not what is in the block. -/
def ruleStarts (depth : Nat) (p : Pending) (pos : Nat) : Content → List RuleStart
  | .nil => []
  | .leaf l rest =>
    let (found, pending) := turn p 0 pos (.leaf l rest)
    found.starts depth ++ ruleStarts depth pending.advance (pos + Text.byteLength l.text) rest
  | .block o t body closed rest =>
    let inner := pos + Text.byteLength t
    let next := inner + body.width + closingWidth closed
    match turn p 0 pos (.block o t body closed rest) with
    | (_, .enter h 0) =>
      ⟨depth, h, some inner⟩
        :: ((if depth < maxRuleDepth then ruleStarts (depth + 1) (.pass 0) inner body else [])
          ++ ruleStarts depth (.pass 0) next rest)
    | (found, pending) => found.starts depth ++ ruleStarts depth pending.advance next rest

/-- `headings depth i` = the headings of the rules among the items `i`, which stand in `depth` rules, in the order of
    the source, each with the number of rules that it stands in. -/
def headings (depth : Nat) : Items → List (Nat × Heading)
  | nil => []
  | declaration _ rest => headings depth rest
  | rule h inner rest => (depth, h) :: (headings (depth + 1) inner ++ headings depth rest)

theorem headings_put (found : Found) (depth : Nat) (i : Items) :
    (found.put i).headings depth = (found.starts depth).map (fun r => (r.depth, r.heading)) ++ i.headings depth := by
  cases found <;> rfl

theorem filter_starts (found : Found) (depth : Nat) :
    (found.starts depth).filter RuleStart.isRead = found.starts depth := by
  cases found <;> rfl

section Block

variable {depth pos : Nat} {p : Pending} {o : Opener} {t : Text} {body : Content} {closed : Bool} {rest : Content}
  {found : Found}

theorem ruleStarts_enter {hd : Heading} (h : turn p 0 pos (.block o t body closed rest) = (found, .enter hd 0)) :
    ruleStarts depth p pos (.block o t body closed rest) =
      ⟨depth, hd, some (pos + Text.byteLength t)⟩
        :: ((if depth < maxRuleDepth then ruleStarts (depth + 1) (.pass 0) (pos + Text.byteLength t) body else [])
          ++ ruleStarts depth (.pass 0) (pos + Text.byteLength t + body.width + closingWidth closed) rest) := by
  rw [ruleStarts, h]
  rfl

theorem ruleStarts_other {pending : Pending} (h : turn p 0 pos (.block o t body closed rest) = (found, pending))
    (other : ∀ hd, pending ≠ .enter hd 0) :
    ruleStarts depth p pos (.block o t body closed rest) = found.starts depth
      ++ ruleStarts depth pending.advance (pos + Text.byteLength t + body.width + closingWidth closed) rest := by
  rw [ruleStarts, h]
  cases pending with
  | pass n => rfl
  | enter hd n =>
    cases n with
    | zero => exact absurd rfl (other hd)
    | succ n => rfl

end Block

/-- **The rules that are read** are those that have no block and those whose block is not too deep. -/
theorem headings_ofContent {depth : Nat} {p : Pending} {pos : Nat} {c : Content} (ahead : p.Ahead c) :
    (ofContent depth (p.limit depth) pos c).headings depth
      = ((ruleStarts depth p pos c).filter RuleStart.isRead).map fun r => (r.depth, r.heading) := by
  induction c generalizing depth p pos with
  | nil => rfl
  | leaf l rest ih =>
    have ahead := ahead_turn ahead 0 pos
    have limit := turn_limit p depth pos (.leaf l rest)
    rw [ruleStarts]
    generalize turn p 0 pos (.leaf l rest) = r at ahead limit ⊢
    obtain ⟨found, pending⟩ := r
    have other (hd : Heading) : pending ≠ .enter hd 0 := by
      rintro rfl
      cases ahead
    rw [ofContent_leaf limit, (limit_advance other depth).1, headings_put, ih ahead.leaf, List.filter_append,
      filter_starts, List.map_append]
  | block o t body closed rest ihb ihr =>
    have ahead := ahead_turn ahead 0 pos
    have limit := turn_limit p depth pos (.block o t body closed rest)
    have nothing := @nothing_of_enter p 0 pos (.block o t body closed rest)
    generalize found : turn p 0 pos (.block o t body closed rest) = r at ahead limit nothing
    obtain ⟨item, pending⟩ := r
    by_cases enters : ∃ hd, pending = .enter hd 0
    · obtain ⟨hd, rfl⟩ := enters
      obtain rfl : item = .nothing := nothing rfl
      have behind := @ihr depth (.pass 0) (pos + Text.byteLength t + body.width + closingWidth closed) trivial
      rw [ruleStarts_enter found]
      by_cases shallow : depth < maxRuleDepth
      · have entered : turn (p.limit depth) depth pos (.block o t body closed rest) = (.nothing, .enter hd 0) :=
          limit.trans (congrArg (Found.nothing, ·) (if_pos shallow))
        have isRead : RuleStart.isRead ⟨depth, hd, some (pos + Text.byteLength t)⟩ = true := decide_eq_true shallow
        have inner := @ihb (depth + 1) (.pass 0) (pos + Text.byteLength t) trivial
        rw [ofContent_block_enter entered, if_pos shallow, List.filter_cons_of_pos isRead, List.map_cons,
          List.filter_append, List.map_append, ← inner, ← behind]
        rfl
      · -- the block is passed over, and its rule is not read
        have passed : turn (p.limit depth) depth pos (.block o t body closed rest) = (.nothing, .pass 1) :=
          limit.trans (congrArg (Found.nothing, ·) (if_neg shallow))
        have isRead : ¬RuleStart.isRead ⟨depth, hd, some (pos + Text.byteLength t)⟩ = true := by
          simpa [RuleStart.isRead] using shallow
        rw [ofContent_block_other passed nofun, if_neg shallow, List.filter_cons_of_neg isRead, List.nil_append]
        exact behind
    · have other (hd : Heading) : pending ≠ .enter hd 0 := fun eq => enters ⟨hd, eq⟩
      obtain ⟨advance, other'⟩ := limit_advance other depth
      rw [ofContent_block_other limit other', ruleStarts_other found other, advance, headings_put,
        ihr (ahead.block other), List.filter_append, filter_starts, List.map_append]

/-! ## Levels -/

/-- Whether items that stand in `depth` rules hold no rule that is too deep: at the last depth there are at-rules only,
    which hold nothing. -/
def Within (depth : Nat) : Items → Prop
  | nil => True
  | declaration _ rest => rest.Within depth
  | rule h inner rest =>
    (depth < maxRuleDepth ∧ inner.Within (depth + 1) ∨ inner = nil ∧ ∃ name prelude, h = .atRule name prelude)
      ∧ rest.Within depth

theorem within_put {p : Pending} {depth pos : Nat} {c : Content} {i : Items} (h : i.Within depth) :
    ((turn p depth pos c).1.put i).Within depth := by
  have atRule := @atRule_of_statement p depth pos c
  generalize (turn p depth pos c).1 = found at atRule ⊢
  cases found with
  | nothing => exact h
  | declaration d => exact h
  | statement hd => exact ⟨.inr ⟨rfl, atRule rfl⟩, h⟩

/-- **No rule is read too deep.** -/
theorem within_ofContent {depth : Nat} {p : Pending} (held : p.Held depth) (pos : Nat) (c : Content) :
    (ofContent depth p pos c).Within depth := by
  induction c generalizing depth p pos with
  | nil => trivial
  | leaf l rest ih =>
    have held := held_turn held pos (.leaf l rest)
    exact within_put (ih (Pending.held_advance held) _)
  | block o t body closed rest ihb ihr =>
    have held := held_turn held pos (.block o t body closed rest)
    by_cases enters : ∃ hd, (turn p depth pos (.block o t body closed rest)).2 = .enter hd 0
    · obtain ⟨hd, eq⟩ := enters
      rw [eq] at held
      rw [ofContent_block_enter (Prod.ext rfl eq)]
      exact ⟨.inl ⟨held, ihb (p := .pass 0) trivial _⟩, ihr (p := .pass 0) trivial _⟩
    · rw [ofContent_block_other rfl fun hd eq => enters ⟨hd, eq⟩]
      exact within_put (ihr (Pending.held_advance held) _)

/-- A rule among such items is a row of such items, or holds nothing. -/
theorem Within.of_mem {depth : Nat} {i : Items} (h : i.Within depth) {r : Rule} (hr : r ∈ i.rules) :
    (depth < maxRuleDepth ∧ ∃ hd inner, r = .mk hd (declarations inner) (rules inner) ∧ inner.Within (depth + 1))
      ∨ ∃ name prelude, r = .mk (.atRule name prelude) [] [] := by
  induction i with
  | nil => exact absurd hr List.not_mem_nil
  | declaration d rest ih => exact ih h hr
  | rule hd inner rest _ ih =>
    obtain ⟨first, behind⟩ := h
    rcases List.mem_cons.mp hr with rfl | hr
    · rcases first with ⟨shallow, within⟩ | ⟨rfl, name, prelude, rfl⟩
      · exact .inl ⟨shallow, hd, inner, rfl, within⟩
      · exact .inr ⟨name, prelude, rfl⟩
    · exact ih behind hr

end Items

/-! ### The headings of rules -/

namespace Rule

mutual

/-- `headings depth r` = the headings of a rule that stands in `depth` others and of the rules in it, each with the
    number of rules that it stands in. -/
def headings (depth : Nat) : Rule → List (Nat × Heading)
  | mk h _ rs => (depth, h) :: headingsAll (depth + 1) rs

/-- The same for rules in turn. -/
def headingsAll (depth : Nat) : List Rule → List (Nat × Heading)
  | [] => []
  | r :: rs => headings depth r ++ headingsAll depth rs

end

/-- Rules that are made of items have the headings of these. -/
theorem headingsAll_rules (depth : Nat) (i : Items) : headingsAll depth i.rules = i.headings depth := by
  induction i generalizing depth with
  | nil => rfl
  | declaration d rest ih => exact ih depth
  | rule h inner rest ihi ihr =>
    rw [Items.rules, headingsAll, headings, ihi, ihr]
    rfl

end Rule

namespace Stylesheet

/-- The levels of a sheet, each with the number of rules around it, its declarations and its rules. -/
inductive HasLevel (s : Stylesheet) : Nat → List Declaration → List Rule → Prop
  /-- Outside all rules. -/
  | outside : HasLevel s 0 s.declarations s.rules
  /-- Inside a rule of a level. -/
  | inside {n : Nat} {ds : List Declaration} {rs : List Rule} {r : Rule} (level : HasLevel s n ds rs) (hr : r ∈ rs) :
      HasLevel s (n + 1) r.declarations r.rules

/-- A level that was read is not too deep, or there is nothing in it. -/
theorem HasLevel.exists_items {css : Text} {n : Nat} {ds : List Declaration} {rs : List Rule}
    (level : (ofText css).HasLevel n ds rs) :
    (n ≤ maxRuleDepth ∧ ∃ i : Items, ds = i.declarations ∧ rs = i.rules ∧ i.Within n) ∨ ds = [] ∧ rs = [] := by
  induction level with
  | outside => exact .inl ⟨Nat.zero_le _, _, rfl, rfl, Items.within_ofContent (p := .pass 0) trivial 0 _⟩
  | inside _ hr ih =>
    rcases ih with ⟨-, i, -, rfl, within⟩ | ⟨-, rfl⟩
    · rcases within.of_mem hr with ⟨shallow, hd, inner, rfl, within⟩ | ⟨name, prelude, rfl⟩
      · exact .inl ⟨shallow, inner, rfl, rfl, within⟩
      · exact .inr ⟨rfl, rfl⟩
    · exact absurd hr List.not_mem_nil

/-- **Nothing that is read is too deep**: what stands in a level has at most `maxRuleDepth` rules around it, and the
    rules at this depth are at-rules that hold nothing. -/
theorem HasLevel.bounded {css : Text} {n : Nat} {ds : List Declaration} {rs : List Rule}
    (level : (ofText css).HasLevel n ds rs) :
    (ds ≠ [] ∨ rs ≠ [] → n ≤ maxRuleDepth)
      ∧ (n = maxRuleDepth → ∀ r ∈ rs, ∃ name prelude, r = .mk (.atRule name prelude) [] []) := by
  rcases level.exists_items with ⟨le, i, rfl, rfl, within⟩ | ⟨rfl, rfl⟩
  · refine ⟨fun _ => le, ?_⟩
    rintro rfl r hr
    rcases within.of_mem hr with ⟨shallow, -⟩ | atRule
    · exact absurd shallow (Nat.lt_irrefl _)
    · exact atRule
  · exact ⟨fun some => by simp at some, fun _ r hr => absurd hr List.not_mem_nil⟩

/-- `ruleStarts css` = the starts of the rules in a text, in the order of the source. -/
def ruleStarts (css : Text) : List RuleStart := Items.ruleStarts 0 (.pass 0) 0 (Content.ofText css)

/-- The rules of a sheet are those of the text that have no block and those whose block is not too deep. -/
theorem headingsAll_ofText (css : Text) :
    Rule.headingsAll 0 (ofText css).rules
      = ((ruleStarts css).filter RuleStart.isRead).map fun r => (r.depth, r.heading) :=
  (Rule.headingsAll_rules 0 _).trans (@Items.headings_ofContent 0 (.pass 0) 0 (Content.ofText css) trivial)

end Stylesheet

end Translucent
