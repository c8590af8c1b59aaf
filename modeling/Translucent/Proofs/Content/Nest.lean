import Translucent.Proofs.Content.Spelled

/-!
  # Rows by their brackets alone

  Whether lexemes are a quiet row depends on their brackets alone: none may close what is open around the row, and
  no semicolon or curly bracket may stand outside all blocks of it.

  1. **Nesting** — `nest` goes through lexemes with the brackets that are open inside the row; `Neutral` lexemes
     leave them as they are, wherever they stand.
  2. **From rows to brackets** — `nest_leaves`: the lexemes of a spelled row leave none open, unless the text ends
     with the row.
  3. **From brackets to rows** — `levels_of_nest`: lexemes that leave none open are a quiet row.
-/

namespace Translucent

namespace Content

/-! ## Nesting -/

/-- `nestStep outer inner l` = the brackets that are open inside a quiet row behind the lexeme `l`, if `inner` are
    open before it and `outer` is the one around the row; nothing if it ends the row or does not belong in it. -/
def nestStep (outer : Option Bracket) (inner : List Bracket) (l : Lexeme) : Option (List Bracket) :=
  match l.token with
  | .opening o => if inner = [] ∧ o = .bracket .curly then none else some (o.shape :: inner)
  | .closing b =>
    if inner.head? = some b then some inner.tail
    else if inner = [] ∧ outer = some b then none
    else some inner
  | .semicolon => if inner = [] then none else some inner
  | _ => some inner

/-- `nest outer inner ls` = the same behind the lexemes `ls`. -/
def nest (outer : Option Bracket) (inner : List Bracket) (ls : List Lexeme) : Option (List Bracket) :=
  ls.foldlM (nestStep outer) inner

/-- Lexemes that leave the open brackets as they are. -/
def Neutral (ls : List Lexeme) : Prop := ∀ outer inner, nest outer inner ls = some inner

/-- Lexemes that leave more brackets open. -/
def Opens (ls : List Lexeme) : Prop := ∀ outer inner, ∃ more ≠ [], nest outer inner ls = some (more ++ inner)

section Nest

variable {outer : Option Bracket} {inner : List Bracket} {l : Lexeme} {ls ms : List Lexeme}

theorem nest_cons : nest outer inner (l :: ls) = (nestStep outer inner l).bind fun i => nest outer i ls :=
  List.foldlM_cons

theorem nest_append : nest outer inner (ls ++ ms) = (nest outer inner ls).bind fun i => nest outer i ms :=
  List.foldlM_append

/-- What opens a block adds its bracket. -/
theorem nestStep_opening {o : Opener} (h : l.token = .opening o) (ho : inner = [] → o ≠ .bracket .curly) :
    nestStep outer inner l = some (o.shape :: inner) := by
  rw [nestStep, h]
  exact if_neg fun both => ho both.1 both.2

/-- What closes the innermost block takes its bracket away. -/
theorem nestStep_closing {b : Bracket} (h : l.token = .closing b) :
    nestStep outer (b :: inner) l = some inner := by
  rw [nestStep, h]
  exact if_pos rfl

/-- What opens no block and closes none leaves the brackets as they are. -/
theorem nestStep_leaf (ho : ∀ o, l.token ≠ .opening o)
    (hc : ∀ b, l.token = .closing b → inner.head? ≠ some b ∧ (inner = [] → outer ≠ some b))
    (quiet : inner = [] → l.token ≠ .semicolon) : nestStep outer inner l = some inner := by
  unfold nestStep
  split
  · next o h => exact absurd h (ho o)
  · next b h => rw [if_neg (hc b h).1, if_neg fun both => (hc b h).2 both.1 both.2]
  · next h => exact if_neg fun empty => quiet empty h
  · rfl

/-- A lexeme that opens no block, closes none and is no semicolon. -/
theorem neutral_leaf (ho : ∀ o, l.token ≠ .opening o) (hc : ∀ b, l.token ≠ .closing b)
    (quiet : l.token ≠ .semicolon) (h : Neutral ls) : Neutral (l :: ls) := by
  intro outer inner
  rw [nest_cons, nestStep_leaf ho (fun b closes => absurd closes (hc b)) fun _ => quiet]
  exact h outer inner

theorem neutral_nil : Neutral [] := fun _ _ => rfl

theorem Neutral.append (h : Neutral ls) (behind : Neutral ms) : Neutral (ls ++ ms) := by
  intro outer inner
  rw [nest_append, h, Option.bind_some, behind]

theorem Neutral.opens (h : Neutral ls) (behind : Opens ms) : Opens (ls ++ ms) := by
  intro outer inner
  rw [nest_append, h, Option.bind_some]
  exact behind outer inner

end Nest

/-! ## From rows to brackets -/

/-- Where a text ends in a block, the block is not closed. -/
theorem unclosed_of_nil {o : Opener} {closed : Bool} {z : Text} (h : closing o closed ++ z = []) :
    closed = false := by
  cases closed with
  | false => rfl
  | true => cases (List.append_eq_nil_iff.mp h).1

/-- A block leaves the brackets as they are if it is closed, and leaves more of them open if not. -/
theorem nest_block {outer : Option Bracket} {inner : List Bracket} {o : Opener} {t z : Text} {body : Content}
    {closed : Bool} (ho : inner = [] → o ≠ .bracket .curly)
    (hb : nest outer (o.shape :: inner) body.leaves = some (o.shape :: inner)
      ∨ closing o closed ++ z = [] ∧ ∃ more ≠ [], nest outer (o.shape :: inner) body.leaves = some (more ++ o.shape :: inner)) :
    closed = true ∧ nest outer inner (⟨.opening o, t⟩ :: (body.leaves ++ closer o closed)) = some inner
      ∨ closed = false ∧ ∃ more ≠ [],
        nest outer inner (⟨.opening o, t⟩ :: (body.leaves ++ closer o closed)) = some (more ++ inner) := by
  rw [nest_cons, nestStep_opening rfl ho, Option.bind_some, nest_append]
  cases closed with
  | true =>
    refine .inl ⟨rfl, ?_⟩
    rcases hb with hb | ⟨unclosed, -⟩
    · rw [hb, Option.bind_some]
      show nest outer (o.shape :: inner) [⟨.closing o.shape, [o.shape.closer]⟩] = _
      rw [nest_cons, nestStep_closing rfl]
      rfl
    · cases unclosed_of_nil unclosed
  | false =>
    refine .inr ⟨rfl, ?_⟩
    rcases hb with hb | ⟨-, more, nonempty, hb⟩
    · exact ⟨[o.shape], by simp, by rw [hb]; rfl⟩
    · refine ⟨more ++ [o.shape], by simp, ?_⟩
      rw [hb, List.append_assoc]
      rfl

/-- Whether the brackets that are open around a row are known to whoever follows its lexemes. -/
def Fits (outer : Option Bracket) (inner stack : List Bracket) (c : Content) : Prop :=
  inner ≠ [] ∧ inner.head? = stack.head? ∨ inner = [] ∧ outer = stack.head? ∧ c.Quiet

/-- **The lexemes of a spelled row** leave the brackets as they are, unless the text ends there with more open. -/
theorem nest_leaves {c : Content} {stack inner : List Bracket} {tail : Text} {outer : Option Bracket}
    (spelled : c.Spelled stack tail) (fits : Fits outer inner stack c) :
    nest outer inner c.leaves = some inner
      ∨ tail = [] ∧ ∃ more ≠ [], nest outer inner c.leaves = some (more ++ inner) := by
  induction c generalizing stack inner tail with
  | nil => exact .inl rfl
  | leaf l rest ih =>
    obtain ⟨-, ho, hc, spelled⟩ := spelled
    have step : nestStep outer inner l = some inner := by
      refine nestStep_leaf ho (fun b closes => ?_) fun empty => ?_
      · rcases fits with ⟨nonempty, head⟩ | ⟨empty, around, -⟩
        · exact ⟨head ▸ hc b closes, fun empty => absurd empty nonempty⟩
        · exact ⟨by rw [empty]; simp, fun _ => around ▸ hc b closes⟩
      · rcases fits with ⟨nonempty, -⟩ | ⟨-, -, quiet⟩
        · exact absurd empty nonempty
        · exact quiet.1
    rw [leaves, nest_cons, step, Option.bind_some]
    exact ih spelled (fits.imp id fun h => ⟨h.1, h.2.1, h.2.2.2⟩)
  | block o t body closed rest ihb ihr =>
    obtain ⟨-, left, inside, spelled⟩ := spelled
    have curly : inner = [] → o ≠ .bracket .curly := by
      intro empty
      rcases fits with ⟨nonempty, -⟩ | ⟨-, -, quiet⟩
      · exact absurd empty nonempty
      · exact quiet.1
    have body_nest := @ihb (o.shape :: stack) (o.shape :: inner) _ inside (.inl ⟨by simp, rfl⟩)
    have cut : (block o t body closed rest).leaves
        = (⟨.opening o, t⟩ :: (body.leaves ++ closer o closed)) ++ rest.leaves := by
      simp only [leaves, List.append_assoc, List.cons_append]
    rw [cut, nest_append]
    rcases @nest_block outer inner o t _ body closed curly body_nest with
      ⟨-, whole⟩ | ⟨rfl, more, nonempty, whole⟩
    · rw [whole, Option.bind_some]
      exact ihr spelled (fits.imp id fun h => ⟨h.1, h.2.1, h.2.2.2⟩)
    · -- nothing is behind a block that is left open
      obtain ⟨rfl, rfl⟩ := left rfl
      exact .inr ⟨rfl, more, nonempty, by rw [whole]; rfl⟩

/-- A block in parentheses is neutral if it is closed, and leaves more open if not. -/
theorem nest_round {o : Opener} (round : o.shape = .round) {t : Text} {body : Content} {closed : Bool}
    {stack : List Bracket} {z : Text} (inside : body.Spelled (o.shape :: stack) (closing o closed ++ z)) :
    closed = true ∧ Neutral (⟨.opening o, t⟩ :: (body.leaves ++ closer o closed))
      ∨ closed = false ∧ Opens (⟨.opening o, t⟩ :: (body.leaves ++ closer o closed)) := by
  have whole (outer : Option Bracket) (inner : List Bracket) :=
    @nest_block outer inner o t z body closed (fun _ curly => by rw [curly] at round; cases round)
      (nest_leaves inside (.inl ⟨by simp, rfl⟩))
  cases closed with
  | true =>
    refine .inl ⟨rfl, fun outer inner => ?_⟩
    rcases whole outer inner with ⟨-, h⟩ | ⟨unclosed, -⟩
    · exact h
    · cases unclosed
  | false =>
    refine .inr ⟨rfl, fun outer inner => ?_⟩
    rcases whole outer inner with ⟨unclosed, -⟩ | ⟨-, h⟩
    · cases unclosed
    · exact h

/-! ## From brackets to rows -/

/-- What is left of the open blocks, if `inner` are those inside a row: one level for each of them and then that of
    the row, or fewer, where the text ends before. -/
def Nested (stack inner : List Bracket) (ns : List Lexeme) (found : List Level) : Prop :=
  (∃ (blocks : List Level) (row : Content), blocks.length = inner.length ∧ row.Quiet
      ∧ found = blocks ++ prepend row (levels stack ns))
    ∨ ns = [] ∧ found.length ≤ inner.length

namespace Nested

variable {stack inner : List Bracket} {ns : List Lexeme} {found : List Level}

/-- A lexeme that neither opens a block nor closes one. -/
theorem put (h : Nested stack inner ns found) {l : Lexeme} (quiet : inner = [] → l.token ≠ .semicolon) :
    Nested stack inner ns (levels.put l found) := by
  rcases h with ⟨blocks, row, length, row_quiet, rfl⟩ | ⟨rfl, short⟩
  · obtain ⟨blocks', row', length', quiet', eq⟩ :=
      put_levels length row_quiet (fun h => quiet (List.length_eq_zero_iff.mp h)) (levels stack ns)
    exact .inl ⟨blocks', row', length', quiet', eq⟩
  · cases found with
    | cons level found => exact .inr ⟨rfl, short⟩
    | nil =>
      cases inner with
      | nil => exact .inl ⟨[], .leaf l .nil, rfl, ⟨quiet rfl, trivial⟩, rfl⟩
      | cons b inner => exact .inr ⟨rfl, by simp [levels.put]⟩

/-- What opens a block makes one level of two. -/
theorem opening {o : Opener} (h : Nested stack (o.shape :: inner) ns found)
    (quiet : inner = [] → o ≠ .bracket .curly) (t : Text) :
    Nested stack inner ns
      (let body := found.headD .ended
       let next := found.tail.headD .ended
       ⟨.block o t body.content body.closed next.content, next.closed⟩ :: found.tail.tail) := by
  rcases h with ⟨blocks, row, length, row_quiet, rfl⟩ | ⟨rfl, short⟩
  · obtain ⟨blocks', row', length', quiet', eq⟩ :=
      block_levels t length row_quiet (fun h => quiet (List.length_eq_zero_iff.mp h)) (levels stack ns)
    exact .inl ⟨blocks', row', length', quiet', eq⟩
  · cases inner with
    | cons b inner =>
      refine .inr ⟨rfl, ?_⟩
      simp only [List.length_cons, List.length_tail] at short ⊢
      omega
    | nil =>
      -- the text ends in the block, and nothing is behind it
      have none_behind : found.tail = [] := by
        rw [← List.length_eq_zero_iff, List.length_tail]
        exact Nat.sub_eq_zero_of_le short
      refine .inl ⟨[], .block o t (found.headD .ended).content (found.headD .ended).closed .nil, rfl,
        ⟨quiet rfl, trivial⟩, ?_⟩
      rw [none_behind]
      rfl

end Nested

/-- Lexemes that may stand in a quiet row leave its levels. -/
theorem nested_levels {stack inner left : List Bracket} {ls ns : List Lexeme}
    (h : nest stack.head? inner ls = some left) (ended : left ≠ [] → ns = []) :
    Nested stack inner ns (levels (inner ++ stack) (ls ++ ns)) := by
  induction ls generalizing inner with
  | nil =>
    obtain rfl : inner = left := Option.some.inj h
    by_cases empty : inner = []
    · subst empty
      exact .inl ⟨[], .nil, rfl, trivial, rfl⟩
    · obtain rfl := ended empty
      exact .inr ⟨rfl, Nat.zero_le _⟩
  | cons l ls ih =>
    rw [nest_cons] at h
    obtain ⟨next, step, h⟩ := Option.bind_eq_some_iff.mp h
    rw [List.cons_append]
    unfold nestStep at step
    have keeps (ho : ∀ o, l.token ≠ .opening o) (hc : ∀ b, l.token = .closing b → (inner ++ stack).head? ≠ some b)
        (quiet : inner = [] → l.token ≠ .semicolon) (same : inner = next) :
        Nested stack inner ns (levels (inner ++ stack) (l :: (ls ++ ns))) := by
      rw [levels_neither ho hc]
      exact (ih (same ▸ h)).put quiet
    split at step
    · next o opens =>
      split at step
      · cases step
      · next quiet =>
        obtain rfl := Option.some.inj step
        rw [levels_opening opens]
        exact (ih h).opening (fun empty curly => quiet ⟨empty, curly⟩) l.text
    · next b closes =>
      split at step
      · next fits =>
        obtain ⟨inner, rfl⟩ := List.head?_eq_some_iff.mp fits
        obtain rfl := Option.some.inj step
        rw [levels_closing closes rfl]
        rcases ih h with ⟨blocks, row, length, quiet, eq⟩ | ⟨empty, short⟩
        · exact .inl ⟨⟨.nil, true⟩ :: blocks, row, congrArg (· + 1) length, quiet, congrArg (_ :: ·) eq⟩
        · exact .inr ⟨empty, Nat.succ_le_succ short⟩
      · next other =>
        split at step
        · cases step
        · next around =>
          refine keeps (by rw [closes]; simp) (fun b' eq => ?_) (by rw [closes]; simp) (Option.some.inj step)
          obtain rfl : b = b' := Token.closing.inj (closes.symm.trans eq)
          cases inner with
          | nil => exact fun head => around ⟨rfl, head⟩
          | cons b' inner => exact other
    · next semicolon =>
      split at step
      · cases step
      · next nonempty =>
        exact keeps (by rw [semicolon]; simp) (by rw [semicolon]; simp) (fun empty => absurd empty nonempty)
          (Option.some.inj step)
    · next ho hc semicolon =>
      exact keeps (fun o eq => ho o eq) (fun b eq => absurd eq (hc b)) (fun _ => semicolon) (Option.some.inj step)

/-- **Lexemes that may stand in a quiet row are one**: unless the text ends there, none of its blocks may be open. -/
theorem levels_of_nest {stack left : List Bracket} {ls ns : List Lexeme} (h : nest stack.head? [] ls = some left)
    (ended : left ≠ [] → ns = []) :
    ∃ row : Content, row.Quiet ∧ levels stack (ls ++ ns) = prepend row (levels stack ns) := by
  rcases nested_levels h ended with ⟨blocks, row, length, quiet, eq⟩ | ⟨rfl, short⟩
  · obtain rfl := List.length_eq_zero_iff.mp length
    exact ⟨row, quiet, eq⟩
  · exact ⟨.nil, trivial, List.length_eq_zero_iff.mp (Nat.le_zero.mp short)⟩

end Content

end Translucent
