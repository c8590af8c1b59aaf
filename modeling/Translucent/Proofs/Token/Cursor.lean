import Translucent.Content
import Translucent.Token.Cursor

/-!
  # Places and blocks

  What a reader sees from a place, in terms of the tree of the text.  The brackets of the blocks that
  the place lies in are a stack, the innermost first, and `Content.levels` says what is left of each of
  them:

  1. **Leaving** — `leave` drops levels, one for each bracket (`levels_leave`), and moves by the text that
     it passes over (`leave_passed`).
  2. **Seeing** — `Cursor.row` is what is left of the innermost block.  `next_cases` says all that
     the next lexeme can be: nothing, a leaf of that row, or the start of a block in it.
  3. **Staying** — a reading that never leaves its block ends it where it would have ended anyway
     (`Reading.Stays`), so passing over the block leads to the same place before and after the reading.
-/

namespace Translucent

open Content

/-! ## Leaving blocks -/

namespace Cursor

theorem leave_opening {l : Lexeme} {o : Opener} (h : l.token = .opening o) (b : Bracket)
    (inner : List Bracket) (ls : List Lexeme) (pos : Nat) :
    leave (b :: inner) (l :: ls) pos
      = leave (o.shape :: b :: inner) ls (pos + Text.byteLength l.text) := by
  rw [leave, h]

theorem leave_closing {l : Lexeme} {b : Bracket} (h : l.token = .closing b)
    (inner : List Bracket) (ls : List Lexeme) (pos : Nat) :
    leave (b :: inner) (l :: ls) pos = leave inner ls (pos + Text.byteLength l.text) := by
  rw [leave, h]
  exact if_pos rfl

theorem leave_neither {l : Lexeme} {b : Bracket} (ho : ∀ o, l.token ≠ .opening o)
    (hc : l.token ≠ .closing b) (inner : List Bracket) (ls : List Lexeme) (pos : Nat) :
    leave (b :: inner) (l :: ls) pos = leave (b :: inner) ls (pos + Text.byteLength l.text) := by
  rw [leave]
  split
  · next o h => exact absurd h (ho o)
  · next b' h =>
    refine if_neg ?_
    rintro rfl
    exact hc h
  · rfl

@[simp] theorem leave_nil (ls : List Lexeme) (pos : Nat) : leave [] ls pos = ⟨ls, pos, none⟩ := by
  cases ls <;> rfl

/-- Blocks are left one after the other, the innermost first. -/
theorem leave_append (inner outer : List Bracket) (ls : List Lexeme) (pos : Nat) :
    leave (inner ++ outer) ls pos
      = leave outer (leave inner ls pos).ahead (leave inner ls pos).pos := by
  induction ls generalizing inner pos with
  | nil => cases inner <;> cases outer <;> rfl
  | cons l ls ih =>
    cases inner with
    | nil => rw [leave_nil, List.nil_append]
    | cons b inner =>
      rw [List.cons_append]
      rcases opens_or_closes_or_neither (b :: inner) l with ⟨o, ho⟩ | ⟨b', hb, fits⟩ | ⟨ho, hc⟩
      · rw [leave_opening ho, leave_opening ho]
        exact ih (o.shape :: b :: inner) _
      · obtain rfl : b = b' := Option.some.inj fits
        rw [leave_closing hb, leave_closing hb, ih]
      · have hc : l.token ≠ .closing b := fun h => hc b h rfl
        rw [leave_neither ho hc, leave_neither ho hc]
        exact ih (b :: inner) _

/-- Leaving blocks drops a level for each of them. -/
theorem levels_leave (inner stack : List Bracket) (ls : List Lexeme) (pos : Nat) :
    levels stack (leave inner ls pos).ahead = (levels (inner ++ stack) ls).drop inner.length := by
  induction ls generalizing inner pos with
  | nil => cases inner <;> rfl
  | cons l ls ih =>
    cases inner with
    | nil => rfl
    | cons b inner =>
      rcases opens_or_closes_or_neither (b :: (inner ++ stack)) l with
        ⟨o, ho⟩ | ⟨b', hb, fits⟩ | ⟨ho, hc⟩
      · -- the block that opens is dropped with the one around it
        rw [leave_opening ho, ih, List.cons_append, List.cons_append, levels_opening ho]
        simp only [List.length_cons, List.drop_succ_cons, List.drop_tail]
      · obtain rfl : b = b' := Option.some.inj fits
        rw [leave_closing hb, ih, List.cons_append, levels_closing hb fits]
        rfl
      · have hc' : l.token ≠ .closing b := fun h => hc b h rfl
        rw [leave_neither ho hc', ih, List.cons_append, levels_neither ho hc, levels.put]
        simp only [List.length_cons, List.drop_succ_cons, List.drop_tail]

/-- What is passed over are the lexemes in between, and the position moves by their text. -/
theorem leave_passed (inner : List Bracket) (ls : List Lexeme) (pos : Nat) :
    ∃ passed, ls = passed ++ (leave inner ls pos).ahead
      ∧ (leave inner ls pos).pos = pos + Text.byteLength (Lexeme.textOf passed) := by
  induction ls generalizing inner pos with
  | nil => cases inner <;> exact ⟨[], rfl, rfl⟩
  | cons l ls ih =>
    cases inner with
    | nil => exact ⟨[], rfl, rfl⟩
    | cons b inner =>
      have step {inner' : List Bracket} (h : leave (b :: inner) (l :: ls) pos
          = leave inner' ls (pos + Text.byteLength l.text)) :
          ∃ passed, l :: ls = passed ++ (leave (b :: inner) (l :: ls) pos).ahead
            ∧ (leave (b :: inner) (l :: ls) pos).pos
              = pos + Text.byteLength (Lexeme.textOf passed) := by
        obtain ⟨passed, hls, hpos⟩ := ih inner' (pos + Text.byteLength l.text)
        refine ⟨l :: passed, ?_, ?_⟩
        · rw [h, List.cons_append, ← hls]
        · rw [h, hpos, Lexeme.textOf_cons, Text.byteLength_append, Nat.add_assoc]
      rcases opens_or_closes_or_neither (b :: inner) l with ⟨o, ho⟩ | ⟨b', hb, fits⟩ | ⟨ho, hc⟩
      · exact step (leave_opening ho b inner ls pos)
      · obtain rfl : b = b' := Option.some.inj fits
        exact step (leave_closing hb inner ls pos)
      · exact step (leave_neither ho (fun h => hc b h rfl) inner ls pos)

/-! ## What is seen from a place -/

/-- What is left of the innermost of the blocks `stack` that the place lies in. -/
def level (stack : List Bracket) (k : Cursor) : Level := (levels stack k.settle.ahead).headD .ended

/-- The content that is left of the innermost block. -/
def row (stack : List Bracket) (k : Cursor) : Content := (k.level stack).content

@[simp] theorem settle_of_none {k : Cursor} (h : k.opened = none) : k.settle = k := by
  obtain ⟨ahead, pos, opened⟩ := k
  subst h
  exact leave_nil ahead pos

theorem opened_leave (inner : List Bracket) (ls : List Lexeme) (pos : Nat) :
    (leave inner ls pos).opened = none := by
  induction ls generalizing inner pos with
  | nil => cases inner <;> rfl
  | cons l ls ih =>
    cases inner with
    | nil => rfl
    | cons b inner =>
      rw [leave]
      split
      · exact ih _ _
      · split <;> exact ih _ _
      · exact ih _ _

@[simp] theorem settle_settle (k : Cursor) : k.settle.settle = k.settle :=
  settle_of_none (opened_leave _ _ _)

/-- Where no block was opened, what is left is seen from the lexemes to come. -/
theorem level_of_none {k : Cursor} (h : k.opened = none) (stack : List Bracket) :
    k.level stack = (levels stack k.ahead).headD .ended := by
  rw [level, settle_of_none h]

/-- Behind an opened block, what is left of the block around it comes second. -/
theorem level_of_some {k : Cursor} {b : Bracket} (h : k.opened = some b) (stack : List Bracket) :
    k.level stack = (levels (b :: stack) k.ahead).tail.headD .ended := by
  rw [level, settle, h, Option.toList_some, levels_leave [b], List.length_singleton, List.drop_one]
  rfl

end Cursor

namespace Reading

variable {α β : Type}

/-- Reading the end of a row. -/
theorem run_next_nil {stop : Option Bracket} {k : Cursor} (h : k.settle.ahead = []) :
    (next stop).run k = (none, k.settle) := by
  simp only [next, h]

/-- Reading ends before the bracket that closes the block. -/
theorem run_next_stop {stop : Option Bracket} {k : Cursor} {l : Lexeme} {ls : List Lexeme}
    (h : k.settle.ahead = l :: ls) (hs : some l.token = stop.map .closing) :
    (next stop).run k = (none, k.settle) := by
  simp only [next, h, if_pos hs]

/-- Reading a lexeme. -/
theorem run_next_cons {stop : Option Bracket} {k : Cursor} {l : Lexeme} {ls : List Lexeme}
    (h : k.settle.ahead = l :: ls) (hs : some l.token ≠ stop.map .closing) :
    (next stop).run k
      = (some l, ⟨ls, k.settle.pos + Text.byteLength l.text, l.token.opens?⟩) := by
  simp only [next, h, if_neg hs]

/-- **What the next lexeme can be**, in a place within the blocks `stack`: none, if nothing is left of
    the innermost block; a leaf of what is left; or the start of a block in it. -/
theorem next_cases (stack : List Bracket) (k : Cursor) :
    (k.row stack = .nil ∧ (next stack.head?).run k = (none, k.settle))
      ∨ (∃ l k', (next stack.head?).run k = (some l, k')
          ∧ (l :: k'.ahead) <:+ k.ahead ∧ k'.pos = k.settle.pos + Text.byteLength l.text
          ∧ k'.opened = none ∧ (∀ o, l.token ≠ .opening o)
          ∧ k.row stack = .leaf l (k'.row stack))
      ∨ (∃ l k' o, (next stack.head?).run k = (some l, k')
          ∧ (l :: k'.ahead) <:+ k.ahead ∧ k'.pos = k.settle.pos + Text.byteLength l.text
          ∧ k'.opened = some o.shape ∧ l.token = .opening o
          ∧ k.row stack = .block o l.text (k'.enter.row (o.shape :: stack))
              (k'.enter.level (o.shape :: stack)).closed (k'.row stack)) := by
  have suffix : k.settle.ahead <:+ k.ahead := by
    obtain ⟨passed, h, -⟩ := Cursor.leave_passed k.opened.toList k.ahead k.pos
    exact ⟨passed, h.symm⟩
  cases h : k.settle.ahead with
  | nil =>
    refine Or.inl ⟨?_, run_next_nil h⟩
    rw [Cursor.row, Cursor.level, h]
    rfl
  | cons l ls =>
    rw [h] at suffix
    have row : k.row stack = ((levels stack (l :: ls)).headD .ended).content := by
      rw [Cursor.row, Cursor.level, h]
    rcases opens_or_closes_or_neither stack l with ⟨o, ho⟩ | ⟨b, hb, fits⟩ | ⟨ho, hc⟩
    · refine Or.inr (Or.inr ⟨l, _, o, run_next_cons h ?_, suffix, rfl, ?_, ho, ?_⟩)
      · rw [ho]
        cases stack <;> simp
      · rw [ho]; rfl
      · rw [row, levels_opening ho, Cursor.row, Cursor.row, Cursor.level_of_none rfl,
          Cursor.level_of_some (show l.token.opens? = some o.shape by rw [ho]; rfl)]
        rfl
    · refine Or.inl ⟨?_, run_next_stop h ?_⟩
      · rw [row, levels_closing hb fits]
        rfl
      · rw [hb, fits]; rfl
    · have open_none : l.token.opens? = none := by
        unfold Token.opens?
        split
        · next o h => exact absurd h (ho o)
        · rfl
      refine Or.inr (Or.inl ⟨l, _, run_next_cons h ?_, suffix, rfl, open_none, ho, ?_⟩)
      · intro e
        cases hs : stack.head? with
        | none => rw [hs] at e; cases e
        | some b =>
          rw [hs] at e
          exact hc b (Option.some.inj e) hs
      · rw [row, levels_neither ho hc, Cursor.row, Cursor.level_of_none open_none]
        rfl

/-- Passing over white space and comments leaves what counts in a row, and what counts comes next. -/
theorem row_passTrivia (stack : List Bracket) (ls : List Lexeme) (pos : Nat) :
    ((Cursor.passTrivia ls pos).row stack).startsTrivia = false
      ∧ ((Cursor.passTrivia ls pos).row stack).significant
        = (Cursor.row stack ⟨ls, pos, none⟩).significant := by
  induction ls generalizing pos with
  | nil => exact ⟨rfl, rfl⟩
  | cons l ls ih =>
    have row (ls : List Lexeme) (pos : Nat) :
        Cursor.row stack ⟨ls, pos, none⟩ = ((levels stack ls).headD .ended).content := by
      rw [Cursor.row, Cursor.level_of_none rfl]
    rw [Cursor.passTrivia]
    split
    · next ht =>
      obtain ⟨starts, same⟩ := ih (pos + Text.byteLength l.text)
      refine ⟨starts, ?_⟩
      rw [same, row, row, levels_neither (fun o e => by rw [e] at ht; cases ht)
        (fun b e => by rw [e] at ht; cases ht), levels.put]
      show _ = significant (.leaf l _)
      rw [significant_leaf, if_pos ht]
    · next ht =>
      refine ⟨?_, rfl⟩
      rw [row]
      rcases opens_or_closes_or_neither stack l with ⟨o, ho⟩ | ⟨b, hb, fits⟩ | ⟨ho, hc⟩
      · rw [levels_opening ho]; rfl
      · rw [levels_closing hb fits]; rfl
      · rw [levels_neither ho hc]
        exact Bool.eq_false_iff.mpr ht

/-- **What the next word can be**: the same as the next lexeme in the row of what counts. -/
theorem word_cases (stack : List Bracket) (k : Cursor) :
    ((k.row stack).significant = .nil ∧ ((word stack.head?).run k).1 = none)
      ∨ (∃ l k', (word stack.head?).run k = (some l, k')
          ∧ k'.opened = none ∧ (∀ o, l.token ≠ .opening o)
          ∧ (k.row stack).significant = .leaf l (k'.row stack).significant)
      ∨ (∃ l k' o, (word stack.head?).run k = (some l, k')
          ∧ k'.opened = some o.shape ∧ l.token = .opening o
          ∧ (k.row stack).significant = .block o l.text (k'.enter.row (o.shape :: stack))
              (k'.enter.level (o.shape :: stack)).closed (k'.row stack).significant) := by
  let t := Cursor.passTrivia k.settle.ahead k.settle.pos
  have run : (word stack.head?).run k = (next stack.head?).run t := rfl
  obtain ⟨starts, same⟩ := row_passTrivia stack k.settle.ahead k.settle.pos
  have same : (t.row stack).significant = (k.row stack).significant := by
    rw [same, Cursor.row, Cursor.level_of_none rfl, ← Cursor.level, ← Cursor.row]
  rw [run, ← same]
  rcases next_cases stack t with ⟨row, r⟩ | ⟨l, k', r, -, -, opened, ho, row⟩
      | ⟨l, k', o, r, -, -, opened, ho, row⟩
  · exact Or.inl ⟨by rw [row]; rfl, by rw [r]⟩
  · refine Or.inr (Or.inl ⟨l, k', r, opened, ho, ?_⟩)
    rw [show (t.row stack).startsTrivia = l.token.isTrivia by rw [row]; rfl] at starts
    rw [row, significant_leaf, if_neg (by rw [starts]; exact Bool.false_ne_true)]
  · refine Or.inr (Or.inr ⟨l, k', o, r, opened, ho, ?_⟩)
    rw [row, significant]

/-! ## Readings that stay in their block -/

/-- Whether a reading within the bracket `b` ends the block where it would have ended anyway. -/
def Stays (b : Bracket) (r : Reading α) : Prop := ∀ k, (r.run k).2.exit b = k.exit b

theorem stays_pure (b : Bracket) (a : α) : Stays b (pure a : Reading α) := fun _ => rfl

theorem stays_ofOption (b : Bracket) (a : Option α) : Stays b (ofOption a) := fun _ => rfl

theorem stays_peek (b : Bracket) (r : Reading α) : Stays b (peek r) := fun _ => rfl

theorem stays_bind {b : Bracket} {r : Reading α} {f : α → Reading β} (hr : Stays b r)
    (hf : ∀ a, Stays b (f a)) : Stays b (r >>= f) := by
  intro k
  show ((andThen r f).run k).2.exit b = _
  simp only [andThen]
  split
  · exact hr k
  · exact (hf _ _).trans (hr k)

theorem exit_settle (b : Bracket) (k : Cursor) : k.settle.exit b = k.exit b := by
  rw [Cursor.exit, Cursor.settle_settle, Cursor.exit]

theorem stays_next (b : Bracket) : Stays b (next (some b)) := by
  intro k
  cases h : k.settle.ahead with
  | nil => rw [run_next_nil h, exit_settle]
  | cons l ls =>
    by_cases hs : some l.token = (some b).map .closing
    · rw [run_next_stop h hs, exit_settle]
    · have hb : l.token ≠ .closing b := fun e => hs (congrArg some e)
      rw [run_next_cons h hs]
      show Cursor.leave [b] _ _ = Cursor.leave [b] _ _
      rw [h, Cursor.settle, ← Cursor.leave_append]
      cases ht : l.token with
      | opening o => rw [Cursor.leave_opening ht]; rfl
      | _ => rw [Cursor.leave_neither (by rw [ht]; simp) hb]; rfl

theorem stays_trivia (b : Bracket) : Stays b trivia := by
  intro k
  rw [← exit_settle b k]
  show (Cursor.passTrivia k.settle.ahead k.settle.pos).exit b = _
  have h (ls : List Lexeme) (pos : Nat) :
      (Cursor.passTrivia ls pos).exit b = Cursor.leave [b] ls pos := by
    induction ls generalizing pos with
    | nil => rfl
    | cons l ls ih =>
      rw [Cursor.passTrivia]
      split
      · next ht =>
        rw [ih, Cursor.leave_neither]
        · intro o e; rw [e] at ht; cases ht
        · intro e; rw [e] at ht; cases ht
      · rw [Cursor.exit, Cursor.settle_of_none rfl]
  rw [h, Cursor.exit, Cursor.settle_settle]

theorem stays_word (b : Bracket) : Stays b (word (some b)) :=
  stays_bind (stays_trivia b) fun _ => stays_next b

/-- Where the block that was opened is read by a reading that stays in it, the reading ends behind
    the block. -/
theorem run_within {r : Option Bracket → Reading α} {b : Bracket} (hr : Stays b (r (some b)))
    {k : Cursor} (h : k.opened = some b) : ((within r).run k).2 = k.settle := by
  have stays := hr k.enter
  simp only [within, h]
  rw [stays, Cursor.exit,
    Cursor.settle_of_none rfl, Cursor.settle, h]
  rfl

theorem stays_within (b : Bracket) {r : Option Bracket → Reading α}
    (hr : ∀ b', Stays b' (r (some b'))) : Stays b (within r) := by
  intro k
  cases h : k.opened with
  | none => simp only [within, h]
  | some b' => rw [run_within (hr b') h, exit_settle]

end Reading

end Translucent
