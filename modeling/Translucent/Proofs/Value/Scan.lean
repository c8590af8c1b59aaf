import Translucent.Proofs.Token.Read
import Translucent.Proofs.Value.Attempt

/-!
  # The scan follows the tree

  `Cursor.scan` tries, goes back, and enters and leaves blocks.  What it finds is what a recursion over
  the tree of the value finds.

  1. **Blocks passed over** — `settle_pos`: behind a block, the place has moved by its width.
  2. **The loop** — `scan_spec`: what is found from a place on are the `occurrences` of its row, and the
     scan of a block ends within that block.
  3. **Whole values** — `occurrencesIn_eq`, and `occurrences_outside` where no block lies deeper than
     `maxSearchDepth`: a recursion that knows neither depths nor places to go back to.
-/

namespace Translucent

open Content Reading

namespace Cursor

variable {v : Text} {stack : List Bracket} {k : Cursor}

/-! ## Blocks passed over -/

/-- Whether a place lies in the text `v`. -/
def In (v : Text) (k : Cursor) : Prop := k.ahead <:+ lexemes 0 v

theorem In.leave (h : k.In v) (inner : List Bracket) (pos : Nat) :
    (leave inner k.ahead pos).In v := by
  obtain ⟨passed, eq, -⟩ := leave_passed inner k.ahead pos
  exact List.IsSuffix.trans ⟨passed, eq.symm⟩ h

theorem In.settle (h : k.In v) : k.settle.In v := h.leave _ _

theorem In.closers (h : k.In v) : ∀ l ∈ k.ahead, ∀ b, l.token = .closing b → l.text = [b.closer] :=
  fun _ hl _ hb => text_of_closing (h.subset hl) hb

/-- The text of the block that was just opened, up to the place behind it. -/
theorem passed_of_opened (h : k.In v) {b : Bracket} (hb : k.opened = some b) (stack : List Bracket) :
    ∃ passed, k.ahead = passed ++ k.settle.ahead
      ∧ Lexeme.textOf passed = (k.enter.row (b :: stack)).text
        ++ (k.enter.level (b :: stack)).closing (b :: stack)
      ∧ k.settle.pos = k.pos + Text.byteLength (Lexeme.textOf passed) := by
  have settled : k.settle = leave [b] k.ahead k.pos := by rw [settle, hb]; rfl
  obtain ⟨passed, eq, pos⟩ := leave_passed [b] k.ahead k.pos
  rw [← settled] at eq pos
  refine ⟨passed, eq, ?_, pos⟩
  -- the text from here on is that of the block and that of the place behind it
  have whole := textOf_levels (b :: stack) k.ahead h.closers
  have rest := textOf_levels stack k.settle.ahead h.settle.closers
  rw [settled, levels_leave, List.length_singleton, List.drop_one, ← settled] at rest
  rw [Level.textOf_eq, List.tail_cons] at whole
  rw [(congrArg Lexeme.textOf eq).trans (Lexeme.textOf_append _ _), ← rest] at whole
  rw [row, level_of_none rfl]
  exact (List.append_cancel_right whole).symm

theorem byteLength_closing (b : Bracket) (stack : List Bracket) (l : Level) :
    Text.byteLength (l.closing (b :: stack)) = closingWidth l.closed := by
  cases h : l.closed <;> cases b <;> rw [Level.closing, h] <;> rfl

/-- Behind a block, the place has moved by the width of the block. -/
theorem settle_pos (h : k.In v) {b : Bracket} (hb : k.opened = some b) (stack : List Bracket) :
    k.settle.pos = k.pos + (k.enter.row (b :: stack)).width
      + closingWidth (k.enter.level (b :: stack)).closed := by
  obtain ⟨passed, -, text, pos⟩ := passed_of_opened h hb stack
  rw [pos, text, Text.byteLength_append, byteLength_closing, width_eq, Nat.add_assoc]

/-- The text up to the place behind a call ends in a parenthesis if the call does. -/
theorem getLast?_textTo (h : k.In v) {k' : Cursor} {l : Lexeme} (suffix : (l :: k'.ahead) <:+ k.ahead)
    {name : Text} (hl : l.token = .opening (.call name)) (hb : k'.opened = some .round)
    (stack : List Bracket) :
    (k.textTo k'.settle).getLast? = some ')'
      ↔ endsInParenthesis (k'.enter.row (.round :: stack))
          (k'.enter.level (.round :: stack)).closed = true := by
  have h' : k'.In v := ((List.suffix_cons _ _).trans suffix).trans h
  obtain ⟨before, eq⟩ := suffix
  obtain ⟨passed, eq', text, -⟩ := passed_of_opened h' hb stack
  have between : k.textTo k'.settle = Lexeme.textOf before ++ (l.text
      ++ ((k'.enter.row (.round :: stack)).text
        ++ (k'.enter.level (.round :: stack)).closing (.round :: stack))) := by
    have split : k.ahead = (before ++ l :: passed) ++ k'.settle.ahead := by
      rw [← eq, eq', List.append_assoc, List.cons_append, ← eq']
    rw [textTo, split, List.length_append, Nat.add_sub_cancel, List.take_left,
      Lexeme.textOf_append, Lexeme.textOf_cons, text]
  have opens := text_of_call (h.subset (eq ▸ List.mem_append_right _ List.mem_cons_self)) hl
  rw [between, endsInParenthesis, Level.closing]
  simp only [List.getLast?_append, opens]
  cases (k'.enter.level (.round :: stack)).closed with
  | true => exact iff_of_true rfl rfl
  | false =>
    -- the parenthesis that opens the call is none that ends it
    cases (k'.enter.row (.round :: stack)).text.getLast? with
    | none => simp
    | some c => simp

/-! ## The loop -/

/-- What is found in a block that is not too deep. -/
theorem occurrences_block {depth : Nat} (shallow : depth < maxSearchDepth) (start pos : Nat)
    (o : Opener) (t : Text) (body : Content) (closed : Bool) (rest : Content) :
    (Content.block o t body closed rest).occurrences depth start pos =
      let inner := pos + Text.byteLength t
      let next := inner + body.width + closingWidth closed
      (match o with
        | .bracket _ => body.occurrences (depth + 1) inner inner
        | .call name =>
          match call? name body with
          | some s => if endsInParenthesis body closed then [⟨pos, next, s⟩] else []
          | none =>
            if CallName.colors.contains name then [] else body.occurrences (depth + 1) inner inner)
      ++ rest.occurrences depth next next := by
  have h : ¬maxSearchDepth ≤ depth := Nat.not_le.mpr shallow
  exact if_neg h

theorem exit_enter {b : Bracket} (hb : k.opened = some b) : k.enter.exit b = k.settle := by
  rw [exit, settle_of_none rfl, settle, hb]
  rfl

theorem scan_none {stop : Option Bracket} {depth : Nat} {k' : Cursor}
    (h : (next stop).run k = (none, k')) : (scan stop depth k).1 = ([], k') := by
  have stopped : ((next stop).run k).1 = none := by rw [h]
  rw [scan]
  split
  · show ([], ((next stop).run k).2) = _
    rw [h]
  · next hl => rw [stopped] at hl; cases hl

theorem scan_some {stop : Option Bracket} {depth : Nat} {k' : Cursor} {l : Lexeme}
    (h : (next stop).run k = (some l, k')) :
    (scan stop depth k).1 =
      let found := item stop depth k l k' fun b => (scan (some b) (depth + 1) k'.enter).1
      (found.1 ++ (scan stop depth found.2).1.1, (scan stop depth found.2).1.2) := by
  have read : ((next stop).run k).1 = some l := by rw [h]
  rw [scan]
  split
  · next hl => rw [read] at hl; cases hl
  · next l' hl =>
    obtain rfl : l' = l := Option.some.inj (hl.symm.trans read)
    obtain rfl : ((next stop).run k).2 = k' := by rw [h]
    rfl

/-- Whether the scan of the rest of a block finds what the row holds, and ends within the block. -/
def Follows (depth : Nat) (stack : List Bracket) (k : Cursor) : Prop :=
  (scan stack.head? depth k).1.1 = (k.row stack).occurrences depth k.pos k.settle.pos
    ∧ ∀ b, stack.head? = some b → (scan stack.head? depth k).1.2.exit b = k.exit b

/-- What an item of the loop has to do: it finds `os` in front of the place where it goes on, so that
    all in all the row is done. -/
theorem Follows.of_item {depth : Nat} {k' : Cursor} {l : Lexeme} {os : List Occurrence}
    (read : (next stack.head?).run k = (some l, k')) {k'' : Cursor}
    (item_eq : item stack.head? depth k l k' (fun b => (scan (some b) (depth + 1) k'.enter).1)
      = (os, k''))
    (rest : Follows depth stack k'')
    (row : (k.row stack).occurrences depth k.pos k.settle.pos
      = os ++ (k''.row stack).occurrences depth k''.pos k''.settle.pos)
    (exit : ∀ b, stack.head? = some b → k''.exit b = k.exit b) : Follows depth stack k := by
  obtain ⟨found, ended⟩ := rest
  constructor
  · rw [scan_some read, item_eq, row, ← found]
  · intro b hb
    rw [scan_some read, item_eq]
    exact (ended b hb).trans (exit b hb)

/-- **One component**: behind a leaf that starts no shorthand. -/
theorem item_leaf {depth : Nat} {k' : Cursor} {l : Lexeme} (ho : ∀ o, l.token ≠ .opening o)
    (opened : k'.opened = none) (none_found : hexShorthand? l (k'.row stack) = none)
    (inner : Bracket → List Occurrence × Cursor) :
    item stack.head? depth k l k' inner = ([], k') := by
  unfold item
  cases ht : l.token with
  | opening o => exact absurd ht (ho o)
  | hash digits =>
    rcases run_digitsWithAlpha stack ht opened with ⟨-, run⟩ | ⟨s, number, k'', found, -⟩
    · dsimp only
      rw [run]
      rfl
    · rw [none_found] at found
      cases found
  | _ => rfl

/-- **Two components**: the digits and the number of a shorthand. -/
theorem item_digits {depth : Nat} {k' : Cursor} {l : Lexeme} (opened : k'.opened = none)
    {s : Shorthand} {number : Lexeme} (found : hexShorthand? l (k'.row stack) = some (s, number))
    (inner : Bracket → List Occurrence × Cursor) :
    ∃ k'', item stack.head? depth k l k' inner = ([⟨k.pos, k''.pos, s⟩], k'')
      ∧ (number :: k''.ahead) <:+ k'.ahead ∧ k''.opened = none
      ∧ (∀ b, stack.head? = some b → k''.exit b = k'.exit b)
      ∧ ∀ start pos, k'.pos = pos + Text.byteLength l.text →
        (Content.leaf l (k'.row stack)).occurrences depth start pos
          = ⟨start, k''.pos, s⟩ :: (k''.row stack).occurrences depth k''.pos k''.pos := by
  cases ht : l.token with
  | hash digits =>
    rcases run_digitsWithAlpha stack ht opened with ⟨nothing, -⟩
        | ⟨s', number', k'', found', run, suffix, behind, opened', token, row⟩
    · rw [found] at nothing
      cases nothing
    · obtain ⟨rfl, rfl⟩ : s = s' ∧ number = number' := by
        rw [found] at found'
        injection found' with found'
        injection found' with hs hn
        exact ⟨hs, hn⟩
      refine ⟨k'', ?_, suffix, opened', ?_, ?_⟩
      · simp only [item, ht, run]
        rfl
      · intro b hb
        have stays := stays_digitsWithAlpha b digits k'
        rw [← hb, run] at stays
        exact stays
      · intro start pos hpos
        have no_hash (rest : Content) : hexShorthand? number rest = none := by
          simp only [hexShorthand?, token]
        simp only [occurrences, found]
        rw [← hpos, row]
        simp only [occurrences, no_hash]
        rw [← behind]
  | _ =>
    unfold hexShorthand? at found
    simp only [ht] at found
    cases found

/-- **One component**: a block that is not too deep. -/
theorem item_block {depth : Nat} (h : k.In v) (hk : k.opened = none) (shallow : depth < maxSearchDepth)
    {k' : Cursor} {l : Lexeme} (suffix : (l :: k'.ahead) <:+ k.ahead)
    {o : Opener} (hl : l.token = .opening o) (opened : k'.opened = some o.shape)
    (pos : k'.pos = k.settle.pos + Text.byteLength l.text)
    (inner : Bracket → List Occurrence × Cursor)
    (found : (inner o.shape).1
      = (k'.enter.row (o.shape :: stack)).occurrences (depth + 1) k'.pos k'.pos)
    (ended : (inner o.shape).2.exit o.shape = k'.settle) :
    ∃ os, item stack.head? depth k l k' inner = (os, k'.settle)
      ∧ (Content.block o l.text (k'.enter.row (o.shape :: stack))
          (k'.enter.level (o.shape :: stack)).closed (k'.row stack)).occurrences depth k.pos k.settle.pos
        = os ++ (k'.row stack).occurrences depth k'.settle.pos k'.settle.pos := by
  have h' : k'.In v := ((List.suffix_cons _ _).trans suffix).trans h
  have behind := settle_pos h' opened stack
  rw [occurrences_block shallow]
  simp only [← pos, ← behind]
  cases o with
  | bracket b =>
    refine ⟨_, ?_, rfl⟩
    simp only [item, hl, if_neg (Nat.not_le.mpr shallow)]
    exact Prod.ext found ended
  | call name =>
    have run := run_within_callShorthand stack name opened
    simp only [Opener.shape] at opened found ended ⊢
    refine ⟨_, ?_, rfl⟩
    simp only [item, hl, if_neg (Nat.not_le.mpr shallow), run]
    cases call? name (k'.enter.row (.round :: stack)) with
    | some s =>
      dsimp only
      rw [settle_of_none hk]
      by_cases whole : endsInParenthesis (k'.enter.row (.round :: stack))
          (k'.enter.level (.round :: stack)).closed = true
      · have last := (getLast?_textTo h suffix hl opened stack).mpr whole
        exact Prod.ext ((if_pos last).trans (if_pos whole).symm) rfl
      · have last := mt (getLast?_textTo h suffix hl opened stack).mp whole
        exact Prod.ext ((if_neg last).trans (if_neg whole).symm) rfl
    | none =>
      dsimp only
      split
      · rfl
      · exact Prod.ext found ended

/-- **The loop**: what the scan finds from a place on are the occurrences in the row of the place, and
    it ends where the row does. -/
theorem scan_spec (depth : Nat) (stack : List Bracket) (k : Cursor) (h : k.In v)
    (hk : depth < maxSearchDepth → k.opened = none) : Follows depth stack k := by
  -- by the number of lexemes to come, as for `scan` itself
  generalize size : k.ahead.length = n
  induction n using Nat.strongRecOn generalizing depth stack k with
  | ind n ih =>
    have stays (b : Bracket) (hb : stack.head? = some b) {r} {k' : Cursor}
        (read : (next stack.head?).run k = (r, k')) : k'.exit b = k.exit b := by
      have := stays_next b k
      rw [← hb, read] at this
      exact this
    rcases next_cases stack k with ⟨row, read⟩ | ⟨l, k', read, suffix, pos, opened, ho, row⟩
        | ⟨l, k', o, read, suffix, pos, opened, ho, row⟩
    · -- the row ends
      constructor
      · rw [scan_none read, row]; rfl
      · intro b hb
        rw [scan_none read, exit_settle]
    · -- a leaf
      have less : k'.ahead.length < n := size ▸ suffix.length_le
      have h' : k'.In v := ((List.suffix_cons _ _).trans suffix).trans h
      cases found : hexShorthand? l (k'.row stack) with
      | none =>
        have rest := ih _ less depth stack k' h' (fun _ => opened) rfl
        refine Follows.of_item read (item_leaf ho opened found _) rest ?_ fun b hb => stays b hb read
        rw [row]
        simp only [occurrences, found]
        rw [← pos, settle_of_none opened]
        rfl
      | some r =>
        obtain ⟨k'', item_eq, suffix', opened', exit', occurrences_eq⟩ :=
          item_digits opened found (fun b => (scan (some b) (depth + 1) k'.enter).1)
        have shorter : k''.ahead.length < n :=
          Nat.lt_of_le_of_lt (Nat.le_of_succ_le suffix'.length_le) less
        have rest := ih _ shorter depth stack k'' (((List.suffix_cons _ _).trans suffix').trans h')
          (fun _ => opened') rfl
        refine Follows.of_item read item_eq rest ?_ fun b hb => ?_
        · rw [row, settle_of_none opened']
          exact occurrences_eq k.pos k.settle.pos pos
        · rw [exit' b hb, stays b hb read]
    · -- a block
      have less : k'.ahead.length < n := size ▸ suffix.length_le
      have h' : k'.In v := ((List.suffix_cons _ _).trans suffix).trans h
      by_cases deep : maxSearchDepth ≤ depth
      · have hk' : depth < maxSearchDepth → k'.opened = none := fun h => absurd deep (Nat.not_le.mpr h)
        have rest := ih _ less depth stack k' h' hk' rfl
        have item_eq : item stack.head? depth k l k' (fun b => (scan (some b) (depth + 1) k'.enter).1)
            = ([], k') := by
          simp only [item, ho, if_pos deep]
        refine Follows.of_item read item_eq rest ?_ fun b hb => stays b hb read
        rw [row]
        simp only [occurrences, if_pos deep]
        rw [← pos, ← settle_pos h' opened stack]
        rfl
      · have shallow := Nat.lt_of_not_le deep
        obtain ⟨found, ended⟩ := ih _ less (depth + 1) (o.shape :: stack) k'.enter h' (fun _ => rfl) rfl
        have entered : k'.enter.settle = k'.enter := settle_of_none rfl
        rw [entered] at found
        have shorter : k'.settle.ahead.length < n := Nat.lt_of_le_of_lt (length_settle_le k') less
        have rest := ih _ shorter depth stack k'.settle h'.settle (fun _ => opened_leave _ _ _) rfl
        obtain ⟨os, item_eq, occurrences_eq⟩ :=
          item_block h (hk shallow) shallow suffix ho opened pos
            (fun b => (scan (some b) (depth + 1) k'.enter).1) found
            ((ended _ rfl).trans (exit_enter opened))
        refine Follows.of_item read item_eq rest ?_ fun b hb => ?_
        · rw [row, occurrences_eq, settle_settle, row_settle]
        · rw [exit_settle, stays b hb read]

end Cursor

/-! ## Whole values -/

/-- The shorthands found in a value are the occurrences in its tree. -/
theorem occurrencesIn_eq (v : Text) : occurrencesIn v = (ofText v).occurrences 0 0 0 := by
  have found := (Cursor.scan_spec 0 [] ⟨lexemes 0 v, 0, none⟩ (List.suffix_refl (lexemes 0 v))
    fun _ => rfl).1
  have settled : Cursor.settle ⟨lexemes 0 v, 0, none⟩ = ⟨lexemes 0 v, 0, none⟩ :=
    Cursor.settle_of_none rfl
  rw [settled] at found
  have level := Cursor.level_of_none (show Cursor.opened ⟨lexemes 0 v, 0, none⟩ = none from rfl) []
  rw [occurrencesIn, ofText, ofLexemes, ← level]
  exact found

namespace Content

/-- `depth c` = how many blocks inside one another there are in `c`, at most. -/
def depth : Content → Nat
  | nil => 0
  | leaf _ rest => depth rest
  | block _ _ body _ rest => max (depth body + 1) (depth rest)

/-- `shorthands pos c` = the shorthands in `c`, which lies at the byte `pos`: those of digits, with
    their number; calls that are shorthands and end in a parenthesis; and what stands in other blocks
    but calls that are colours of their own. -/
def shorthands (pos : Nat) : Content → List Occurrence
  | nil => []
  | leaf l rest =>
    let next := pos + Text.byteLength l.text
    match hexShorthand? l rest with
    | some (s, number) => ⟨pos, next + Text.byteLength number.text, s⟩ :: shorthands next rest
    | none => shorthands next rest
  | block o t body closed rest =>
    let inner := pos + Text.byteLength t
    let next := inner + body.width + closingWidth closed
    match o with
    | .bracket _ => shorthands inner body ++ shorthands next rest
    | .call name =>
      match call? name body with
      | some s =>
        if endsInParenthesis body closed then ⟨pos, next, s⟩ :: shorthands next rest
        else shorthands next rest
      | none =>
        if CallName.colors.contains name then shorthands next rest
        else shorthands inner body ++ shorthands next rest

/-- Where no block is too deep, depths do not count. -/
theorem occurrences_eq_shorthands (c : Content) (d pos : Nat) (h : d + c.depth ≤ maxSearchDepth) :
    c.occurrences d pos pos = c.shorthands pos := by
  induction c generalizing d pos with
  | nil => rfl
  | leaf l rest ih =>
    have tail := ih d (pos + Text.byteLength l.text) h
    rw [occurrences, shorthands]
    cases hexShorthand? l rest with
    | none => exact tail
    | some found => exact congrArg (_ :: ·) tail
  | block o t body closed rest ihb ihr =>
    rw [depth] at h
    have shallow : d < maxSearchDepth := by omega
    have hb : d + 1 + body.depth ≤ maxSearchDepth := by omega
    have hr : d + rest.depth ≤ maxSearchDepth := by omega
    rw [Cursor.occurrences_block shallow]
    simp only [shorthands, ihb (d + 1) _ hb, ihr d _ hr]
    cases o with
    | bracket b => rfl
    | call name =>
      dsimp only
      split
      · split <;> rfl
      · split <;> rfl

/-- The same for a whole value. -/
theorem occurrences_outside {c : Content} (h : c.depth ≤ maxSearchDepth) :
    c.occurrences 0 0 0 = c.shorthands 0 :=
  occurrences_eq_shorthands c 0 0 (by rw [Nat.zero_add]; exact h)

end Content

end Translucent
