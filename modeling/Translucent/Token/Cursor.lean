import Translucent.Token

/-!
  # Reading lexemes from a place

  A `Cursor` is a place in the lexemes of a text.  Right behind a lexeme that opens a block it
  remembers the bracket: a reader who asks for the next lexeme there, instead of entering the block,
  gets what follows behind the block.

  1. **Leaving blocks** — `leave` passes over all that belongs to open blocks; a closing bracket
     that does not fit the innermost of them is passed over like any other lexeme.
  2. **Readings** — a `Reading` starts at a cursor, and gives a result or fails.  Either way it stops
     at a cursor, which is never further back; who wants to try something else from the first one
     has kept it.
  3. **Blocks** — `within` reads inside the block that was just opened.  What is read there ends
     where the bracket of the block is closed, so `next` is told that bracket.
-/

namespace Translucent

/-- A place in the lexemes of a text. -/
structure Cursor where
  /-- The lexemes to come. -/
  ahead : List Lexeme
  /-- The byte that they start at. -/
  pos : Nat
  /-- The bracket of the block that was just opened, unless it was entered. -/
  opened : Option Bracket

/-- The bracket of the block that a token opens. -/
def Token.opens? : Token → Option Bracket
  | opening o => some o.shape
  | _ => none

namespace Cursor

/-! ## Leaving blocks -/

/-- `leave inner ls pos` = the place behind the blocks of the brackets `inner`, the innermost first,
    from within which the lexemes `ls` follow at the byte `pos`. -/
def leave : List Bracket → List Lexeme → Nat → Cursor
  | [], ls, pos => ⟨ls, pos, none⟩
  | _ :: _, [], pos => ⟨[], pos, none⟩
  | b :: inner, l :: ls, pos =>
    let next := pos + Text.byteLength l.text
    match l.token with
    | .opening o => leave (o.shape :: b :: inner) ls next
    | .closing b' => if b' = b then leave inner ls next else leave (b :: inner) ls next
    | _ => leave (b :: inner) ls next

/-- The place behind the block that was just opened, if there is one. -/
def settle (k : Cursor) : Cursor := leave k.opened.toList k.ahead k.pos

/-- The place inside the block that was just opened. -/
def enter (k : Cursor) : Cursor := { k with opened := none }

/-- The place behind the block of the bracket `b` that the cursor stands in. -/
def exit (b : Bracket) (k : Cursor) : Cursor := leave [b] k.settle.ahead k.settle.pos

/-- The place behind the white space and the comments that come first in `ls`. -/
def passTrivia : List Lexeme → Nat → Cursor
  | [], pos => ⟨[], pos, none⟩
  | l :: ls, pos =>
    if l.token.isTrivia then passTrivia ls (pos + Text.byteLength l.text) else ⟨l :: ls, pos, none⟩

/-- `textTo k k'` = the text from the place `k` up to the place `k'` behind it. -/
def textTo (k k' : Cursor) : Text :=
  Lexeme.textOf (k.ahead.take (k.ahead.length - k'.ahead.length))

/-- Leaving blocks never goes back. -/
theorem length_leave_le (inner : List Bracket) (ls : List Lexeme) (pos : Nat) :
    (leave inner ls pos).ahead.length ≤ ls.length := by
  induction ls generalizing inner pos with
  | nil => cases inner <;> exact Nat.le_refl _
  | cons l ls ih =>
    cases inner with
    | nil => exact Nat.le_refl _
    | cons b inner =>
      have ih inner := Nat.le_succ_of_le (ih inner (pos + Text.byteLength l.text))
      rw [leave]
      split
      · exact ih _
      · split <;> exact ih _
      · exact ih _

theorem length_settle_le (k : Cursor) : k.settle.ahead.length ≤ k.ahead.length :=
  length_leave_le _ _ _

theorem length_exit_le (b : Bracket) (k : Cursor) : (k.exit b).ahead.length ≤ k.ahead.length :=
  Nat.le_trans (length_leave_le _ _ _) (length_settle_le k)

theorem length_passTrivia_le (ls : List Lexeme) (pos : Nat) :
    (passTrivia ls pos).ahead.length ≤ ls.length := by
  induction ls generalizing pos with
  | nil => exact Nat.le_refl _
  | cons l ls ih =>
    rw [passTrivia]
    split
    · exact Nat.le_succ_of_le (ih _)
    · exact Nat.le_refl _

end Cursor

/-! ## Readings -/

/-- A way to read on from a place: a result or none, and the place where the reading stops. -/
structure Reading (α : Type) where
  /-- What is read from a place. -/
  run : Cursor → Option α × Cursor
  /-- A reading never goes back. -/
  forward : ∀ k, (run k).2.ahead.length ≤ k.ahead.length

namespace Reading

variable {α β : Type}

/-- One reading behind another; if the first one fails, so does the whole. -/
def andThen (r : Reading α) (f : α → Reading β) : Reading β where
  run k :=
    match (r.run k).1 with
    | none => (none, (r.run k).2)
    | some a => (f a).run (r.run k).2
  forward k := by
    split
    · exact r.forward k
    · exact Nat.le_trans ((f _).forward _) (r.forward k)

instance : Monad Reading where
  pure a := ⟨fun k => (some a, k), fun _ => Nat.le_refl _⟩
  bind := andThen

/-- A result that does not depend on what is read. -/
def ofOption (a : Option α) : Reading α := ⟨fun k => (a, k), fun _ => Nat.le_refl _⟩

/-- Reading on only under a condition. -/
def require (p : Prop) [Decidable p] : Reading Unit := ofOption (if p then some () else none)

/-- A reading that goes back to where it started if it fails. -/
def orReset (r : Reading α) : Reading α where
  run k :=
    match (r.run k).1 with
    | none => (none, k)
    | some a => (some a, (r.run k).2)
  forward k := by
    split
    · exact Nat.le_refl _
    · exact r.forward k

/-- The result of a reading, without going there. -/
def peek (r : Reading α) : Reading (Option α) := ⟨fun k => (some (r.run k).1, k), fun _ => Nat.le_refl _⟩

/-- The next lexeme, unless what is read ends here: with the text, or where the bracket `stop` is
    closed. -/
def next (stop : Option Bracket) : Reading Lexeme where
  run k :=
    match k.settle.ahead with
    | [] => (none, k.settle)
    | l :: ls =>
      if some l.token = stop.map .closing then (none, k.settle)
      else (some l, ⟨ls, k.settle.pos + Text.byteLength l.text, l.token.opens?⟩)
  forward k := by
    have := k.length_settle_le
    split
    · exact this
    · next l ls h =>
      rw [h, List.length_cons] at this
      split
      · rw [h]; exact this
      · exact Nat.le_of_succ_le this

/-- White space and comments, if there are any. -/
def trivia : Reading Unit where
  run k := (some (), Cursor.passTrivia k.settle.ahead k.settle.pos)
  forward k := Nat.le_trans (Cursor.length_passTrivia_le _ _) k.length_settle_le

/-- The next lexeme that is neither white space nor a comment. -/
def word (stop : Option Bracket) : Reading Lexeme := do
  trivia
  next stop

/-- Whether nothing but white space and comments is left. -/
def isAtEnd (stop : Option Bracket) : Reading Bool := do
  return (← peek (word stop)).isNone

/-- `within r` = what `r` reads in the block that was just opened; it fails if `r` leaves something
    unread there.  The whole block is passed over in any case. -/
def within (r : Option Bracket → Reading α) : Reading α where
  run k :=
    match k.opened with
    | none => (none, k)
    | some b =>
      let inner := (r (some b)).run k.enter
      let complete := ((word (some b)).run inner.2).1.isNone
      (if complete then inner.1 else none, inner.2.exit b)
  forward k := by
    split
    · exact Nat.le_refl _
    · exact Nat.le_trans (Cursor.length_exit_le _ _) ((r _).forward _)

/-- Where a lexeme was read, fewer are to come. -/
theorem next_lt {stop : Option Bracket} {k : Cursor} {l : Lexeme}
    (h : ((next stop).run k).1 = some l) :
    ((next stop).run k).2.ahead.length < k.ahead.length := by
  have := k.length_settle_le
  simp only [next] at h ⊢
  split at h
  · cases h
  · next l' ls hls =>
    rw [hls, List.length_cons] at this
    split at h
    · cases h
    · next hstop => rw [if_neg hstop]; exact this

end Reading

end Translucent
