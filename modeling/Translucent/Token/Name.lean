import Translucent.Text.Digit
import Translucent.Token.Character

/-!
  # Names and escapes

  A name is a run of name characters and escapes.  An escape is a backslash and either up to six
  hexadecimal digits, closed by at most one white space, or any other character but a line end.

  1. **Extent** — `escapeLength` behind a backslash, `nameLength` for a whole name.  They count
     characters, never more than there are (`escapeLength_le`, `nameLength_le`).
  2. **Meaning** — `unescape` gives the name that is meant.

  Both walk the text character by character with a count of those that are already known to belong
  to an escape; it is zero between escapes.
-/

namespace Translucent

/-! ## Escapes -/

/-- `hexRun n s` = the number of hexadecimal digits that `s` starts with, at most `n`. -/
def hexRun : Nat → Text → Nat
  | n + 1, c :: s => if isHexDigit c then hexRun n s + 1 else 0
  | _, _ => 0

/-- The one white space that closes an escape of digits is part of it. -/
def escapeEnd : Text → Nat
  | [] => 0
  | c :: s => if Character.isNewline c then newlineLength (c :: s)
      else if Character.isSpace c then 1 else 0

/-- `escapeLength s` = how much of `s`, the text behind a backslash, belongs to the escape.  At the
    end of the text the backslash alone is one. -/
def escapeLength : Text → Nat
  | [] => 0
  | c :: s =>
    let digits := hexRun 6 (c :: s)
    if digits = 0 then 1 else digits + escapeEnd ((c :: s).drop digits)

/-- What stands for a character that cannot be had. -/
def replacement : Char := '\uFFFD'

/-- The character with the code `n`; the replacement for zero and for codes that are none. -/
def charOfCode (n : Nat) : Char :=
  if n ≠ 0 ∧ n.isValidChar then Char.ofNat n else replacement

/-- `escapedChar s` = the character meant by the escape whose backslash `s` follows. -/
def escapedChar : Text → Char
  | [] => replacement
  | c :: s =>
    let digits := hexRun 6 (c :: s)
    if digits = 0 then (if c = '\x00' then replacement else c)
    else charOfCode <|
      ((c :: s).take digits).foldl (fun n d => 16 * n + (hexDigit? d).getD 0) 0

/-! ## Names -/

/-- Whether a name starts here.  Behind a first hyphen any backslash will do, even one that cannot
    be an escape. -/
def startsName : Text → Bool
  | [] => false
  | '-' :: s => match s with
    | [] => false
    | c :: _ => Character.isNameStart c || c == '-' || c == '\\'
  | '\\' :: s => !startsNewline s
  | c :: _ => Character.isNameStart c

/-- `nameLength k s` = how far the name at hand reaches into `s`, where the first `k` characters
    belong to it as part of an escape. -/
def nameLength : Nat → Text → Nat
  | _, [] => 0
  | k + 1, _ :: s => nameLength k s + 1
  | 0, c :: s =>
    if Character.isNameChar c then nameLength 0 s + 1
    else if c = '\\' ∧ startsNewline s = false then nameLength (escapeLength s) s + 1
    else 0

/-- `unescape k s` = the name written as `s`, where the first `k` characters belong to an escape
    that was already read. -/
def unescape : Nat → Text → Text
  | _, [] => []
  | k + 1, _ :: s => unescape k s
  | 0, c :: s =>
    if c = '\\' then escapedChar s :: unescape (escapeLength s) s
    else if c = '\x00' then replacement :: unescape 0 s
    else c :: unescape 0 s

/-! ## Bounds -/

theorem hexRun_le (n : Nat) (s : Text) : hexRun n s ≤ s.length := by
  induction s generalizing n with
  | nil => cases n <;> simp [hexRun]
  | cons c s ih =>
    cases n with
    | zero => simp [hexRun]
    | succ n => rw [hexRun]; split <;> simp [ih n]

theorem newlineLength_le (s : Text) : newlineLength s ≤ s.length := by
  unfold newlineLength
  split
  · simp
  · split <;> simp
  · simp

theorem escapeEnd_le (s : Text) : escapeEnd s ≤ s.length := by
  cases s with
  | nil => simp [escapeEnd]
  | cons c s =>
    rw [escapeEnd]
    split
    · exact newlineLength_le _
    · split <;> simp

/-- An escape ends with the text at the latest. -/
theorem escapeLength_le (s : Text) : escapeLength s ≤ s.length := by
  cases s with
  | nil => simp [escapeLength]
  | cons c s =>
    have := hexRun_le 6 (c :: s)
    have := escapeEnd_le ((c :: s).drop (hexRun 6 (c :: s)))
    rw [List.length_drop] at this
    simp only [escapeLength]
    split
    · simp
    · omega

/-- A name ends with the text at the latest. -/
theorem nameLength_le (k : Nat) (s : Text) : nameLength k s ≤ s.length := by
  induction s generalizing k with
  | nil => simp [nameLength]
  | cons c s ih =>
    cases k with
    | zero =>
      rw [nameLength]
      split
      · simp [ih]
      · split <;> simp [ih]
    | succ k => simp [nameLength, ih]

end Translucent
