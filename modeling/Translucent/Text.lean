/-!
  # Text and its bytes

  A text is the list of its characters.  Positions in a text are counted in bytes of its UTF-8
  form, so that a span taken from a text means the same to every other tool that reads the file:

  1. **Size** — `byteLength`, the bytes of a whole text, additive over `++`.
  2. **Cutting** — `dropBytes`, `takeBytes` and `slice?` cut at byte positions.  A cut inside a
     character, or beyond the end, has no result; a cut at the end of a known first part gives
     exactly the two parts (`dropBytes_append`, `takeBytes_append`).
  3. **Case** — ASCII letters only, as everywhere in style sheets.
-/

namespace Translucent

/-- A text is the list of its characters. -/
abbrev Text := List Char

namespace Text

/-! ## Size in bytes -/

/-- `byteLength t` = the number of bytes of the UTF-8 form of `t`. -/
def byteLength : Text → Nat
  | [] => 0
  | c :: t => c.utf8Size + byteLength t

@[simp] theorem byteLength_nil : byteLength [] = 0 := rfl

@[simp] theorem byteLength_cons (c : Char) (t : Text) :
    byteLength (c :: t) = c.utf8Size + byteLength t := rfl

@[simp] theorem byteLength_append (s t : Text) :
    byteLength (s ++ t) = byteLength s + byteLength t := by
  induction s with
  | nil => simp
  | cons c s ih => simp [ih]; omega

/-- Every character takes at least one byte, so only the empty text has none. -/
theorem byteLength_eq_zero_iff {t : Text} : byteLength t = 0 ↔ t = [] := by
  cases t with
  | nil => simp
  | cons c t => have := c.utf8Size_pos; simp; omega

/-- An ASCII character takes one byte. -/
theorem utf8Size_of_ascii {c : Char} (h : c.toNat ≤ 127) : c.utf8Size = 1 :=
  Char.utf8Size_eq_one_iff.mpr (UInt32.le_iff_toNat_le.mpr h)

/-! ## Cutting at byte positions -/

/-- `dropBytes n t` = what follows the first `n` bytes of `t`; nothing if no character of `t` ends
    there. -/
def dropBytes : Nat → Text → Option Text
  | 0, t => some t
  | _ + 1, [] => none
  | n + 1, c :: t => if c.utf8Size ≤ n + 1 then dropBytes (n + 1 - c.utf8Size) t else none

/-- `takeBytes n t` = the first `n` bytes of `t`; nothing if no character of `t` ends there. -/
def takeBytes : Nat → Text → Option Text
  | 0, _ => some []
  | _ + 1, [] => none
  | n + 1, c :: t =>
    if c.utf8Size ≤ n + 1 then (takeBytes (n + 1 - c.utf8Size) t).map (c :: ·) else none

/-- `slice? i j t` = the bytes of `t` from `i` up to `j`; nothing if the range is reversed, reaches
    beyond the end, or does not lie on character boundaries. -/
def slice? (i j : Nat) (t : Text) : Option Text :=
  if i ≤ j then (dropBytes i t).bind (takeBytes (j - i)) else none

@[simp] theorem dropBytes_zero (t : Text) : dropBytes 0 t = some t := by
  cases t <;> rfl

@[simp] theorem takeBytes_zero (t : Text) : takeBytes 0 t = some [] := by
  cases t <;> rfl

/-- A character at the front is dropped by its own size. -/
theorem dropBytes_cons (c : Char) (t : Text) (n : Nat) :
    dropBytes (c.utf8Size + n) (c :: t) = dropBytes n t := by
  have := c.utf8Size_pos
  obtain ⟨m, hm⟩ : ∃ m, c.utf8Size + n = m + 1 := ⟨c.utf8Size + n - 1, by omega⟩
  rw [hm, dropBytes, if_pos (by omega), ← hm, Nat.add_sub_cancel_left]

/-- A character at the front is taken by its own size. -/
theorem takeBytes_cons (c : Char) (t : Text) (n : Nat) :
    takeBytes (c.utf8Size + n) (c :: t) = (takeBytes n t).map (c :: ·) := by
  have := c.utf8Size_pos
  obtain ⟨m, hm⟩ : ∃ m, c.utf8Size + n = m + 1 := ⟨c.utf8Size + n - 1, by omega⟩
  rw [hm, takeBytes, if_pos (by omega), ← hm, Nat.add_sub_cancel_left]

/-- Dropping reaches through a known first part. -/
theorem dropBytes_append (s t : Text) (n : Nat) :
    dropBytes (byteLength s + n) (s ++ t) = dropBytes n t := by
  induction s with
  | nil => simp
  | cons c s ih => rw [byteLength_cons, Nat.add_assoc, List.cons_append, dropBytes_cons, ih]

/-- Taking the bytes of a known first part gives that part. -/
theorem takeBytes_append (s t : Text) : takeBytes (byteLength s) (s ++ t) = some s := by
  induction s with
  | nil => simp
  | cons c s ih => rw [byteLength_cons, List.cons_append, takeBytes_cons, ih]; rfl

/-- What is cut at a byte is put together again. -/
theorem eq_append_of_cut {n : Nat} {t s u : Text} (before : takeBytes n t = some s) (behind : dropBytes n t = some u) :
    t = s ++ u := by
  fun_induction takeBytes n t generalizing s with
  | case1 t =>
    rw [dropBytes_zero] at behind
    obtain rfl := Option.some.inj before
    obtain rfl := Option.some.inj behind
    rfl
  | case2 n => cases before
  | case3 n c t fits ih =>
    rw [dropBytes, if_pos fits] at behind
    obtain ⟨s', taken, rfl⟩ := Option.map_eq_some_iff.mp before
    rw [List.cons_append, ← ih taken behind]
  | case4 n c t long => cases before

/-- The slice between two known parts is what stands between them. -/
theorem slice?_append (s m t : Text) :
    slice? (byteLength s) (byteLength s + byteLength m) (s ++ (m ++ t)) = some m := by
  have hd := dropBytes_append s (m ++ t) 0
  rw [Nat.add_zero, dropBytes_zero] at hd
  rw [slice?, if_pos (by omega), hd, Option.bind_some, Nat.add_sub_cancel_left, takeBytes_append]

/-- A later part of a text ends like the text, if it is not empty. -/
theorem getLast?_drop_ne {t : Text} {c : Char} (last : t.getLast? ≠ some c) (n : Nat) :
    (t.drop n).getLast? ≠ some c := by
  rw [List.getLast?_drop]
  split
  · simp
  · exact last

/-! ## Case -/

/-- `lower t` = `t` with the letters `A` to `Z` made small. -/
def lower (t : Text) : Text := t.map Char.toLower

/-- `upper t` = `t` with the letters `a` to `z` made large. -/
def upper (t : Text) : Text := t.map Char.toUpper

/-- Whether two texts are equal up to the case of ASCII letters. -/
def eqIgnoreCase (s t : Text) : Bool := lower s == lower t

end Text

end Translucent
