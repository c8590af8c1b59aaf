import Translucent.Token.Lexer

/-!
  # Measures that end within a text

  What a name, an escape, a string, a comment or an address takes of a text is measured up to its end.
  If that end lies within the first part of the text, the second part does not matter, though the
  measure may look one character beyond the end.

  1. **Escapes** — `escapeLength_inside`, and `escapeLength_boundary` where the escape may reach the end of
     the first part.
  2. **Names** — `nameLength_inside`, `nameLength_end` and `nameLength_extend`: a name ends within the first
     part, at its end, or goes on into the second part.
  3. **Extents** — the same for strings, comments and addresses.  They are never empty, but for a string
     that is broken off, so that they cannot end just where the first part does.
-/

namespace Translucent

variable {x z : Text}

/-! ## Escapes -/

theorem startsNewline_append (hz : startsNewline z = false) {z' : Text} (hz' : startsNewline z' = false) :
    startsNewline (x ++ z) = startsNewline (x ++ z') := by
  cases x with
  | nil => exact hz.trans hz'.symm
  | cons c x => rfl

theorem hexRun_inside {n : Nat} (h : hexRun n (x ++ z) < x.length) (z' : Text) :
    hexRun n (x ++ z') = hexRun n (x ++ z) := by
  induction x generalizing n with
  | nil => simp at h
  | cons c x ih =>
    cases n with
    | zero => rfl
    | succ n =>
      simp only [List.cons_append, hexRun, List.length_cons] at h ⊢
      split
      · next hex =>
        rw [if_pos hex] at h
        rw [ih (by omega)]
      · rfl

theorem newlineLength_cons (c : Char) (s : Text) :
    newlineLength (c :: s)
      = if c = '\r' ∧ s.head? = some '\n' then 2 else if Character.isNewline c then 1 else 0 := by
  by_cases feed : c = '\r' ∧ s.head? = some '\n'
  · obtain ⟨rfl, feed⟩ := feed
    cases s with
    | nil => simp at feed
    | cons d s =>
      obtain rfl := Option.some.inj feed
      rfl
  · rw [if_neg feed]
    unfold newlineLength
    split
    · next eq =>
      injection eq with hc hs
      exact absurd ⟨hc, by rw [hs]; rfl⟩ feed
    · next eq =>
      injection eq with hc hs
      rw [hc]
    · next eq => simp at eq

theorem newlineLength_inside (h : newlineLength (x ++ z) < x.length) (z' : Text) :
    newlineLength (x ++ z') = newlineLength (x ++ z) := by
  rcases x with _ | ⟨c, _ | ⟨d, x⟩⟩
  · simp at h
  · -- a line end would be one character long already
    have none : ¬Character.isNewline c = true := by
      intro newline
      simp only [List.cons_append, List.nil_append, newlineLength_cons, if_pos newline,
        List.length_singleton] at h
      split at h <;> omega
    have noReturn : c ≠ '\r' := by rintro rfl; exact none rfl
    simp only [List.cons_append, newlineLength_cons, noReturn, false_and, if_neg none]
  · show newlineLength (c :: (d :: (x ++ z'))) = newlineLength (c :: (d :: (x ++ z)))
    rw [newlineLength_cons, newlineLength_cons]
    rfl

theorem escapeEnd_inside (h : escapeEnd (x ++ z) < x.length) (z' : Text) :
    escapeEnd (x ++ z') = escapeEnd (x ++ z) := by
  cases x with
  | nil => simp at h
  | cons c x =>
    simp only [List.cons_append, escapeEnd] at h ⊢
    split
    · next newline =>
      rw [if_pos newline] at h
      exact newlineLength_inside (x := c :: x) h z'
    · rfl

/-- An escape that ends before the end of `x` does not depend on what follows. -/
theorem escapeLength_inside (h : escapeLength (x ++ z) < x.length) (z' : Text) :
    escapeLength (x ++ z') = escapeLength (x ++ z) := by
  have eq (s : Text) (hs : s ≠ []) : escapeLength s
      = if hexRun 6 s = 0 then 1 else hexRun 6 s + escapeEnd (s.drop (hexRun 6 s)) := by
    cases s with
    | nil => exact absurd rfl hs
    | cons c s => rfl
  have nonempty : x ≠ [] := by rintro rfl; simp at h
  rw [eq _ (by simp [nonempty])] at h ⊢
  rw [eq _ (by simp [nonempty])]
  have digits : hexRun 6 (x ++ z) < x.length := by
    split at h
    · next none => rw [none]; exact List.length_pos_iff.mpr nonempty
    · omega
  rw [hexRun_inside digits z']
  split
  · rfl
  · next some =>
    rw [if_neg some] at h
    rw [List.drop_append_of_le_length (Nat.le_of_lt digits)] at h ⊢
    rw [List.drop_append_of_le_length (Nat.le_of_lt digits), escapeEnd_inside _ z']
    rw [List.length_drop]
    omega

section Boundary

variable {m : Char} {t : Text}

theorem hexRun_boundary (hm : isHexDigit m = false) (n : Nat) : hexRun n (x ++ m :: t) = hexRun n x := by
  induction x generalizing n with
  | nil =>
    cases n with
    | zero => rfl
    | succ n => exact if_neg (by rw [hm]; exact Bool.false_ne_true)
  | cons c x ih =>
    cases n with
    | zero => rfl
    | succ n => simp only [List.cons_append, hexRun, ih]

theorem escapeEnd_boundary (hm : Character.isSpace m = false) :
    escapeEnd (x ++ m :: t) = escapeEnd x := by
  have newline : Character.isNewline m = false := by
    simp only [Character.isSpace, Bool.or_eq_false_iff] at hm
    exact hm.2
  rcases x with _ | ⟨c, _ | ⟨d, x⟩⟩
  · simp [escapeEnd, newline, hm]
  · have feed : m ≠ '\n' := by rintro rfl; simp [Character.isNewline] at newline
    simp only [List.cons_append, List.nil_append, escapeEnd, newlineLength_cons, List.head?_cons,
      Option.some.injEq, feed, and_false, if_false, List.head?_nil, reduceCtorEq]
  · show escapeEnd (c :: (d :: (x ++ m :: t))) = escapeEnd (c :: (d :: x))
    rw [escapeEnd, escapeEnd, newlineLength_cons, newlineLength_cons]
    rfl

/-- Before a character that belongs to no escape of digits, an escape ends as it would at the end of the
    text, unless it is that character alone. -/
theorem escapeLength_boundary (hex : isHexDigit m = false) (space : Character.isSpace m = false) :
    escapeLength (x ++ m :: t) = if x = [] then 1 else escapeLength x := by
  cases x with
  | nil =>
    rw [if_pos rfl, List.nil_append, escapeLength,
      show hexRun 6 (m :: t) = 0 from hexRun_boundary (x := []) hex 6]
    rfl
  | cons c x =>
    have length := hexRun_le 6 (c :: x)
    rw [if_neg (List.cons_ne_nil c x), List.cons_append, escapeLength, escapeLength]
    rw [← List.cons_append, hexRun_boundary hex, List.drop_append_of_le_length length,
      escapeEnd_boundary space]

end Boundary

/-! ## Names -/

theorem nameLength_zero (c : Char) (s : Text) : nameLength 0 (c :: s)
    = if Character.isNameChar c then nameLength 0 s + 1
      else if c = '\\' ∧ startsNewline s = false then nameLength (escapeLength s) s + 1 else 0 := rfl

/-- What is known to belong to a name that ends within `x` ends within `x`. -/
theorem skip_of_nameLength {k : Nat} (h : nameLength k (x ++ z) < x.length) : k < x.length := by
  induction x generalizing k with
  | nil => simp at h
  | cons c x ih =>
    cases k with
    | zero => exact Nat.succ_pos _
    | succ k =>
      rw [List.cons_append, nameLength, List.length_cons] at h
      exact Nat.succ_lt_succ (ih (by omega))

/-- A name that ends before the end of `x` does not depend on what follows. -/
theorem nameLength_inside {k : Nat} (h : nameLength k (x ++ z) < x.length)
    (hz : startsNewline z = false) {z' : Text} (hz' : startsNewline z' = false) :
    nameLength k (x ++ z') = nameLength k (x ++ z) := by
  induction x generalizing k with
  | nil => simp at h
  | cons c x ih =>
    rw [List.cons_append, List.length_cons] at h
    cases k with
    | succ k =>
      rw [nameLength] at h
      rw [List.cons_append, nameLength, List.cons_append, nameLength, ih (by omega)]
    | zero =>
      rw [nameLength_zero] at h
      rw [List.cons_append, nameLength_zero, List.cons_append, nameLength_zero]
      split
      · next name =>
        rw [if_pos name] at h
        rw [ih (by omega)]
      · next name =>
        rw [if_neg name] at h
        rw [← startsNewline_append hz hz']
        split
        · next escape =>
          rw [if_pos escape] at h
          have within : escapeLength (x ++ z) < x.length := skip_of_nameLength (Nat.lt_of_succ_lt_succ h)
          rw [escapeLength_inside within z', ih (Nat.lt_of_succ_lt_succ h)]
        · rfl

/-- A name that ends within `x` or at its end ends within it, or does not go on behind it. -/
theorem nameLength_end {k : Nat} (h : nameLength k (x ++ z) ≤ x.length) :
    nameLength k (x ++ z) < x.length ∨ nameLength 0 z = 0 := by
  induction x generalizing k with
  | nil =>
    right
    cases k with
    | zero => exact Nat.le_zero.mp h
    | succ k =>
      cases z with
      | nil => rfl
      | cons d z => simp [nameLength] at h
  | cons c x ih =>
    rw [List.cons_append, List.length_cons] at h ⊢
    cases k with
    | succ k =>
      rw [nameLength] at h ⊢
      exact (ih (by omega)).imp_left Nat.succ_lt_succ
    | zero =>
      rw [nameLength_zero] at h ⊢
      split
      · next name =>
        rw [if_pos name] at h
        exact (ih (Nat.le_of_succ_le_succ h)).imp_left Nat.succ_lt_succ
      · next name =>
        rw [if_neg name] at h
        split
        · next escape =>
          rw [if_pos escape] at h
          exact (ih (Nat.le_of_succ_le_succ h)).imp_left Nat.succ_lt_succ
        · exact .inl (Nat.succ_pos _)

/-- A name that ends at the end of `x`, before a character that belongs to no escape of digits, goes on
    as far as the text behind `x` lets it. -/
theorem nameLength_extend {m m' : Char} {t t' : Text} (hex : isHexDigit m = false)
    (space : Character.isSpace m = false) (hex' : isHexDigit m' = false)
    (space' : Character.isSpace m' = false) {k : Nat} (h : nameLength k (x ++ m :: t) = x.length) :
    nameLength k (x ++ m' :: t') = x.length + nameLength 0 (m' :: t') := by
  have newline {c : Char} (hc : Character.isSpace c = false) (s : Text) :
      startsNewline (c :: s) = false := by
    simp only [Character.isSpace, Bool.or_eq_false_iff] at hc
    exact hc.2
  induction x generalizing k with
  | nil =>
    cases k with
    | zero => exact (Nat.zero_add _).symm
    | succ k => simp [nameLength] at h
  | cons c x ih =>
    rw [List.cons_append, List.length_cons] at h
    rw [List.cons_append, List.length_cons]
    cases k with
    | succ k =>
      rw [nameLength] at h ⊢
      rw [ih (by omega)]
      omega
    | zero =>
      rw [nameLength_zero] at h ⊢
      split
      · next name =>
        rw [if_pos name] at h
        rw [ih (by omega)]
        omega
      · next name =>
        rw [if_neg name] at h
        have escape : escapeLength (x ++ m' :: t') = escapeLength (x ++ m :: t) := by
          rw [escapeLength_boundary hex space, escapeLength_boundary hex' space']
        rw [← startsNewline_append (newline space t) (newline space' t'), escape]
        split
        · next escape =>
          rw [if_pos escape] at h
          rw [ih (Nat.succ.inj h)]
          omega
        · next escape =>
          rw [if_neg escape] at h
          omega

/-! ## Extents -/

/-- A comment that ends within `x` or at its end does not depend on what follows. -/
theorem commentExtent_inside {m : Char} {t : Text} (hm : m ≠ '/')
    (h : (commentExtent (x ++ m :: t)).length ≤ x.length) {z' : Text} (hz' : z'.head? ≠ some '/') :
    commentExtent (x ++ z') = commentExtent (x ++ m :: t) := by
  induction x with
  | nil =>
    simp only [List.nil_append, commentExtent] at h
    split at h <;> simp [Extent.succ] at h
  | cons c x ih =>
    have head : (x ++ m :: t).head? = some '/' ↔ (x ++ z').head? = some '/' := by
      cases x with
      | nil => simp [hm, hz']
      | cons d x => exact Iff.rfl
    simp only [List.cons_append, commentExtent, head, List.length_cons] at h ⊢
    split
    · rfl
    · next go =>
      rw [if_neg go] at h
      rw [ih (Nat.le_of_succ_le_succ h)]

/-- What is known to belong to a string that ends within `x` or at its end ends within it. -/
theorem skip_of_stringExtent {q m : Char} {t : Text} (newline : Character.isNewline m = false) {k : Nat}
    (h : (stringExtent q k (x ++ m :: t)).length ≤ x.length) : k < x.length := by
  induction x generalizing k with
  | nil =>
    cases k with
    | succ k => simp [stringExtent, Extent.succ] at h
    | zero =>
      simp only [List.nil_append, stringExtent, newline, Bool.false_eq_true, if_false] at h
      split at h
      · simp at h
      · split at h <;> simp [Extent.succ] at h
  | cons c x ih =>
    cases k with
    | zero => exact Nat.succ_pos _
    | succ k =>
      rw [List.cons_append, stringExtent, Extent.succ, List.length_cons] at h
      exact Nat.succ_lt_succ (ih (Nat.le_of_succ_le_succ h))

/-- A string that ends within `x` or at its end does not depend on what follows. -/
theorem stringExtent_inside {q m : Char} {t : Text} (newline : Character.isNewline m = false) {k : Nat}
    (h : (stringExtent q k (x ++ m :: t)).length ≤ x.length) {z' : Text} (hz' : startsNewline z' = false) :
    stringExtent q k (x ++ z') = stringExtent q k (x ++ m :: t) := by
  induction x generalizing k with
  | nil => exact absurd (skip_of_stringExtent newline h) (Nat.not_lt_zero k)
  | cons c x ih =>
    rw [List.cons_append] at h ⊢
    rw [List.cons_append]
    cases k with
    | succ k =>
      rw [stringExtent] at h ⊢
      rw [stringExtent, ih (Nat.le_of_succ_le_succ h)]
    | zero =>
      rw [stringExtent] at h ⊢
      rw [stringExtent]
      split
      · rfl
      · next quote =>
        rw [if_neg quote] at h
        split
        · rfl
        · next line =>
          rw [if_neg line] at h
          split
          · next slash =>
            rw [if_pos slash] at h
            have within := skip_of_stringExtent newline (Nat.le_of_succ_le_succ h)
            have starts : startsNewline (x ++ z') = startsNewline (x ++ m :: t) :=
              startsNewline_append hz' newline
            have skip : (if startsNewline (x ++ z') = true then newlineLength (x ++ z')
                  else escapeLength (x ++ z'))
                = if startsNewline (x ++ m :: t) = true then newlineLength (x ++ m :: t)
                  else escapeLength (x ++ m :: t) := by
              rw [starts]
              split
              · next line => rw [if_pos line] at within; exact newlineLength_inside within _
              · next line => rw [if_neg line] at within; exact escapeLength_inside within _
            rw [skip, ih (Nat.le_of_succ_le_succ h)]
          · next slash =>
            rw [if_neg slash] at h
            rw [ih (Nat.le_of_succ_le_succ h)]

/-- What is known to belong to an address that ends within `x` or at its end ends within it. -/
theorem skip_of_addressExtent {m : Char} {t : Text} {p : AddressPart} {k : Nat}
    (h : (addressExtent p k (x ++ m :: t)).length ≤ x.length) : k < x.length := by
  induction x generalizing p k with
  | nil =>
    cases k with
    | succ k => simp [addressExtent, Extent.succ] at h
    | zero =>
      rw [List.nil_append, addressExtent] at h
      split at h <;> simp [Extent.succ] at h
  | cons c x ih =>
    cases k with
    | zero => exact Nat.succ_pos _
    | succ k =>
      rw [List.cons_append, addressExtent, Extent.succ, List.length_cons] at h
      exact Nat.succ_lt_succ (ih (Nat.le_of_succ_le_succ h))

/-- What follows in an address is known within `x`. -/
theorem next_inside {p : AddressPart} {c : Char} (h : (p.next c (x ++ z)).2 < x.length) (z' : Text) :
    p.next c (x ++ z') = p.next c (x ++ z) := by
  have inside (h : (AddressPart.next.inside c (x ++ z)).2 < x.length) :
      AddressPart.next.inside c (x ++ z') = AddressPart.next.inside c (x ++ z) := by
    have starts : startsNewline (x ++ z') = startsNewline (x ++ z) := by
      cases x with
      | nil => simp at h
      | cons d x => rfl
    unfold AddressPart.next.inside at h ⊢
    rw [starts]
    split
    · rfl
    · next plain =>
      rw [if_neg plain] at h
      split
      · next slash =>
        rw [if_pos slash] at h
        split
        · rfl
        · next line =>
          rw [if_neg line] at h
          rw [escapeLength_inside h]
      · rfl
  cases p <;> unfold AddressPart.next at h ⊢ <;> dsimp only at h ⊢
  · split
    · rfl
    · next space => rw [if_neg space] at h; exact inside h
  · split
    · rfl
    · next space => rw [if_neg space] at h; exact inside h
  · cases x with
    | nil => simp at h
    | cons d x => rfl

/-- An address that ends within `x` or at its end does not depend on what follows. -/
theorem addressExtent_inside {m : Char} {t : Text} {p : AddressPart} {k : Nat}
    (h : (addressExtent p k (x ++ m :: t)).length ≤ x.length) (z' : Text) :
    addressExtent p k (x ++ z') = addressExtent p k (x ++ m :: t) := by
  induction x generalizing p k with
  | nil => exact absurd (skip_of_addressExtent h) (Nat.not_lt_zero k)
  | cons c x ih =>
    rw [List.cons_append] at h ⊢
    rw [List.cons_append]
    cases k with
    | succ k =>
      rw [addressExtent] at h ⊢
      rw [addressExtent, ih (Nat.le_of_succ_le_succ h)]
    | zero =>
      rw [addressExtent] at h ⊢
      rw [addressExtent]
      split
      · rfl
      · next paren =>
        rw [if_neg paren] at h
        have within := skip_of_addressExtent (Nat.le_of_succ_le_succ h)
        rw [next_inside within, ih (Nat.le_of_succ_le_succ h)]

end Translucent
