import Translucent.Proofs.Token.Edge

/-!
  # Tokens at the end of a text

  What is read up to the end of a text may have ended only because the text did: a comment that was left open, or a
  name whose last backslash found nothing to escape.  Where that is not so, the token stays as it is when a stop and
  more text follow.

  1. **Bounds** — no token reaches beyond the text (`read_le`).
  2. **Measures** — a name that does not end in a backslash has no more to take (`nameLength_last`); neither has
     what was closed (`commentExtent_of_closed`, …).
  3. **Reading** — `read_of_closed`, and `Reads.closed` for a lexeme with more text behind it.
-/

namespace Translucent

/-- Whether a token was ended by something in the text, rather than by the end of the text. -/
def Token.isClosed : Token → Bool
  | comment closed | string closed | url closed => closed
  | _ => true

/-! ## Bounds -/

theorem commentExtent_le (w : Text) : (commentExtent w).length ≤ w.length := by
  induction w with
  | nil => exact Nat.le_refl 0
  | cons c w ih =>
    rw [commentExtent]
    split
    · next ends =>
      cases w with
      | nil => simp at ends
      | cons d w => simp
    · exact Nat.succ_le_succ ih

theorem stringExtent_le (q : Char) (k : Nat) (w : Text) : (stringExtent q k w).length ≤ w.length := by
  induction w generalizing k with
  | nil => cases k <;> exact Nat.le_refl 0
  | cons c w ih =>
    cases k with
    | succ k => exact Nat.succ_le_succ (ih k)
    | zero =>
      rw [stringExtent]
      split
      · exact Nat.succ_le_succ (Nat.zero_le _)
      split
      · exact Nat.zero_le _
      split <;> exact Nat.succ_le_succ (ih _)

theorem addressExtent_le (p : AddressPart) (k : Nat) (w : Text) : (addressExtent p k w).length ≤ w.length := by
  induction w generalizing p k with
  | nil => cases k <;> exact Nat.le_refl 0
  | cons c w ih =>
    cases k with
    | succ k => exact Nat.succ_le_succ (ih p k)
    | zero =>
      rw [addressExtent]
      split
      · exact Nat.succ_le_succ (Nat.zero_le _)
      · exact Nat.succ_le_succ (ih _ _)

namespace Token

theorem readNumber_le {c : Char} {w : Text} (starts : startsNumber (c :: w) = true) :
    (readNumber c w).2 ≤ w.length := by
  have positive := numberLength_pos starts
  have fits := numberLength_le (c :: w)
  have unit := nameLength_le 0 ((c :: w).drop (numberLength (c :: w)))
  rw [List.length_drop, List.length_cons] at unit
  rw [List.length_cons] at fits
  unfold readNumber
  dsimp only
  split
  · next percent =>
    -- the percent sign stands behind the number
    have some_left : (c :: w).drop (numberLength (c :: w)) ≠ [] := by
      intro empty
      rw [empty] at percent
      cases percent
    have := List.length_pos_iff.mpr some_left
    rw [List.length_drop, List.length_cons] at this
    dsimp only
    omega
  split
  · dsimp only
    omega
  · dsimp only
    omega

theorem readName_le (c : Char) (w : Text) : (readName c w).2 ≤ w.length := by
  have fits := nameLength_le 0 (c :: w)
  rw [List.length_cons] at fits
  unfold readName
  dsimp only
  split
  · next inner paren =>
    have left := congrArg List.length paren
    have address := addressExtent_le .lead 0 inner
    rw [List.length_drop, List.length_cons, List.length_cons] at left
    split
    · dsimp only
      omega
    · dsimp only
      omega
  · dsimp only
    omega

theorem readSymbol_le (c : Char) (w : Text) : (readSymbol c w).2 ≤ w.length := by
  unfold readSymbol
  split <;> simp

/-- **No token reaches beyond the text.** -/
theorem read_le (c : Char) (w : Text) : (read c w).2 ≤ w.length := by
  have fits := start_fits c w
  rw [read_eq]
  cases found : Token.start c w with
  | mark r => exact Nat.zero_le _
  | space => exact (List.takeWhile_prefix _).length_le
  | quote => exact stringExtent_le c 0 w
  | comment =>
    rw [found] at fits
    have body := commentExtent_le (w.drop 1)
    cases w with
    | nil => exact absurd fits.2 (by simp)
    | cons d w => exact Nat.succ_le_succ body
  | arrow =>
    rw [found] at fits
    have length := congrArg List.length fits.2
    rw [List.length_take] at length
    have : min 2 w.length = 2 := length
    show 2 ≤ w.length
    omega
  | hash =>
    simp only [readAs, readHash_eq]
    split
    · exact nameLength_le 0 w
    · exact Nat.zero_le _
  | atSign =>
    simp only [readAs, readAtSign]
    split
    · exact nameLength_le 0 w
    · exact Nat.zero_le _
  | number => rw [found] at fits; exact readNumber_le fits
  | name => exact readName_le c w
  | other => exact readSymbol_le c w

end Token

/-! ## Measures -/

/-- A name that does not end in a backslash has no more to take before a stop. -/
theorem nameLength_last {w z : Text} (last : w.getLast? ≠ some '\\') (stop : Stop z) {k : Nat} (hk : k ≤ w.length) :
    nameLength k (w ++ z) = nameLength k w := by
  cases z with
  | nil => rw [List.append_nil]
  | cons m y =>
    have firm := stop m rfl
    have hex : isHexDigit m = false := Character.firm_char (p := fun m => isHexDigit m = false) firm (by decide)
    have space : Character.isSpace m = false :=
      Character.firm_char (p := fun m => Character.isSpace m = false) firm (by decide)
    induction w generalizing k with
    | nil =>
      obtain rfl := Nat.le_zero.mp hk
      exact nameLength_firm firm y
    | cons c w ih =>
      have ih {k : Nat} := @ih (Text.getLast?_drop_ne last 1) k
      rw [List.cons_append]
      cases k with
      | succ k => rw [nameLength, nameLength, ih (Nat.le_of_succ_le_succ hk)]
      | zero =>
        rw [nameLength_zero, nameLength_zero, ih (Nat.zero_le _), stop.startsNewline_append]
        split
        · rfl
        split
        · next escape =>
          -- a backslash has something to escape behind it
          have some_left : w ≠ [] := by
            rintro rfl
            exact last (by rw [escape.1]; rfl)
          rw [escapeLength_boundary hex space, if_neg some_left, ih (escapeLength_le w)]
        · rfl

/-- A comment that was closed has no more to take. -/
theorem commentExtent_of_closed {w : Text} (closed : (commentExtent w).closed = true) (z : Text) :
    commentExtent (w ++ z) = commentExtent w := by
  induction w with
  | nil => cases closed
  | cons c w ih =>
    have head : (w ++ z).head? = w.head? := by
      cases w with
      | cons d w => rfl
      | nil => simp [commentExtent, Extent.succ] at closed
    rw [commentExtent] at closed
    rw [List.cons_append, commentExtent, commentExtent, head]
    split
    · rfl
    · next more =>
      rw [if_neg more] at closed
      exact congrArg Extent.succ (ih closed)

/-- What is known to belong to a string that was closed ends within the text. -/
theorem skip_of_closed_string {q : Char} {k : Nat} {w : Text} (closed : (stringExtent q k w).closed = true) :
    k < w.length := by
  induction w generalizing k with
  | nil => cases k <;> cases closed
  | cons c w ih =>
    cases k with
    | zero => exact Nat.succ_pos _
    | succ k => exact Nat.succ_lt_succ (ih closed)

/-- A string that was closed has no more to take. -/
theorem stringExtent_of_closed {q : Char} {k : Nat} {w : Text} (closed : (stringExtent q k w).closed = true)
    (z : Text) : stringExtent q k (w ++ z) = stringExtent q k w := by
  induction w generalizing k with
  | nil => cases k <;> cases closed
  | cons c w ih =>
    cases k with
    | succ k => exact congrArg Extent.succ (ih closed)
    | zero =>
      rw [List.cons_append, stringExtent]
      rw [stringExtent] at closed ⊢
      split
      · rfl
      next quote =>
      rw [if_neg quote] at closed
      split
      · rfl
      next line =>
      rw [if_neg line] at closed
      split
      · next slash =>
        rw [if_pos slash] at closed
        have within := skip_of_closed_string closed
        -- the escape ends within the text, so that what follows does not matter
        have starts : startsNewline (w ++ z) = startsNewline w := by
          cases w with
          | nil => exact absurd within (Nat.not_lt_zero _)
          | cons d w => rfl
        have escape : (if startsNewline (w ++ z) = true then newlineLength (w ++ z) else escapeLength (w ++ z))
            = if startsNewline w = true then newlineLength w else escapeLength w := by
          rw [starts]
          split
          · next line =>
            rw [if_pos line] at within
            have same := newlineLength_inside (x := w) (z := []) (by rwa [List.append_nil]) z
            rwa [List.append_nil] at same
          · next line =>
            rw [if_neg line] at within
            have same := escapeLength_inside (x := w) (z := []) (by rwa [List.append_nil]) z
            rwa [List.append_nil] at same
        rw [escape]
        exact congrArg Extent.succ (ih closed)
      · next slash =>
        rw [if_neg slash] at closed
        exact congrArg Extent.succ (ih closed)

/-- What is known to belong to an address that was closed ends within the text. -/
theorem skip_of_closed_address {p : AddressPart} {k : Nat} {w : Text} (closed : (addressExtent p k w).closed = true) :
    k < w.length := by
  induction w generalizing k with
  | nil => cases k <;> cases closed
  | cons c w ih =>
    cases k with
    | zero => exact Nat.succ_pos _
    | succ k => exact Nat.succ_lt_succ (ih closed)

/-- An address that was closed has no more to take. -/
theorem addressExtent_of_closed {p : AddressPart} {k : Nat} {w : Text} (closed : (addressExtent p k w).closed = true)
    (z : Text) : addressExtent p k (w ++ z) = addressExtent p k w := by
  induction w generalizing p k with
  | nil => cases k <;> cases closed
  | cons c w ih =>
    cases k with
    | succ k => exact congrArg Extent.succ (ih closed)
    | zero =>
      rw [List.cons_append, addressExtent]
      rw [addressExtent] at closed ⊢
      split
      · rfl
      next paren =>
      rw [if_neg paren] at closed
      have within := skip_of_closed_address closed
      have next := next_inside (x := w) (z := []) (p := p) (c := c) (by rwa [List.append_nil]) z
      rw [List.append_nil] at next
      rw [next]
      exact congrArg Extent.succ (ih closed)

/-! ## Reading -/

namespace Token

variable {c : Char} {w z : Text}

/-- Before all stops a token starts as at the end of the text. -/
theorem start_end (stop : Stop z) : start c (w ++ z) = start c w := by
  have edge : Ended ';' [] := .inl rfl
  have here := start_stop (w := w) (c := c) edge stop_nil fun _ _ => rfl
  rw [List.append_nil] at here
  exact (start_stop edge stop fun _ _ => rfl).trans here.symm

theorem readHash_last (last : w.getLast? ≠ some '\\') (stop : Stop z) : readHash (w ++ z) = readHash w := by
  have first : ((w ++ z).head?.map fun c => c.isDigit || c == '-').getD false
      = (w.head?.map fun c => c.isDigit || c == '-').getD false := by
    cases w with
    | cons d w => rfl
    | nil =>
      cases z with
      | nil => rfl
      | cons m y => exact stop.head (p := fun m => (m.isDigit || m == '-') = false) (by decide) m rfl
  have starts : startsHash (w ++ z) = startsHash w := by
    rw [startsHash, startsHash, stop.startsName_append, first]
  rw [readHash_eq, readHash_eq, starts, nameLength_last last stop (Nat.zero_le _), take_within (nameLength_le 0 w)]

theorem readAtSign_last (last : w.getLast? ≠ some '\\') (stop : Stop z) : readAtSign (w ++ z) = readAtSign w := by
  rw [readAtSign, readAtSign, stop.startsName_append, nameLength_last last stop (Nat.zero_le _),
    take_within (nameLength_le 0 w)]

theorem readNumber_last (last : (c :: w).getLast? ≠ some '\\') (stop : Stop z) :
    readNumber c (w ++ z) = readNumber c w := by
  have length : numberLength (c :: (w ++ z)) = numberLength (c :: w) := stop.numberLength_append (c :: w)
  have unit : (c :: (w ++ z)).drop (numberLength (c :: w)) = (c :: w).drop (numberLength (c :: w)) ++ z :=
    List.drop_append_of_le_length (numberLength_le (c :: w))
  unfold readNumber
  simp only [length, unit, stop.head?_append (show Character.isFirm '%' = false from rfl), stop.startsName_append,
    nameLength_last (Text.getLast?_drop_ne last _) stop (Nat.zero_le _)]

theorem readName_last (last : (c :: w).getLast? ≠ some '\\') (stop : Stop z)
    (closed : (readName c w).1.isClosed = true) : readName c (w ++ z) = readName c w := by
  have length : nameLength 0 (c :: (w ++ z)) = nameLength 0 (c :: w) :=
    nameLength_last (w := c :: w) last stop (Nat.zero_le _)
  have fits := nameLength_le 0 (c :: w)
  have name : (c :: (w ++ z)).take (nameLength 0 (c :: w)) = (c :: w).take (nameLength 0 (c :: w)) :=
    take_within (w := c :: w) fits z
  have behind : (c :: (w ++ z)).drop (nameLength 0 (c :: w)) = (c :: w).drop (nameLength 0 (c :: w)) ++ z :=
    List.drop_append_of_le_length fits
  by_cases paren : ((c :: w).drop (nameLength 0 (c :: w))).head? = some '('
  · obtain ⟨inner, cut⟩ := List.head?_eq_some_iff.mp paren
    rw [cut, List.cons_append] at behind
    rw [readName_of_paren rfl rfl cut] at closed ⊢
    rw [readName_of_paren length (congrArg _ name) behind, stop.quoteFollows_append]
    split
    · next address =>
      rw [if_pos address] at closed
      rw [addressExtent_of_closed closed]
    · rfl
  · have paren' : ((c :: (w ++ z)).drop (nameLength 0 (c :: w))).head? ≠ some '(' := by
      rw [behind]
      exact mt (stop.head?_append rfl _).mp paren
    rw [readName_of_ident rfl paren, readName_of_ident length paren', name]

theorem readSymbol_end (stop : Stop z) : readSymbol c (w ++ z) = readSymbol c w := by
  have edge : Ended ';' [] := .inl rfl
  have here := readSymbol_stop (w := w) (c := c) edge stop_nil
  rw [List.append_nil] at here
  exact (readSymbol_stop edge stop).trans here.symm

/-- **What was closed is read again** when a stop follows the text. -/
theorem read_of_closed (closed : (read c w).1.isClosed = true) (last : (c :: w).getLast? ≠ some '\\')
    (stop : Stop z) : read c (w ++ z) = read c w := by
  have fits := start_fits c w
  rw [read_eq] at closed
  rw [read_eq, read_eq, start_end stop]
  cases found : Token.start c w with
  | mark r => rfl
  | arrow => rfl
  | space =>
    simp only [readAs]
    rw [stop.takeWhile_append (by decide)]
  | quote =>
    rw [found] at closed
    simp only [readAs]
    rw [stringExtent_of_closed closed]
  | comment =>
    rw [found] at closed fits
    simp only [readAs] at closed ⊢
    cases w with
    | nil => exact absurd fits.2 (by simp)
    | cons d w =>
      rw [List.cons_append, List.drop_succ_cons, List.drop_zero]
      rw [List.drop_succ_cons, List.drop_zero] at closed
      rw [commentExtent_of_closed closed]
      rfl
  | hash => exact readHash_last (Text.getLast?_drop_ne last 1) stop
  | atSign => exact readAtSign_last (Text.getLast?_drop_ne last 1) stop
  | number => exact readNumber_last last stop
  | name => rw [found] at closed; exact readName_last last stop closed
  | other => exact readSymbol_end stop

end Token

/-- A lexeme takes its own text of the whole text, even at the end. -/
theorem Lexeme.Reads.length {c : Char} {t tail : Text} {k : Token} (h : Lexeme.Reads ⟨k, c :: t⟩ tail) :
    Token.read c (t ++ tail) = (k, t.length) := by
  by_cases empty : tail = []
  · subst empty
    have token := h.token
    have first := h.2
    have le := Token.read_le c (t ++ [])
    rw [show (Lexeme.mk k (c :: t)).text ++ [] = c :: (t ++ []) from rfl, lexemes_cons] at first
    injection first with first _
    injection first with _ text
    injection text with _ text
    have length := congrArg List.length text
    rw [List.length_take, List.append_nil] at length
    rw [List.append_nil] at le
    refine Prod.ext token ?_
    rw [List.append_nil]
    show (Token.read c t).2 = t.length
    omega
  · obtain ⟨k', c', t', eq, read⟩ := h.read empty
    injection eq with token text
    injection text with hc ht
    rw [token, hc, ht, read]

/-- **A lexeme that was closed** is read again when a stop follows the text. -/
theorem Lexeme.Reads.closed {l : Lexeme} {x z : Text} (h : l.Reads x) (closed : l.token.isClosed = true)
    (last : (l.text ++ x).getLast? ≠ some '\\') (stop : Stop z) : l.Reads (x ++ z) := by
  obtain ⟨k, text⟩ := l
  obtain ⟨c, t, rfl⟩ := List.exists_cons_of_ne_nil h.1
  have read := h.length
  apply reads_of_read
  have again := Token.read_of_closed (w := t ++ x) (by rw [read]; exact closed) last stop
  rw [← List.append_assoc, again, read]

end Translucent
