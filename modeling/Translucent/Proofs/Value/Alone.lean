import Translucent.Proofs.Content.Closed
import Translucent.Proofs.Value.Spellings

/-!
  # Shorthands by themselves

  What is found in a value is recognised by its own text: cut out of the value, it is the one thing found there, whole
  and with the same meaning.  Nothing around it has a say in it, neither the blocks that it stands in nor the tokens on
  its sides.

  1. **Digits** — `Reads.hash_point`: a hash before a point ends there whatever comes behind the point, so digits and
     their number are read alone as they are read in a text (`found_alone_digits`).
  2. **Calls** — `found_alone_call`: a closing parenthesis ends all that is read before it, and a call that is left open
     has nothing behind it.
  3. **Rows** — `alone_of_shorthands`: along the row of a tree every shorthand stands in the text of the row.

  **Main statement** — `occurrencesIn_alone`.
-/

namespace Translucent

open Content

/-! ## Digits -/

/-- A hash that ends before a point ends there whatever comes behind the point. -/
theorem Lexeme.Reads.hash_point {l : Lexeme} {digits y : Text} (h : l.Reads ('.' :: y))
    (hl : l.token = .hash digits) (hy : startsNewline y = false) {y' : Text} (hy' : startsNewline y' = false) :
    l.Reads ('.' :: y') := by
  obtain ⟨t', text⟩ := h.hash hl
  obtain ⟨k, c, t, rfl, read⟩ := h.read (List.cons_ne_nil _ _)
  obtain rfl : c = '#' := (List.cons.inj text).1
  have point (z : Text) : t ++ '.' :: z = (t ++ ['.']) ++ z := by rw [List.append_assoc]; rfl
  have starts : Token.startsHash (t ++ '.' :: y') = Token.startsHash (t ++ '.' :: y) := by
    have some_text : t ++ ['.'] ≠ [] := by simp
    have hyphen : t ++ ['.'] ≠ ['-'] := fun eq => absurd (congrArg List.getLast? eq) (by simp)
    rw [point y, point y', Token.startsHash, Token.startsHash, startsName_long some_text hyphen hy' hy]
    cases t <;> rfl
  apply reads_of_read
  rw [Token.read_eq, show Token.start '#' _ = .hash from rfl] at read ⊢
  change Token.readHash _ = _ at read
  show Token.readHash _ = _
  rw [Token.readHash_eq] at read ⊢
  rw [starts]
  split
  · next name =>
    rw [if_pos name] at read
    injection read with token length
    -- the name of the hash ends before the point
    have within : nameLength 0 ((t ++ ['.']) ++ y) < (t ++ ['.']).length := by
      rw [← point, length, List.length_append]
      exact Nat.lt_succ_self _
    have same := nameLength_inside within hy hy'
    rw [← point, ← point] at same
    rw [length, List.take_left] at token
    rw [same, length, List.take_left, token]
  · next none_here =>
    rw [if_neg none_here] at read
    exact read

/-- The number of digits is a decimal that starts with its point, and before the end of a text they are a shorthand,
    too. -/
theorem alone_of_hexShorthand? {l n : Lexeme} {s : Shorthand} {rest : Content}
    (h : hexShorthand? l (.leaf n rest) = some (s, n)) :
    (∃ e, n.text = '.' :: e) ∧ IsDecimal n.text ∧ hexShorthand? l (.leaf n .nil) = some (s, n) := by
  obtain ⟨⟨digits, hash⟩, number, -⟩ := parts_of_hexShorthand? h
  simp only [hexShorthand?, hash] at h ⊢
  split at h
  · next ends =>
    have alone : n.text.head? = some '.' ∧ nil.mayEndColor = true := ⟨ends.1, rfl⟩
    refine ⟨List.head?_eq_some_iff.mp ends.1, ?_, (if_pos alone).trans h⟩
    obtain ⟨c, -, h⟩ := Option.bind_eq_some_iff.mp h
    obtain ⟨a, alpha, -⟩ := Option.bind_eq_some_iff.mp h
    rw [Lexeme.alpha?, if_pos number] at alpha
    exact isDecimal_of_ofLiteral? alpha
  · cases h

/-- Behind the point of a decimal there is a digit. -/
theorem IsDecimal.digit_of_point {e : Text} (h : IsDecimal ('.' :: e)) : ∃ d e', e = d :: e' ∧ d.isDigit = true := by
  obtain ⟨d, f, eq, digits, parts⟩ := h
  cases d with
  | cons c d =>
    -- the point is no digit
    obtain rfl : '.' = c := (List.cons.inj eq).1
    exact absurd (List.all_eq_true.mp digits _ List.mem_cons_self) (by decide)
  | nil =>
    obtain ⟨nonempty, -⟩ | ⟨e', rfl, some_digit, digits'⟩ := parts
    · exact absurd rfl nonempty
    · obtain rfl : e = e' := (List.cons.inj eq).2
      obtain ⟨c, e, rfl⟩ := List.exists_cons_of_ne_nil some_digit
      exact ⟨c, e, rfl, List.all_eq_true.mp digits' c List.mem_cons_self⟩

/-- **Digits** and their number are found in their own text. -/
theorem found_alone_digits {l n : Lexeme} {s : Shorthand} {rest : Content} {z : Text}
    (found : hexShorthand? l (.leaf n rest) = some (s, n)) (reads : l.Reads (n.text ++ z)) :
    occurrencesIn (l.text ++ n.text) = [⟨0, Text.byteLength (l.text ++ n.text), s⟩] := by
  obtain ⟨⟨digits, hash⟩, number, -⟩ := parts_of_hexShorthand? found
  obtain ⟨⟨e, point⟩, decimal, alone⟩ := alone_of_hexShorthand? found
  have row : (leaf l (leaf n nil)).Spelled [] [] := by
    refine ⟨?_, by rw [hash]; simp, by rw [hash]; simp, ?_, by rw [number]; simp, by rw [number]; simp, trivial⟩
    · rw [point] at decimal reads
      obtain ⟨d, e', rfl, digit⟩ := decimal.digit_of_point
      have newline : Character.isNewline d = false := by
        have space := Bool.eq_false_iff.mpr (not_space_of_first (.inl digit))
        exact (Bool.or_eq_false_iff.mp space).2
      rw [text_leaf, point, text_nil, List.append_nil, List.append_nil]
      exact reads.hash_point hash newline newline
    · obtain ⟨k, t⟩ := n
      obtain rfl : k = .number := number
      exact decimal.reads delimited_nil
  have tree := ofText_of_spelled row
  rw [text_leaf, text_leaf, text_nil, List.append_nil] at tree
  exact found_of_digits tree alone

/-! ## Calls -/

/-- **A call** is found in its own text. -/
theorem found_alone_call {o : Opener} {t z : Text} {body : Content} {closed : Bool} {s : Shorthand}
    {stack : List Bracket} (whole : whole? o body closed = some s)
    (reads : Lexeme.Reads ⟨.opening o, t⟩ (body.text ++ (closing o closed ++ z)))
    (left : closed = false → z = []) (inside : body.Spelled (o.shape :: stack) (closing o closed ++ z)) :
    occurrencesIn (t ++ (body.text ++ closing o closed))
      = [⟨0, Text.byteLength (t ++ (body.text ++ closing o closed)), s⟩] := by
  have parted : Parted (closing o closed ++ z) (closing o closed ++ []) := by
    cases closed with
    | true => exact .cons (by cases o.shape <;> rfl) z []
    | false =>
      obtain rfl := left rfl
      exact .refl _
  have row : (block o t body closed nil).Spelled [] [] :=
    ⟨reads.parted (parted.behind _), fun _ => ⟨rfl, rfl⟩, (inside.parted parted).within (.inl rfl), trivial⟩
  have tree := ofText_of_spelled row
  rw [text_block, text_nil, List.append_nil, List.append_assoc] at tree
  exact found_of_whole tree whole

/-! ## Rows -/

/-- `o.AloneIn v`: the span of `o` is that of a text in `v`, and in that text alone the shorthand of `o` is the one
    thing found, all of it. -/
def Occurrence.AloneIn (v : Text) (o : Occurrence) : Prop :=
  ∃ t, Text.slice? o.start o.stop v = some t ∧ occurrencesIn t = [⟨0, Text.byteLength t, o.shorthand⟩]

/-- A text that is a shorthand by itself, where it stands. -/
theorem Occurrence.aloneIn {t : Text} {s : Shorthand} (found : occurrencesIn t = [⟨0, Text.byteLength t, s⟩])
    (before after : Text) :
    AloneIn (before ++ (t ++ after)) ⟨Text.byteLength before, Text.byteLength (before ++ t), s⟩ := by
  have cut := Text.slice?_append before t after
  rw [← Text.byteLength_append] at cut
  exact ⟨t, cut, found⟩

/-- **Along a row** of the tree of a text, what is found is found in its own text, too. -/
theorem alone_of_shorthands (c : Content) {stack : List Bracket} {tail : Text} (spelled : c.Spelled stack tail)
    (before : Text) :
    ∀ o ∈ c.shorthands (Text.byteLength before), o.AloneIn (before ++ (c.text ++ tail)) := by
  induction c using Content.found_induction generalizing stack tail before with
  | nil => simp [shorthands]
  | leaf l rest none_found ih =>
    obtain ⟨-, -, -, spelled⟩ := spelled
    have behind := ih spelled (before ++ l.text)
    rw [shorthands, none_found]
    simpa only [text_leaf, Text.byteLength_append, List.append_assoc] using behind
  | digits l n s after found ih =>
    obtain ⟨reads, -, -, -, -, -, spelled⟩ := spelled
    obtain ⟨-, number, -⟩ := parts_of_hexShorthand? found
    rw [text_leaf, List.append_assoc] at reads
    have behind := ih spelled (before ++ (l.text ++ n.text))
    have here := Occurrence.aloneIn (found_alone_digits found reads) before (after.text ++ tail)
    rw [shorthands, found]
    dsimp only
    rw [shorthands, hexShorthand?_of_ne (by rw [number]; simp)]
    simp only [text_leaf, Text.byteLength_append, List.append_assoc, Nat.add_assoc, List.forall_mem_cons]
      at behind here ⊢
    exact ⟨here, behind⟩
  | block o t body closed rest ihb ihr =>
    obtain ⟨reads, left, inside, spelled⟩ := spelled
    have nothing (unclosed : closed = false) : rest.text ++ tail = [] := by
      obtain ⟨rfl, rfl⟩ := left unclosed
      rfl
    have behind := ihr spelled (before ++ (t ++ (body.text ++ closing o closed)))
    rw [shorthands_block]
    simp only [text_block, Text.byteLength_append, List.append_assoc, Nat.add_assoc, width_eq, byteLength_closing]
      at behind ⊢
    intro p hp
    rcases List.mem_append.mp hp with here | later
    · cases whole : whole? o body closed with
      | some s =>
        rw [whole] at here
        obtain rfl := List.mem_singleton.mp here
        have alone := Occurrence.aloneIn (found_alone_call whole reads nothing inside) before (rest.text ++ tail)
        simpa only [Text.byteLength_append, List.append_assoc, byteLength_closing] using alone
      | none =>
        rw [whole] at here
        dsimp only at here
        split at here
        · have within := ihb inside (before ++ t)
          simp only [Text.byteLength_append, List.append_assoc] at within
          exact within p here
        · exact absurd here List.not_mem_nil
    · exact behind p later

/-! ## Whole values -/

/-- **Shorthands are recognised by their own text**: in a value without a block deeper than `maxSearchDepth`, the span
    of each shorthand is that of a text in the value, and in that text alone the same shorthand is found, all of it,
    and nothing else. -/
theorem occurrencesIn_alone (v : Text) (shallow : (ofText v).depth ≤ maxSearchDepth) :
    ∀ o ∈ occurrencesIn v, ∃ t, Text.slice? o.start o.stop v = some t
      ∧ occurrencesIn t = [⟨0, Text.byteLength t, o.shorthand⟩] := by
  have alone := alone_of_shorthands (ofText v) (spelled_ofText v) []
  rw [List.append_nil, text_ofText] at alone
  rw [occurrencesIn_eq, occurrences_outside shallow]
  exact alone

/-- Digits in a call that is no colour, and a call that an unclosed comment ends: `f(#fff.5)black(.5/*)`. -/
theorem occurrencesIn_alone_digits_and_comment :
    let v := ['f', '(', '#', 'f', 'f', 'f', '.', '5', ')', 'b', 'l', 'a', 'c', 'k', '(', '.', '5', '/', '*', ')']
    (ofText v).depth ≤ maxSearchDepth
      ∧ (∃ t, Text.slice? 2 8 v = some t
        ∧ occurrencesIn t = [⟨0, Text.byteLength t, .shortHex .white (.fraction ['5'] (by decide))⟩])
      ∧ ∃ t, Text.slice? 9 20 v = some t
        ∧ occurrencesIn t = [⟨0, Text.byteLength t, .black (.fraction ['5'] (by decide))⟩] := by
  intro v
  have shallow : (ofText v).depth ≤ maxSearchDepth := by decide
  have found : occurrencesIn v = [⟨2, 8, .shortHex .white (.fraction ['5'] (by decide))⟩,
      ⟨9, 20, .black (.fraction ['5'] (by decide))⟩] := by
    rw [occurrencesIn_eq]
    decide
  have alone := occurrencesIn_alone v shallow
  rw [found] at alone
  exact ⟨shallow, alone _ List.mem_cons_self, alone _ (List.mem_cons_of_mem _ List.mem_cons_self)⟩

end Translucent
