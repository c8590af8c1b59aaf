import Translucent.Proofs.Token.Read

/-!
  # Tokens within plain text

  A text is *plain* if it has no quotes, no slashes, no backslashes, no semicolons, and no brackets but
  parentheses.  What is read from plain text stops in front of a semicolon or a curly bracket behind it,
  whatever follows there.

  1. **Measures** — names and numbers end before a character that belongs to neither
     (`nameLength_boundary`, `readNumber_boundary`), addresses at a parenthesis
     (`addressExtent_closed`).
  2. **Parentheses** — `parens` counts those that are open behind a text.  An address may hold some of
     them; a token never closes more than it opens, but for the closing parenthesis itself.
  3. **Lexemes** — `plainRead`: what is read from a plain text whose parentheses are balanced stays within
     the text, and is one of few kinds of lexemes.
-/

namespace Translucent

/-! ## Measures -/

section Boundary

variable {m : Char} {t : Text}

/-- A run of characters ends before a character of another kind. -/
theorem takeWhile_boundary {p : Char → Bool} (hm : p m = false) (x : Text) :
    (x ++ m :: t).takeWhile p = x.takeWhile p := by
  induction x with
  | nil => simp [hm]
  | cons c x ih => rw [List.cons_append, List.takeWhile_cons, List.takeWhile_cons, ih]

/-- A run of characters, by its length. -/
theorem take_length_takeWhile (p : Char → Bool) (x : Text) :
    x.take (x.takeWhile p).length = x.takeWhile p :=
  (List.prefix_iff_eq_take.mp (List.takeWhile_prefix p)).symm

/-- A name without escapes ends before a character that belongs to no name. -/
theorem nameLength_boundary (hm : Character.isNameChar m = false) (hm' : m ≠ '\\') {x : Text}
    (hx : '\\' ∉ x) :
    nameLength 0 (x ++ m :: t) = (x.takeWhile Character.isNameChar).length := by
  induction x with
  | nil =>
    show nameLength 0 (m :: t) = 0
    rw [nameLength, if_neg (by rw [hm]; exact Bool.false_ne_true), if_neg fun h => hm' h.1]
  | cons c x ih =>
    have hc : c ≠ '\\' := fun h => hx (h ▸ List.mem_cons_self)
    rw [List.cons_append, nameLength, List.takeWhile_cons]
    split
    · rw [ih fun h => hx (List.mem_cons_of_mem _ h), List.length_cons]
    · exact if_neg fun h => hc h.1

/-- A name without escapes means what it spells. -/
theorem unescape_plain {x : Text} (hx : ∀ c ∈ x, c ≠ '\\' ∧ c ≠ '\x00') : unescape 0 x = x := by
  induction x with
  | nil => rfl
  | cons c x ih =>
    obtain ⟨slash, null⟩ := hx c List.mem_cons_self
    rw [unescape, if_neg slash, if_neg null, ih fun d hd => hx d (List.mem_cons_of_mem _ hd)]

theorem signLength_le (x : Text) : signLength x ≤ x.length := by
  cases x with
  | nil => exact Nat.le_refl _
  | cons c x => rw [signLength]; split <;> simp

theorem digitsLength_le (x : Text) : digitsLength x ≤ x.length :=
  (List.takeWhile_prefix _).length_le

theorem fractionLength_le (x : Text) : fractionLength x ≤ x.length := by
  unfold fractionLength
  split
  · next x =>
    have := digitsLength_le x
    split
    · exact Nat.zero_le _
    · rw [List.length_cons]; omega
  · exact Nat.zero_le _

theorem fractionLength_of_ne {c : Char} (h : c ≠ '.') (x : Text) : fractionLength (c :: x) = 0 := by
  unfold fractionLength
  split
  · next eq =>
    injection eq with eq
    exact absurd eq h
  · rfl

theorem exponentLength_le (x : Text) : exponentLength x ≤ x.length := by
  cases x with
  | nil => exact Nat.le_refl _
  | cons c x =>
    have sign := signLength_le x
    have digits := digitsLength_le (x.drop (signLength x))
    rw [List.length_drop] at digits
    simp only [exponentLength]
    split
    · rw [List.length_cons]; omega
    · exact Nat.zero_le _

theorem mantissaLength_le (x : Text) : mantissaLength x ≤ x.length := by
  have sign := signLength_le x
  have digits := digitsLength_le (x.drop (signLength x))
  have fraction := fractionLength_le (x.drop (signLength x + digitsLength (x.drop (signLength x))))
  rw [List.length_drop] at digits fraction
  simp only [mantissaLength]
  omega

/-- A number ends with the text at the latest. -/
theorem numberLength_le (x : Text) : numberLength x ≤ x.length := by
  have mantissa := mantissaLength_le x
  have exponent := exponentLength_le (x.drop (mantissaLength x))
  rw [List.length_drop] at exponent
  simp only [numberLength]
  omega

/-- Where a number starts there is one. -/
theorem numberLength_pos {x : Text} (starts : startsNumber x = true) : 0 < numberLength x := by
  have starts := of_decide_eq_true starts
  have := Nat.le_add_right (mantissaLength x) (exponentLength (x.drop (mantissaLength x)))
  rw [numberLength]
  omega

/-- Whether a character may belong to a number. -/
def Character.isNumberChar (c : Char) : Bool :=
  c.isDigit || c == '+' || c == '-' || c == '.' || c == 'e' || c == 'E'

variable (hm : Character.isNumberChar m = false)
include hm

theorem signLength_boundary (x : Text) : signLength (x ++ m :: t) = signLength x := by
  cases x with
  | nil =>
    show signLength (m :: t) = 0
    rw [signLength, if_neg]
    rintro (rfl | rfl) <;> exact absurd hm (by decide)
  | cons c x => rfl

theorem digitsLength_boundary (x : Text) : digitsLength (x ++ m :: t) = digitsLength x := by
  have digit : Char.isDigit m = false := by
    cases h : Char.isDigit m with
    | false => rfl
    | true => simp [Character.isNumberChar, h] at hm
  rw [digitsLength, takeWhile_boundary digit, digitsLength]

theorem fractionLength_boundary (x : Text) : fractionLength (x ++ m :: t) = fractionLength x := by
  cases x with
  | nil =>
    refine fractionLength_of_ne ?_ t
    rintro rfl
    exact absurd hm (by decide)
  | cons c x =>
    by_cases hc : c = '.'
    · subst hc
      simp only [List.cons_append, fractionLength, digitsLength_boundary hm]
    · rw [List.cons_append, fractionLength_of_ne hc, fractionLength_of_ne hc]

theorem exponentLength_boundary (x : Text) : exponentLength (x ++ m :: t) = exponentLength x := by
  cases x with
  | nil =>
    show exponentLength (m :: t) = 0
    simp only [exponentLength]
    refine if_neg ?_
    rintro ⟨rfl | rfl, -⟩ <;> exact absurd hm (by decide)
  | cons c x =>
    have cut : (x ++ m :: t).drop (signLength x) = x.drop (signLength x) ++ m :: t :=
      List.drop_append_of_le_length (signLength_le x)
    simp only [List.cons_append, exponentLength, signLength_boundary hm, cut,
      digitsLength_boundary hm]

theorem mantissaLength_boundary (x : Text) : mantissaLength (x ++ m :: t) = mantissaLength x := by
  have digits := digitsLength_le (x.drop (signLength x))
  have sign := signLength_le x
  rw [List.length_drop] at digits
  simp only [mantissaLength, signLength_boundary hm,
    List.drop_append_of_le_length sign, digitsLength_boundary hm]
  rw [List.drop_append_of_le_length (by omega), fractionLength_boundary hm]

/-- A number ends before a character that belongs to no number. -/
theorem numberLength_boundary (x : Text) : numberLength (x ++ m :: t) = numberLength x := by
  simp only [numberLength, mantissaLength_boundary hm,
    List.drop_append_of_le_length (mantissaLength_le x), exponentLength_boundary hm]

theorem startsNumber_boundary (x : Text) : startsNumber (x ++ m :: t) = startsNumber x := by
  rw [startsNumber, signLength_boundary hm, mantissaLength_boundary hm]
  rfl

/-- What is read of a number looks at no more than what is behind it. -/
theorem readNumber_boundary (c : Char) (x : Text) :
    Token.readNumber c (x ++ m :: t) =
      let n := numberLength (c :: x)
      let unit := (c :: x).drop n ++ m :: t
      if unit.head? = some '%' then (.percentage, n)
      else if startsName unit then (.dimension, n - 1 + nameLength 0 unit)
      else (.number, n - 1) := by
  have length : numberLength (c :: (x ++ m :: t)) = numberLength (c :: x) :=
    numberLength_boundary hm (c :: x)
  have unit : (c :: (x ++ m :: t)).drop (numberLength (c :: x))
      = (c :: x).drop (numberLength (c :: x)) ++ m :: t :=
    List.drop_append_of_le_length (numberLength_le (c :: x))
  unfold Token.readNumber
  simp only [length, unit]

end Boundary

/-- An address without escapes runs up to the first closing parenthesis. -/
theorem addressExtent_closed {x : Text} (hx : ∀ c ∈ x, c ≠ ')' ∧ c ≠ '\\') (p : AddressPart)
    (t : Text) : addressExtent p 0 (x ++ ')' :: t) = ⟨x.length + 1, true⟩ := by
  induction x generalizing p with
  | nil => exact if_pos rfl
  | cons c x ih =>
    obtain ⟨paren, slash⟩ := hx c List.mem_cons_self
    have next : (p.next c (x ++ ')' :: t)).2 = 0 := by
      have inside : (AddressPart.next.inside c (x ++ ')' :: t)).2 = 0 := by
        unfold AddressPart.next.inside
        split <;> rfl
      cases p <;> unfold AddressPart.next <;> dsimp only
      · split
        · rfl
        · exact inside
      · split
        · rfl
        · exact inside
      · split <;> rfl
      · exact congrArg Prod.snd (if_neg fun h => slash h.1)
    rw [List.cons_append, addressExtent, if_neg paren, next,
      ih fun d hd => hx d (List.mem_cons_of_mem _ hd)]
    rfl

/-! ## Parentheses -/

/-- `parens d x` = how many parentheses are open behind the text `x` if `d` are open before it; nothing
    if one is closed that was not opened. -/
def parens : Nat → Text → Option Nat
  | d, [] => some d
  | d, c :: x =>
    if c = '(' then parens (d + 1) x
    else if c = ')' then if d = 0 then none else parens (d - 1) x
    else parens d x

theorem parens_append (d : Nat) (x y : Text) :
    parens d (x ++ y) = (parens d x).bind fun d => parens d y := by
  induction x generalizing d with
  | nil => rfl
  | cons c x ih =>
    rw [List.cons_append, parens, parens]
    split
    · exact ih _
    split
    · split
      · rfl
      · exact ih _
    · exact ih d

/-- Without closing parentheses there are no fewer open ones. -/
theorem parens_le {x : Text} (hx : ')' ∉ x) (d : Nat) : ∃ d', d ≤ d' ∧ parens d x = some d' := by
  induction x generalizing d with
  | nil => exact ⟨d, Nat.le_refl d, rfl⟩
  | cons c x ih =>
    have hc : c ≠ ')' := fun h => hx (h ▸ List.mem_cons_self)
    have ih := ih fun h => hx (List.mem_cons_of_mem _ h)
    rw [parens]
    split
    · obtain ⟨d', le, eq⟩ := ih (d + 1)
      exact ⟨d', Nat.le_of_succ_le le, eq⟩
    · exact ih d

/-- Without parentheses there are as many open ones. -/
theorem parens_of_none {x : Text} (hx : ∀ c ∈ x, c ≠ '(' ∧ c ≠ ')') (d : Nat) :
    parens d x = some d := by
  induction x with
  | nil => rfl
  | cons c x ih =>
    obtain ⟨opening, closing⟩ := hx c List.mem_cons_self
    rw [parens, if_neg opening, if_neg closing, ih fun e he => hx e (List.mem_cons_of_mem _ he)]

/-- What is open and will be closed is closed by a parenthesis. -/
theorem closer_of_parens {x : Text} {d : Nat} (h : parens (d + 1) x = some 0) : ')' ∈ x := by
  apply Decidable.byContradiction
  intro hx
  obtain ⟨d', le, eq⟩ := parens_le hx (d + 1)
  rw [h] at eq
  injection eq with eq
  omega

/-! ## Lexemes -/

/-- What may not stand in plain text: what starts an escape, a string, a comment or an at-keyword, groups of
    marks, semicolons, and brackets other than parentheses. -/
def Character.wild : Text :=
  ['\\', '\x00', '/', '@', '<', '\x22', '\x27', ';', '[', ']', '\x7b', '\x7d', '~', '|', '^', '$', '*']

/-- What may stand in plain text. -/
def Character.isPlain (c : Char) : Bool := !Character.wild.contains c

/-- The tokens of plain text that neither open nor close a block. -/
def Token.isInert : Token → Bool
  | space | ident _ | hash _ | url _ | number | percentage | dimension | colon | comma | symbol => true
  | _ => false

/-- Whether a text may close no more parentheses than it opens, wherever it stands. -/
def Keeps (x : Text) : Prop := ∀ d, ∃ d', d ≤ d' ∧ parens d x = some d'

/-- Whether a lexeme is one of those that plain text is made of: it opens a block in parentheses, closes
    one, or does neither. -/
structure Lexeme.Plain (l : Lexeme) : Prop where
  kind : (∃ o, l.token = .opening o ∧ o.shape = .round ∧ ∀ d, parens d l.text = some (d + 1))
    ∨ (l.token = .closing .round ∧ l.text = [')'])
    ∨ (l.token.isInert = true ∧ Keeps l.text)
  /-- White space starts with white space. -/
  space : l.token = .space → ∃ c ∈ l.text.head?, Character.isSpace c = true
  /-- A name means what it spells. -/
  ident : ∀ name, l.token = .ident name → name = l.text

namespace Token

/-- Whether a reading of `c` before `s` stays within `s` and gives a lexeme of plain text. -/
def PlainRead (c : Char) (s : Text) (r : Token × Nat) : Prop :=
  r.2 ≤ s.length ∧ Lexeme.Plain ⟨r.1, c :: s.take r.2⟩

variable {c m : Char} {s t : Text}

theorem plain_ne {c : Char} (h : Character.isPlain c = true) :
    c ≠ '\\' ∧ c ≠ '\x00' ∧ c ≠ '/' ∧ c ≠ '@' ∧ c ≠ '<' := by
  refine ⟨?_, ?_, ?_, ?_, ?_⟩ <;> rintro rfl <;> exact absurd h (by decide)

theorem plainRead_mark {r : Token} (plain : Character.isPlain c = true) (h : mark? c = some r) :
    PlainRead c s (r, 0) := by
  refine ⟨Nat.zero_le _, ?_⟩
  unfold mark? at h
  split at h
  case h_1 =>
    obtain rfl := Option.some.inj h
    exact ⟨.inr (.inr ⟨rfl, fun d => ⟨d, Nat.le_refl d, rfl⟩⟩), (by simp), (by simp)⟩
  case h_3 =>
    obtain rfl := Option.some.inj h
    exact ⟨.inr (.inr ⟨rfl, fun d => ⟨d, Nat.le_refl d, rfl⟩⟩), (by simp), (by simp)⟩
  case h_4 =>
    obtain rfl := Option.some.inj h
    exact ⟨.inl ⟨_, rfl, rfl, fun d => rfl⟩, (by simp), (by simp)⟩
  case h_7 =>
    obtain rfl := Option.some.inj h
    exact ⟨.inr (.inl ⟨rfl, rfl⟩), (by simp), (by simp)⟩
  case h_10 => cases h
  all_goals exact absurd plain (by decide)

/-- A reading without closing parentheses. -/
theorem plainRead_inert {r : Token} {n : Nat} (within : n ≤ s.length) (inert : r.isInert = true)
    (space : r = .space → Character.isSpace c = true) (ident : ∀ name, r = .ident name → name = c :: s.take n)
    (text : ')' ∉ c :: s.take n) : PlainRead c s (r, n) :=
  ⟨within, .inr (.inr ⟨inert, parens_le text⟩), fun h => ⟨c, rfl, space h⟩, ident⟩

theorem plainRead_space (hc : Character.isSpace c = true) (hm : Character.isSpace m = false) :
    PlainRead c s (.space, ((s ++ m :: t).takeWhile Character.isSpace).length) := by
  rw [takeWhile_boundary hm]
  refine plainRead_inert (List.takeWhile_prefix _).length_le rfl (fun _ => hc) (by simp) ?_
  rw [take_length_takeWhile]
  intro h
  rcases List.mem_cons.mp h with rfl | h
  · exact absurd hc (by decide)
  · exact absurd (List.all_eq_true.mp List.all_takeWhile _ h) (by decide)

theorem plainRead_hash (plain : ∀ d ∈ s, Character.isPlain d = true)
    (hm : Character.isNameChar m = false) (hm' : m ≠ '\\') : PlainRead '#' s (readHash (s ++ m :: t)) := by
  have noSlash : '\\' ∉ s := fun h => (plain_ne (plain _ h)).1 rfl
  unfold readHash
  split
  · dsimp only
    rw [nameLength_boundary hm hm' noSlash]
    refine plainRead_inert (List.takeWhile_prefix _).length_le rfl (by simp) (by simp) ?_
    rw [take_length_takeWhile]
    intro h
    rcases List.mem_cons.mp h with h | h
    · exact absurd h (by decide)
    · exact absurd (List.all_eq_true.mp List.all_takeWhile _ h) (by decide)
  · exact plainRead_inert (Nat.zero_le _) rfl (by simp) (by simp) (by simp)

theorem plainRead_other (plain : Character.isPlain c = true) (unmarked : mark? c = none) (s' : Text) :
    PlainRead c s (readSymbol c s') := by
  have eq : readSymbol c s' = (.symbol, 0) := by
    unfold readSymbol
    split <;> first | rfl | exact absurd plain (by decide)
  rw [eq]
  refine plainRead_inert (Nat.zero_le _) rfl (by simp) (by simp) ?_
  intro h
  rcases List.mem_cons.mp h with rfl | h
  · exact absurd unmarked (by decide)
  · exact absurd h List.not_mem_nil

/-- A closing parenthesis is no part of a number. -/
theorem closer_notMem_number (x : Text) : ')' ∉ x.take (numberLength x) := by
  intro h
  obtain ⟨y, z, eq, -⟩ := List.eq_append_cons_of_mem h
  -- the number would end before the parenthesis
  have cut : x = y ++ ')' :: (z ++ x.drop (numberLength x)) := by
    rw [← List.cons_append, ← List.append_assoc, ← eq, List.take_append_drop]
  have shorter : numberLength x ≤ y.length := by
    rw [cut, numberLength_boundary (by decide)]
    exact numberLength_le y
  have longer := congrArg List.length eq
  rw [List.length_append, List.length_cons] at longer
  have := List.length_take_le (numberLength x) x
  omega

theorem plainRead_number (plain : ∀ d ∈ c :: s, Character.isPlain d = true)
    (hm : Character.isNumberChar m = false) (hm' : Character.isNameChar m = false) (slash : m ≠ '\\')
    (percent : m ≠ '%') (starts : startsNumber (c :: (s ++ m :: t)) = true) :
    PlainRead c s (readNumber c (s ++ m :: t)) := by
  have starts : startsNumber (c :: s) = true := startsNumber_boundary (t := t) hm (c :: s) ▸ starts
  have positive := numberLength_pos starts
  have within := numberLength_le (c :: s)
  rw [List.length_cons] at within
  have number := closer_notMem_number (c :: s)
  have behind : ((c :: s).drop (numberLength (c :: s))).length = s.length + 1 - numberLength (c :: s) :=
    List.length_drop
  rw [readNumber_boundary hm]
  dsimp only
  generalize hx : (c :: s).drop (numberLength (c :: s)) = x at behind ⊢
  generalize numberLength (c :: s) = k at *
  have text (j : Nat) : c :: s.take (k - 1 + j) = (c :: s).take k ++ x.take j := by
    rw [← hx, ← List.take_add, show k + j = (k - 1 + j) + 1 by omega]
    rfl
  split
  · -- a percentage: one character more
    next head =>
    cases x with
    | nil => exact absurd (Option.some.inj head) percent
    | cons d x =>
      obtain rfl : d = '%' := Option.some.inj head
      rw [List.length_cons] at behind
      refine plainRead_inert (by omega) rfl (by simp) (by simp) ?_
      rw [show k = k - 1 + 1 by omega, text 1, List.mem_append]
      rintro (h | h)
      · exact number h
      · simp at h
  split
  · -- a dimension: the name behind
    have noSlash : '\\' ∉ x := by
      rw [← hx]
      exact fun h => (plain_ne (plain _ (List.mem_of_mem_drop h))).1 rfl
    rw [nameLength_boundary hm' slash noSlash]
    have name := (List.takeWhile_prefix (p := Character.isNameChar) (l := x)).length_le
    refine plainRead_inert (by omega) rfl (by simp) (by simp) ?_
    rw [text, take_length_takeWhile, List.mem_append]
    rintro (h | h)
    · exact number h
    · exact absurd (List.all_eq_true.mp List.all_takeWhile _ h) (by decide)
  · refine plainRead_inert (by omega) rfl (by simp) (by simp) ?_
    rw [show k - 1 = k - 1 + 0 from rfl, text 0, List.take_zero, List.append_nil]
    exact number

/-- The parentheses of an address: the first one that closes ends it. -/
theorem keeps_address {name y : Text} (hn : ∀ d ∈ name, d ≠ '(' ∧ d ≠ ')') (hy : ')' ∉ y) :
    Keeps (name ++ '(' :: (y ++ [')'])) := by
  intro d
  obtain ⟨d', le, inner⟩ := parens_le hy (d + 1)
  refine ⟨d' - 1, by omega, ?_⟩
  rw [parens_append, parens_of_none hn, Option.bind_some, parens, if_pos rfl, parens_append, inner]
  show (if d' = 0 then none else some (d' - 1)) = _
  rw [if_neg (by omega)]

theorem isNameChar_of_startsName (h : startsName (c :: s) = true) (hc : c ≠ '\\') :
    Character.isNameChar c = true := by
  unfold startsName at h
  split at h
  · cases h
  · next eq =>
    injection eq with eq
    subst eq
    rfl
  · next eq =>
    injection eq with eq
    exact absurd eq hc
  · next eq =>
    injection eq with eq
    subst eq
    rw [Character.isNameChar, h]
    rfl

theorem plainRead_name (plain : ∀ d ∈ c :: s, Character.isPlain d = true)
    (hm : Character.isNameChar m = false) (slash : m ≠ '\\') (paren : m ≠ '(')
    {d : Nat} (balanced : parens d (c :: s) = some 0)
    (starts : startsName (c :: (s ++ m :: t)) = true) :
    PlainRead c s (readName c (s ++ m :: t)) := by
  have noSlash : '\\' ∉ c :: s := fun h => (plain_ne (plain _ h)).1 rfl
  have hc := isNameChar_of_startsName starts (plain_ne (plain c List.mem_cons_self)).1
  have length : nameLength 0 (c :: (s ++ m :: t)) = (s.takeWhile Character.isNameChar).length + 1 := by
    have boundary := nameLength_boundary (t := t) hm slash noSlash
    rw [List.takeWhile_cons, if_pos hc, List.length_cons] at boundary
    exact boundary
  have chars : ∀ d ∈ s.takeWhile Character.isNameChar, Character.isNameChar d = true :=
    List.all_eq_true.mp List.all_takeWhile
  have cut := (List.takeWhile_append_dropWhile (p := Character.isNameChar) (l := s)).symm
  generalize s.takeWhile Character.isNameChar = name at length chars cut
  generalize s.dropWhile Character.isNameChar = rest at cut
  subst cut
  have noParens : ∀ d ∈ c :: name, d ≠ '(' ∧ d ≠ ')' := by
    intro d hd
    have hd : Character.isNameChar d = true := by
      rcases List.mem_cons.mp hd with rfl | hd
      · exact hc
      · exact chars d hd
    constructor <;> rintro rfl <;> exact absurd hd (by decide)
  have behind : (c :: (name ++ rest ++ m :: t)).drop (name.length + 1) = rest ++ m :: t := by
    rw [List.drop_succ_cons, List.append_assoc, List.drop_left]
  have before : (c :: (name ++ rest ++ m :: t)).take (name.length + 1) = c :: name := by
    rw [List.take_succ_cons, List.append_assoc, List.take_left]
  have ident : PlainRead c (name ++ rest) (.ident (unescape 0 (c :: name)), name.length) := by
    refine plainRead_inert ?_ rfl (by simp) ?_ ?_
    · rw [List.length_append]; exact Nat.le_add_right _ _
    · intro r h
      injection h with h
      rw [← h, List.take_left]
      apply unescape_plain
      intro d hd
      have mem : d ∈ c :: (name ++ rest) := List.mem_append_left rest hd
      exact ⟨(plain_ne (plain d mem)).1, (plain_ne (plain d mem)).2.1⟩
    · rw [List.take_left]
      exact fun h => (noParens _ h).2 rfl
  unfold readName
  simp only [length, behind, before]
  split
  · next inner hinner =>
    cases rest with
    | nil => injection hinner with h; exact absurd h paren
    | cons e x =>
      injection hinner with he hx
      subst he hx
      split
      · -- an address: the parenthesis that closes it comes within the text
        have inner : parens (d + 1) x = some 0 := by
          rw [← List.cons_append, parens_append, parens_of_none noParens] at balanced
          exact balanced
        obtain ⟨y, z, rfl, hy⟩ := List.eq_append_cons_of_mem (closer_of_parens inner)
        have chars : ∀ e ∈ y, e ≠ ')' ∧ e ≠ '\\' := by
          intro e he
          refine ⟨fun h => hy (h ▸ he), fun h => noSlash (h ▸ ?_)⟩
          simp [he]
        have extent : addressExtent .lead 0 (List.append (y ++ ')' :: z) (m :: t))
            = ⟨y.length + 1, true⟩ := by
          rw [List.append_eq, List.append_assoc]
          exact addressExtent_closed chars .lead (z ++ m :: t)
        rw [extent]
        have text : (name ++ '(' :: (y ++ ')' :: z)).take (name.length + 1 + (y.length + 1))
            = name ++ '(' :: (y ++ [')']) := by
          rw [Nat.add_assoc, List.take_length_add_append, Nat.add_comm 1, List.take_succ_cons,
            List.take_length_add_append]
          rfl
        refine ⟨?_, .inr (.inr ⟨rfl, ?_⟩), (by simp), (by simp)⟩
        · simp only [List.length_append, List.length_cons]
          omega
        · show Keeps (c :: (name ++ '(' :: (y ++ ')' :: z)).take _)
          rw [text, ← List.cons_append]
          exact keeps_address noParens hy
      · have text : (name ++ '(' :: x).take (name.length + 1) = name ++ ['('] := by
          rw [List.take_length_add_append]
          rfl
        refine ⟨?_, .inl ⟨_, rfl, rfl, ?_⟩, (by simp), (by simp)⟩
        · simp only [List.length_append, List.length_cons]
          omega
        · intro d
          show parens d (c :: (name ++ '(' :: x).take _) = _
          rw [text, ← List.cons_append, parens_append, parens_of_none noParens]
          rfl
  · exact ident

theorem plainRead_arrow (fits : c = '-' ∧ (s ++ m :: t).take 2 = ['-', '>']) (hyphen : m ≠ '-')
    (greater : m ≠ '>') : PlainRead c s (.symbol, 2) := by
  obtain ⟨rfl, fits⟩ := fits
  rcases s with _ | ⟨a, _ | ⟨b, s⟩⟩
  · injection fits with h
    exact absurd h hyphen
  · injection fits with _ h
    injection h with h
    exact absurd h greater
  · injection fits with ha h
    injection h with hb
    subst ha hb
    exact plainRead_inert (by simp) rfl (by simp) (by simp) (by simp)

/-- **What is read within plain text stays within it**, if its parentheses are balanced. -/
theorem plainRead (plain : ∀ d ∈ c :: s, Character.isPlain d = true) {d : Nat}
    (balanced : parens d (c :: s) = some 0) (hm : m = ';' ∨ m = '\x7b') :
    PlainRead c s (read c (s ++ m :: t)) := by
  have hc := plain c List.mem_cons_self
  have noName : Character.isNameChar m = false := by rcases hm with rfl | rfl <;> decide
  have noNumber : Character.isNumberChar m = false := by rcases hm with rfl | rfl <;> decide
  have noSpace : Character.isSpace m = false := by rcases hm with rfl | rfl <;> decide
  have slash : m ≠ '\\' := by rcases hm with rfl | rfl <;> decide
  have fits := start_fits c (s ++ m :: t)
  rw [read_eq]
  cases hs : start c (s ++ m :: t) with
  | mark r => rw [hs] at fits; exact plainRead_mark hc fits
  | space => rw [hs] at fits; exact plainRead_space fits noSpace
  | quote =>
    rw [hs] at fits
    simp only [Start.Fits, Character.isQuote, Bool.or_eq_true, beq_iff_eq] at fits
    rcases fits with rfl | rfl <;> exact absurd hc (by decide)
  | hash =>
    rw [hs] at fits
    obtain rfl : c = '#' := fits
    exact plainRead_hash (fun d hd => plain d (List.mem_cons_of_mem _ hd)) noName slash
  | atSign => rw [hs] at fits; exact absurd fits (plain_ne hc).2.2.2.1
  | comment => rw [hs] at fits; exact absurd fits.1 (plain_ne hc).2.2.1
  | number =>
    rw [hs] at fits
    exact plainRead_number plain noNumber noName slash
      (by rcases hm with rfl | rfl <;> decide) fits
  | arrow =>
    rw [hs] at fits
    exact plainRead_arrow fits (by rcases hm with rfl | rfl <;> decide)
      (by rcases hm with rfl | rfl <;> decide)
  | name =>
    rw [hs] at fits
    exact plainRead_name plain noName slash (by rcases hm with rfl | rfl <;> decide) balanced fits
  | other => rw [hs] at fits; exact plainRead_other hc fits.1 _

end Token

end Translucent
