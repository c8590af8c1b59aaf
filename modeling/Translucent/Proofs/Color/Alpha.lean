import Mathlib.Algebra.Order.Field.Rat
import Mathlib.Data.List.TakeWhile
import Mathlib.Tactic.FieldSimp
import Mathlib.Tactic.Linarith
import Mathlib.Tactic.NormNum
import Mathlib.Tactic.Ring
import Translucent.Color.Alpha
import Translucent.Text.Digit

/-!
  # Opacities are exact

  An opacity is kept as digits and compared as digits; no number is ever computed from it.  It is the exact
  value of what was written all the same:

  1. **Digits** — `decimalValue` and `fractionValue` from the front; a run of digits without zeros at its end
     is determined by its value behind a point (`fractionValue_injective`).
  2. **Literals** — `Writes l q`, the three forms of a literal with the number that each writes; they are what
     `parts?` takes apart (`writes_iff`).
  3. **Opacities** — `Alpha.value` is injective; a literal is read as the opacity of its value
     (`writes_of_ofLiteral?`), and is read if that is at most 1 (`exists_ofLiteral?`).

  **Main statement** — `ofLiteral?_exact`.
-/

namespace Translucent

/-! ## Digits -/

/-- `digitValue c` = the number that the digit `c` writes. -/
def digitValue (c : Char) : Nat := c.toNat - '0'.toNat

/-- Digits are the ten characters from `0` on. -/
theorem toNat_of_isDigit {c : Char} (h : c.isDigit = true) :
    c.toNat = 48 + digitValue c ∧ digitValue c ≤ 9 := by
  have zero : '0'.toNat = 48 := rfl
  have bounds : 48 ≤ c.toNat ∧ c.toNat ≤ 57 := by
    rw [Char.isDigit, Bool.and_eq_true, decide_eq_true_eq, decide_eq_true_eq] at h
    exact ⟨UInt32.le_iff_toNat_le.mp h.1, UInt32.le_iff_toNat_le.mp h.2⟩
  rw [digitValue]
  omega

/-- A digit is known by its value. -/
theorem digitValue_injective {c d : Char} (hc : c.isDigit = true) (hd : d.isDigit = true)
    (h : digitValue c = digitValue d) : c = d := by
  apply Char.ext
  apply UInt32.toNat_inj.mp
  show c.toNat = d.toNat
  rw [(toNat_of_isDigit hc).1, (toNat_of_isDigit hd).1, h]

theorem digitValue_pos {c : Char} (hc : c.isDigit = true) (h : c ≠ '0') : 0 < digitValue c := by
  apply Nat.pos_of_ne_zero
  intro zero
  exact h (digitValue_injective hc rfl zero)

theorem decimalValue_nil : decimalValue [] = 0 := rfl

/-- Each digit counts as many tens as there are digits behind it. -/
theorem decimalValue_cons (c : Char) (e : Text) :
    decimalValue (c :: e) = digitValue c * 10 ^ e.length + decimalValue e := by
  have from_front (n : Nat) (e : Text) :
      e.foldl (fun n d => 10 * n + (d.toNat - '0'.toNat)) n = n * 10 ^ e.length + decimalValue e := by
    induction e generalizing n with
    | nil => simp [decimalValue]
    | cons d e ih =>
      rw [decimalValue, List.foldl_cons, List.foldl_cons, ih, ih (10 * 0 + _), List.length_cons, Nat.pow_succ]
      ring
  rw [decimalValue, List.foldl_cons, from_front, Nat.mul_zero, Nat.zero_add]
  rfl

/-- `fractionValue e` = the number that the digits `e` write behind a point. -/
def fractionValue (e : Text) : ℚ := decimalValue e / 10 ^ e.length

theorem fractionValue_nil : fractionValue [] = 0 := by
  norm_num [fractionValue, decimalValue]

theorem fractionValue_cons (c : Char) (e : Text) :
    fractionValue (c :: e) = (digitValue c + fractionValue e) / 10 := by
  rw [fractionValue, fractionValue, decimalValue_cons, List.length_cons, pow_succ]
  push_cast
  field_simp

/-- What stands behind a point is less than 1. -/
theorem fractionValue_bounds {e : Text} (h : e.all Char.isDigit = true) :
    0 ≤ fractionValue e ∧ fractionValue e < 1 := by
  induction e with
  | nil => rw [fractionValue_nil]; norm_num
  | cons c e ih =>
    rw [List.all_cons, Bool.and_eq_true] at h
    obtain ⟨low, high⟩ := ih h.2
    have nine : (digitValue c : ℚ) ≤ 9 := by exact_mod_cast (toNat_of_isDigit h.1).2
    have positive : (0 : ℚ) ≤ digitValue c := Nat.cast_nonneg _
    rw [fractionValue_cons]
    constructor
    · linarith
    · linarith

/-- Zeros at the end do not count. -/
theorem fractionValue_trimZeros (e : Text) : fractionValue (Alpha.trimZeros e) = fractionValue e := by
  have zeros {z : Text} (hz : ∀ c ∈ z, c = '0') : fractionValue z = 0 := by
    induction z with
    | nil => exact fractionValue_nil
    | cons c z ih =>
      obtain rfl := hz c List.mem_cons_self
      rw [fractionValue_cons, ih fun d hd => hz d (List.mem_cons_of_mem _ hd)]
      norm_num [digitValue]
  have behind (u : Text) {z : Text} (hz : ∀ c ∈ z, c = '0') : fractionValue (u ++ z) = fractionValue u := by
    induction u with
    | nil => rw [List.nil_append, zeros hz, fractionValue_nil]
    | cons c u ih => rw [List.cons_append, fractionValue_cons, fractionValue_cons, ih]
  have trimmed : ∀ c ∈ (e.reverse.takeWhile (· == '0')).reverse, c = '0' := by
    intro c hc
    exact eq_of_beq (List.all_eq_true.mp List.all_takeWhile c (List.mem_reverse.mp hc))
  have whole := behind (Alpha.trimZeros e) trimmed
  rw [Alpha.trimZeros_append_zeros] at whole
  exact whole.symm

/-- Digits that end in no zero are worth something. -/
theorem fractionValue_pos {e : Text} (digits : e.all Char.isDigit = true) (some_digit : e ≠ [])
    (last : e.getLast? ≠ some '0') : 0 < fractionValue e := by
  induction e with
  | nil => exact absurd rfl some_digit
  | cons c e ih =>
    rw [List.all_cons, Bool.and_eq_true] at digits
    rw [fractionValue_cons]
    by_cases empty : e = []
    · subst empty
      have first : (1 : ℚ) ≤ digitValue c := by
        exact_mod_cast digitValue_pos digits.1 fun zero => last (by rw [zero]; rfl)
      rw [fractionValue_nil]
      linarith
    · have behind := ih digits.2 empty (Text.getLast?_drop_ne last 1)
      have first : (0 : ℚ) ≤ digitValue c := Nat.cast_nonneg _
      linarith

/-- **Digits that end in no zero** are determined by their value. -/
theorem fractionValue_injective {d e : Text} (hd : d.all Char.isDigit = true) (he : e.all Char.isDigit = true)
    (lastd : d.getLast? ≠ some '0') (laste : e.getLast? ≠ some '0') (h : fractionValue d = fractionValue e) :
    d = e := by
  induction d generalizing e with
  | nil =>
    by_contra some_digit
    have := fractionValue_pos he (Ne.symm some_digit) laste
    rw [fractionValue_nil] at h
    linarith
  | cons c d ih =>
    cases e with
    | nil =>
      have := fractionValue_pos hd (List.cons_ne_nil c d) lastd
      rw [fractionValue_nil] at h
      linarith
    | cons c' e =>
      rw [List.all_cons, Bool.and_eq_true] at hd he
      rw [fractionValue_cons, fractionValue_cons] at h
      obtain ⟨lowd, highd⟩ := fractionValue_bounds hd.2
      obtain ⟨lowe, highe⟩ := fractionValue_bounds he.2
      -- the first digits differ by less than 1
      have below : digitValue c < digitValue c' + 1 := by
        have : (digitValue c : ℚ) < digitValue c' + 1 := by linarith
        exact_mod_cast this
      have above : digitValue c' < digitValue c + 1 := by
        have : (digitValue c' : ℚ) < digitValue c + 1 := by linarith
        exact_mod_cast this
      have same : digitValue c = digitValue c' := by omega
      have behind : fractionValue d = fractionValue e := by
        rw [same] at h
        linarith
      rw [digitValue_injective hd.1 he.1 same,
        ih hd.2 he.2 (Text.getLast?_drop_ne lastd 1) (Text.getLast?_drop_ne laste 1) behind]

/-- Zeros at the start do not count. -/
theorem decimalValue_dropZeros (d : Text) : decimalValue (d.dropWhile (· == '0')) = decimalValue d := by
  induction d with
  | nil => rfl
  | cons c d ih =>
    by_cases zero : c = '0'
    · subst zero
      rw [List.dropWhile_cons_of_pos rfl, ih, decimalValue_cons]
      simp [digitValue]
    · rw [List.dropWhile_cons_of_neg (by simpa using zero)]

/-- Digits that start with no zero are worth 2 at least, but for a lone `1` and none at all. -/
theorem two_le_decimalValue {d : Text} (digits : d.all Char.isDigit = true) (some_digit : d ≠ [])
    (first : d.head? ≠ some '0') (one : d ≠ ['1']) : 2 ≤ decimalValue d := by
  obtain ⟨c, e, rfl⟩ := List.exists_cons_of_ne_nil some_digit
  rw [List.all_cons, Bool.and_eq_true] at digits
  have positive := digitValue_pos digits.1 fun zero => first (congrArg some zero)
  rw [decimalValue_cons]
  cases e with
  | nil =>
    have other : digitValue c ≠ digitValue '1' := fun h => one (by rw [digitValue_injective digits.1 rfl h])
    rw [show digitValue '1' = 1 from rfl] at other
    simp only [List.length_nil, Nat.pow_zero, Nat.mul_one]
    omega
  | cons c' e =>
    have tens : 10 ≤ 10 ^ (c' :: e).length := Nat.le_self_pow (by simp) 10
    have := Nat.le_mul_of_pos_left (10 ^ (c' :: e).length) positive
    omega

/-! ## Literals -/

namespace Alpha

/-- `Writes l q`: the literal `l` is digits, digits around a point, or digits behind a point, and writes the
    number `q`. -/
inductive Writes : Text → ℚ → Prop
  /-- Digits alone. -/
  | whole {d : Text} (hd : IsDigits d) : Writes d (decimalValue d)
  /-- Digits around a point. -/
  | decimal {d e : Text} (hd : IsDigits d) (he : IsDigits e) :
      Writes (d ++ '.' :: e) (decimalValue d + fractionValue e)
  /-- Digits behind a point. -/
  | fraction {e : Text} (he : IsDigits e) : Writes ('.' :: e) (fractionValue e)

theorem no_point {d : Text} (digits : d.all Char.isDigit = true) : d.all (· != '.') = true := by
  rw [List.all_eq_true] at digits ⊢
  intro c hc
  apply bne_iff_ne.mpr
  rintro rfl
  exact absurd (digits _ hc) (by decide)

/-- A run of digits goes up to the point behind it. -/
theorem cut_at_point {d : Text} (digits : d.all Char.isDigit = true) (e : Text) :
    (d ++ '.' :: e).takeWhile (· != '.') = d ∧ (d ++ '.' :: e).dropWhile (· != '.') = '.' :: e := by
  have points := List.all_eq_true.mp (no_point digits)
  rw [List.takeWhile_append_of_pos points, List.dropWhile_append_of_pos points]
  exact ⟨List.append_nil d, rfl⟩

/-- Where no point stands, digits are cut nowhere. -/
theorem cut_nowhere {d : Text} (digits : d.all Char.isDigit = true) :
    d.takeWhile (· != '.') = d ∧ d.dropWhile (· != '.') = [] := by
  have points := List.all_eq_true.mp (no_point digits)
  exact ⟨List.takeWhile_eq_self_iff.mpr points, List.dropWhile_eq_nil_iff.mpr points⟩

/-- **The three forms of a literal** are what can be cut into digits before and behind a point. -/
theorem writes_iff {l : Text} {q : ℚ} : Writes l q ↔ ∃ whole places, parts? l = some (whole, places)
    ∧ whole.all Char.isDigit = true ∧ places.all Char.isDigit = true
    ∧ q = decimalValue whole + fractionValue places := by
  constructor
  · intro h
    cases h with
    | whole hd =>
      obtain ⟨before, behind⟩ := cut_nowhere hd.2
      refine ⟨l, [], ?_, hd.2, rfl, by rw [fractionValue_nil, add_zero]⟩
      rw [parts?, before, behind]
      exact if_neg hd.1
    | @decimal d e hd he =>
      obtain ⟨before, behind⟩ := cut_at_point hd.2 e
      refine ⟨d, e, ?_, hd.2, he.2, rfl⟩
      rw [parts?, before, behind]
      exact if_neg he.1
    | @fraction e he =>
      refine ⟨[], e, if_neg he.1, rfl, he.2, ?_⟩
      rw [decimalValue_nil, Nat.cast_zero, zero_add]
  · rintro ⟨whole, places, parts, hw, hp, rfl⟩
    have cut := List.takeWhile_append_dropWhile (p := (· != '.')) (l := l)
    unfold parts? at parts
    dsimp only at parts
    split at parts
    · next none_behind =>
      split at parts
      · cases parts
      · next some_digit =>
        obtain ⟨rfl, rfl⟩ := Prod.mk.inj (Option.some.inj parts)
        rw [none_behind, List.append_nil] at cut
        rw [fractionValue_nil, add_zero, cut]
        rw [cut] at some_digit hw
        exact .whole ⟨some_digit, hw⟩
    · next point rest behind =>
      split at parts
      · cases parts
      · next some_place =>
        obtain ⟨rfl, rfl⟩ := Prod.mk.inj (Option.some.inj parts)
        obtain rfl : point = '.' := by
          have stops := List.head?_dropWhile_not (· != '.') l
          rw [behind] at stops
          simpa using stops
        rw [behind] at cut
        generalize l.takeWhile (· != '.') = d at cut hw ⊢
        subst cut
        by_cases empty : d = []
        · subst empty
          rw [decimalValue_nil, Nat.cast_zero, zero_add]
          exact .fraction ⟨some_place, hp⟩
        · exact .decimal ⟨empty, hw⟩ ⟨some_place, hp⟩

/-- A literal writes one number only. -/
theorem Writes.unique {l : Text} {q r : ℚ} (hq : Writes l q) (hr : Writes l r) : q = r := by
  obtain ⟨whole, places, parts, -, -, rfl⟩ := writes_iff.mp hq
  obtain ⟨whole', places', parts', -, -, rfl⟩ := writes_iff.mp hr
  obtain ⟨rfl, rfl⟩ := Prod.mk.inj (Option.some.inj (parts.symm.trans parts'))
  rfl

/-! ## Opacities -/

/-- `value a` = the opacity `a` as a number. -/
def value : Alpha → ℚ
  | transparent => 0
  | full => 1
  | fraction digits _ => fractionValue digits

/-- Only the two ends are whole numbers. -/
theorem value_fraction {digits : Text} (shortest : IsFraction digits) :
    0 < fractionValue digits ∧ fractionValue digits < 1 :=
  ⟨fractionValue_pos shortest.1 shortest.2.1 shortest.2.2, (fractionValue_bounds shortest.1).2⟩

theorem value_le_one (a : Alpha) : a.value ≤ 1 := by
  cases a with
  | transparent => exact zero_le_one
  | full => exact le_refl 1
  | fraction digits shortest => exact (value_fraction shortest).2.le

/-- **Equal numbers are equal opacities.** -/
theorem value_injective {a b : Alpha} (h : a.value = b.value) : a = b := by
  cases a with
  | transparent =>
    cases b with
    | transparent => rfl
    | full => exact absurd h zero_ne_one
    | fraction e he => exact absurd h (value_fraction he).1.ne
  | full =>
    cases b with
    | transparent => exact absurd h one_ne_zero
    | full => rfl
    | fraction e he => exact absurd h (value_fraction he).2.ne'
  | fraction d hd =>
    cases b with
    | transparent => exact absurd h (value_fraction hd).1.ne'
    | full => exact absurd h (value_fraction hd).2.ne
    | fraction e he =>
      obtain rfl := fractionValue_injective hd.1 he.1 hd.2.2 he.2.2 h
      rfl

theorem isFull_iff (a : Alpha) : a.isFull = true ↔ a.value = 1 := by
  rw [isFull, beq_iff_eq]
  constructor
  · rintro rfl
    rfl
  · exact fun h => value_injective (b := full) h

theorem value_ofFraction {digits : Text} (h : digits.all Char.isDigit = true) :
    (ofFraction digits h).value = fractionValue digits := by
  rw [ofFraction]
  split
  · next zeros => rw [← fractionValue_trimZeros, zeros, fractionValue_nil]; rfl
  · exact fractionValue_trimZeros digits

/-- A literal in its parts, by its digits before the point without leading zeros. -/
theorem ofLiteral?_of_parts {l whole places : Text} (parts : parts? l = some (whole, places))
    (hw : whole.all Char.isDigit = true) (hp : places.all Char.isDigit = true) :
    ofLiteral? l = match whole.dropWhile (· == '0') with
      | [] => some (ofFraction places hp)
      | ['1'] => if trimZeros places = [] then some .full else none
      | _ => none := by
  rw [ofLiteral?, parts]
  exact dif_pos ⟨hw, hp⟩

/-- What is read was written so. -/
theorem writes_of_ofLiteral? {l : Text} {a : Alpha} (h : ofLiteral? l = some a) : Writes l a.value := by
  cases parts : parts? l with
  | none => rw [ofLiteral?, parts] at h; cases h
  | some cut =>
    obtain ⟨whole, places⟩ := cut
    by_cases digits : whole.all Char.isDigit = true ∧ places.all Char.isDigit = true
    · obtain ⟨hw, hp⟩ := digits
      refine writes_iff.mpr ⟨whole, places, parts, hw, hp, ?_⟩
      have value := decimalValue_dropZeros whole
      rw [ofLiteral?_of_parts parts hw hp] at h
      split at h
      · next none_left =>
        obtain rfl := Option.some.inj h
        rw [none_left] at value
        rw [value_ofFraction, ← value, decimalValue_nil, Nat.cast_zero, zero_add]
      · next one =>
        split at h
        · next zeros =>
          obtain rfl := Option.some.inj h
          rw [one] at value
          rw [← value, ← fractionValue_trimZeros, zeros, fractionValue_nil, add_zero]
          exact Nat.cast_one.symm
        · cases h
      · cases h
    · have refused : ofLiteral? l = none := by
        rw [ofLiteral?, parts]
        exact dif_neg digits
      rw [refused] at h
      cases h

/-- A number that is not above 1 is read. -/
theorem exists_ofLiteral? {l : Text} {q : ℚ} (h : Writes l q) (small : q ≤ 1) : ∃ a, ofLiteral? l = some a := by
  obtain ⟨whole, places, parts, hw, hp, rfl⟩ := writes_iff.mp h
  have value := decimalValue_dropZeros whole
  obtain ⟨low, high⟩ := fractionValue_bounds hp
  rw [ofLiteral?_of_parts parts hw hp]
  split
  · exact ⟨_, rfl⟩
  · next one =>
    have zeros : trimZeros places = [] := by
      by_contra some_place
      have positive := fractionValue_pos (all_isDigit_trimZeros hp) some_place (getLast?_trimZeros places)
      rw [fractionValue_trimZeros] at positive
      rw [one] at value
      have : (decimalValue whole : ℚ) = 1 := by rw [← value]; exact Nat.cast_one
      linarith
    rw [if_pos zeros]
    exact ⟨_, rfl⟩
  · next some_digit one =>
    exfalso
    have first : (whole.dropWhile (· == '0')).head? ≠ some '0' := by
      intro zero
      have stops := List.head?_dropWhile_not (· == '0') whole
      rw [zero] at stops
      cases stops
    have digits : (whole.dropWhile (· == '0')).all Char.isDigit = true := by
      rw [List.all_eq_true] at hw ⊢
      exact fun c hc => hw c ((List.dropWhile_suffix _).subset hc)
    have large := two_le_decimalValue digits some_digit first one
    rw [value] at large
    have : (2 : ℚ) ≤ decimalValue whole := by exact_mod_cast large
    linarith

/-- **What is read as an opacity** is what writes it, a number that is not above 1. -/
theorem ofLiteral?_eq_some_iff {l : Text} {a : Alpha} :
    ofLiteral? l = some a ↔ ∃ q ≤ 1, Writes l q ∧ a.value = q := by
  constructor
  · exact fun read => ⟨a.value, a.value_le_one, writes_of_ofLiteral? read, rfl⟩
  · rintro ⟨q, small, writes, value⟩
    obtain ⟨b, read⟩ := exists_ofLiteral? writes small
    rw [read, value_injective (value.trans (writes.unique (writes_of_ofLiteral? read)))]

/-- The shortest decimal of an opacity writes it. -/
theorem writes_text (a : Alpha) : Writes a.text a.value := by
  have zero : decimalValue ['0'] = 0 := rfl
  have one : decimalValue ['1'] = 1 := rfl
  cases a with
  | transparent =>
    have number := Writes.whole (d := ['0']) ⟨by simp, rfl⟩
    rwa [zero, Nat.cast_zero] at number
  | full =>
    have number := Writes.whole (d := ['1']) ⟨by simp, rfl⟩
    rwa [one, Nat.cast_one] at number
  | fraction digits shortest =>
    have number := Writes.decimal (d := ['0']) ⟨by simp, rfl⟩ ⟨shortest.2.1, shortest.1⟩
    rwa [zero, Nat.cast_zero, zero_add] at number

/-- **What is written is read again.** -/
theorem ofLiteral?_text (a : Alpha) : ofLiteral? a.text = some a := by
  obtain ⟨b, read⟩ := exists_ofLiteral? a.writes_text a.value_le_one
  rw [read, value_injective ((writes_of_ofLiteral? read).unique a.writes_text)]

/-- Whether a text is the shortest decimal of a number from 0 to 1. -/
def IsShortest (t : Text) : Prop :=
  t = ['0'] ∨ t = ['1'] ∨ ∃ digits, t = '0' :: '.' :: digits ∧ IsFraction digits

theorem isShortest_text (a : Alpha) : IsShortest a.text := by
  cases a with
  | transparent => exact .inl rfl
  | full => exact .inr (.inl rfl)
  | fraction digits shortest => exact .inr (.inr ⟨digits, rfl, shortest⟩)

/-- **Reading is exact**: the literals that are read are digits, digits around a point, and digits behind a point
    that write a number up to 1.  What is read is known by that number alone: it is written as the shortest decimal
    of it, and that is read as the same opacity; it is full exactly for 1; and two literals are read as the same
    opacity, with the same text, exactly if they write the same number. -/
theorem ofLiteral?_exact (l : Text) :
    ((ofLiteral? l).isSome = true ↔ ∃ q, Writes l q ∧ q ≤ 1)
      ∧ ∀ a, ofLiteral? l = some a → ∀ q, Writes l q →
        Writes a.text q ∧ IsShortest a.text ∧ ofLiteral? a.text = some a ∧ (a.isFull = true ↔ q = 1)
          ∧ ∀ l' a' q', ofLiteral? l' = some a' → Writes l' q' → ((a = a' ↔ q = q') ∧ (a.text = a'.text ↔ q = q')) := by
  constructor
  · rw [Option.isSome_iff_exists]
    constructor
    · rintro ⟨a, read⟩
      exact ⟨a.value, writes_of_ofLiteral? read, a.value_le_one⟩
    · rintro ⟨q, writes, small⟩
      exact exists_ofLiteral? writes small
  · intro a read q writes
    obtain rfl := (writes_of_ofLiteral? read).unique writes
    refine ⟨a.writes_text, a.isShortest_text, a.ofLiteral?_text, a.isFull_iff, fun l' a' q' read' writes' => ?_⟩
    obtain rfl := (writes_of_ofLiteral? read').unique writes'
    constructor
    · exact ⟨congrArg value, value_injective⟩
    · constructor
      · intro same
        exact a.writes_text.unique (same ▸ a'.writes_text)
      · exact fun same => congrArg text (value_injective same)

/-- One half, written in two ways. -/
theorem ofLiteral?_exact_half :
    ∃ a, ofLiteral? ['.', '5', '0'] = some a ∧ Writes a.text (1 / 2) ∧ IsShortest a.text
      ∧ ofLiteral? a.text = some a ∧ (a.isFull = true ↔ (1 / 2 : ℚ) = 1)
      ∧ ∃ a', ofLiteral? ['0', '0', '.', '5'] = some a' ∧ (a = a' ↔ (1 / 2 : ℚ) = 1 / 2) := by
  have five : fractionValue ['5'] = 1 / 2 := by
    rw [fractionValue_cons, fractionValue_nil, show digitValue '5' = 5 from rfl]
    norm_num
  have fifty : fractionValue ['5', '0'] = 1 / 2 := (fractionValue_trimZeros ['5', '0']).symm.trans five
  have half : Writes ['.', '5', '0'] (1 / 2) := by
    have number := Writes.fraction (e := ['5', '0']) ⟨by simp, rfl⟩
    rwa [fifty] at number
  have half' : Writes ['0', '0', '.', '5'] (1 / 2) := by
    have number := Writes.decimal (d := ['0', '0']) (e := ['5']) ⟨by simp, rfl⟩ ⟨by simp, rfl⟩
    rwa [show decimalValue ['0', '0'] = 0 from rfl, Nat.cast_zero, zero_add, five] at number
  have read : ofLiteral? ['.', '5', '0'] = some (fraction ['5'] (by decide)) := rfl
  have read' : ofLiteral? ['0', '0', '.', '5'] = some (fraction ['5'] (by decide)) := rfl
  obtain ⟨writes, shortest, again, full, same⟩ := (ofLiteral?_exact ['.', '5', '0']).2 _ read _ half
  exact ⟨_, read, writes, shortest, again, full, _, read', (same _ _ _ read' half').1⟩

end Alpha

end Translucent
