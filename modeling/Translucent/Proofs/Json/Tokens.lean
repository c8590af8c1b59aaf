import Translucent.Proofs.Json.Layout

/-!
  # The checker within tokens

  What the checker does in white space, in strings and in numbers, wherever they stand.

  1. **Runs** — a run is taken step by step, and over two texts in turn.
  2. **White space** — it changes nothing at a place where it may stand (`State.run_gap`).
  3. **Strings** — each spelling of a symbol leads from between two characters to there again
     (`StringPlace.run_symbol`).  In proper text that holds of characters only.
  4. **Numbers** — a number goes through its parts in order, and may end where it does (`NumberPlace.run_number`).
-/

namespace Translucent.Json

/-! ## Runs -/

namespace State

theorem run_cons {s s' : State} {c : Char} (h : s.step c = some s') (t : Text) : s.run (c :: t) = s'.run t := by
  rw [run, List.foldlM_cons, h]
  rfl

theorem run_cons_none {s : State} {c : Char} (h : s.step c = none) (t : Text) : s.run (c :: t) = none := by
  rw [run, List.foldlM_cons, h]
  rfl

theorem run_append {s s' : State} {t : Text} (h : s.run t = some s') (u : Text) : s.run (t ++ u) = s'.run u := by
  rw [run] at h ⊢
  rw [List.foldlM_append, h]
  rfl

theorem run_append_none {s : State} {t : Text} (h : s.run t = none) (u : Text) : s.run (t ++ u) = none := by
  rw [run] at h ⊢
  rw [List.foldlM_append, h]
  rfl

end State

/-! ## White space -/

/-- Whether white space may stand at a place. -/
def Place.isBetween : Place → Bool
  | .string _ _ _ | .number _ | .word _ => false
  | _ => true

namespace State

theorem step_space {p : Place} (hp : p.isBetween = true) {c : Char} (hc : isSpace c = true)
    (stack : List Container) : step ⟨stack, p⟩ c = some ⟨stack, p⟩ := by
  cases p with
  | string | number | word => cases hp
  | after => exact if_pos hc
  | document | emptyArray | value | firstValue | firstName | name | colon => exact if_pos hc

/-- **White space changes nothing.** -/
theorem run_gap {p : Place} (hp : p.isBetween = true) {g : Text} (hg : IsGap g) (stack : List Container) :
    run ⟨stack, p⟩ g = some ⟨stack, p⟩ := by
  induction g with
  | nil => rfl
  | cons c g ih =>
    rw [run_cons (step_space hp (hg c List.mem_cons_self) stack)]
    exact ih fun d hd => hg d (List.mem_cons_of_mem _ hd)

end State

/-! ## Strings -/

namespace StringPlace

/-- `run proper p t` = the place behind the text `t`, if it may stand at `p`. -/
def run (proper : Bool) (p : StringPlace) (t : Text) : Option StringPlace := t.foldlM (step proper) p

theorem run_append {proper : Bool} {p q : StringPlace} {t : Text} (h : run proper p t = some q) (u : Text) :
    run proper p (t ++ u) = run proper q u := by
  rw [run] at h ⊢
  rw [List.foldlM_append, h]
  rfl

/-- The code of a character is neither half of a pair. -/
theorem afterCode_char (proper : Bool) (c : Char) : afterCode proper c.toNat = some body := by
  have valid : c.toNat < 0xD800 ∨ (0xDFFF < c.toNat ∧ c.toNat < 0x110000) := c.valid
  rw [afterCode]
  split
  · rfl
  · rw [if_neg (by omega), if_neg (by omega)]

/-- The first half of a pair asks for the second, in proper text. -/
theorem afterCode_firstHalf (proper : Bool) {c : Char} (large : 0x10000 ≤ c.toNat) :
    afterCode proper (firstHalf c.toNat) = some (if proper then half else body) := by
  have valid : c.toNat < 0xD800 ∨ (0xDFFF < c.toNat ∧ c.toNat < 0x110000) := c.valid
  unfold afterCode firstHalf
  cases proper with
  | false => rfl
  | true =>
    rw [if_neg (by decide), if_neg (by omega), if_pos (by omega)]
    rfl

theorem afterHalf_secondHalf (n : Nat) : afterHalf (secondHalf n) = some body := by
  unfold afterHalf secondHalf
  rw [if_pos (by omega)]

/-- In text that is not proper halves are as good as characters. -/
theorem afterCode_unread (n : Nat) : afterCode false n = some body := rfl

/-- Four digits are read as the number that they write. -/
theorem run_code {n : Nat} {t : Text} (h : IsCode n t) (proper : Bool) :
    run proper (.code 0 0) t = afterCode proper n := by
  cases h with
  | digits ha hb hc hd =>
    simp only [run, List.foldlM_cons, List.foldlM_nil, step, ha, hb, hc, hd]
    simp

/-- So are those of the second half of a pair. -/
theorem run_halfCode {n : Nat} {t : Text} (h : IsCode n t) (proper : Bool) :
    run proper (.halfCode 0 0) t = afterHalf n := by
  cases h with
  | digits ha hb hc hd =>
    simp only [run, List.foldlM_cons, List.foldlM_nil, step, ha, hb, hc, hd]
    simp

/-- **A spelling of a symbol** leads from between two characters to there again; in proper text, that of a
    character. -/
theorem run_symbol {x : Symbol} {t : Text} (h : x.Spelled t) {proper : Bool}
    (char : proper = true → ∃ c, x = .char c) : run proper .body t = some .body := by
  cases h with
  | @plain c quote backslash control =>
    show (step proper .body c).bind some = _
    rw [step, if_neg quote, if_neg backslash, if_neg (by omega)]
    rfl
  | @escape e c mem =>
    simp only [escapes, List.mem_cons, Prod.mk.injEq, List.not_mem_nil, or_false] at mem
    rcases mem with ⟨rfl, rfl⟩ | ⟨rfl, rfl⟩ | ⟨rfl, rfl⟩ | ⟨rfl, rfl⟩ | ⟨rfl, rfl⟩ | ⟨rfl, rfl⟩ | ⟨rfl, rfl⟩
      | ⟨rfl, rfl⟩
    all_goals rfl
  | @code c t code =>
    show run proper (.code 0 0) t = _
    rw [run_code code, afterCode_char]
  | @pair c t u large ht hu =>
    show run proper (.code 0 0) (t ++ '\\' :: 'u' :: u) = _
    have first := (run_code ht proper).trans (afterCode_firstHalf proper large)
    rw [run_append first]
    cases proper with
    | false =>
      show run false (.code 0 0) u = _
      rw [run_code hu, afterCode_unread]
    | true =>
      show run true (.halfCode 0 0) u = _
      rw [run_halfCode hu, afterHalf_secondHalf]
  | @half n t surrogate code =>
    cases proper with
    | false =>
      show run false (.code 0 0) t = _
      rw [run_code code, afterCode_unread]
    | true =>
      obtain ⟨c, same⟩ := char rfl
      cases same

theorem run_symbols {s : List Symbol} {t : Text} (h : SpelledAll s t) {proper : Bool}
    (chars : proper = true → ∀ x ∈ s, ∃ c, x = .char c) : run proper .body t = some .body := by
  induction h with
  | nil => rfl
  | @cons x s t u first rest ih =>
    rw [run_append (run_symbol first fun p => chars p x List.mem_cons_self)]
    exact ih fun p y hy => chars p y (List.mem_cons_of_mem _ hy)

end StringPlace

namespace State

/-- Within a string, the checker does what its place does. -/
theorem run_string {p q : StringPlace} {proper : Bool} {t : Text} (h : p.run proper t = some q) (inside : q ≠ .done)
    (stack : List Container) (isName : Bool) :
    run ⟨stack, .string isName proper p⟩ t = some ⟨stack, .string isName proper q⟩ := by
  induction t generalizing p with
  | nil =>
    obtain rfl := Option.some.inj h
    rfl
  | cons c t ih =>
    obtain ⟨p', one, rest⟩ := Option.bind_eq_some_iff.mp h
    -- behind the closing quotation mark there is no going on
    have going : p' ≠ .done := by
      rintro rfl
      cases t with
      | nil => exact inside (Option.some.inj rest).symm
      | cons d t => cases rest
    have next : step ⟨stack, .string isName proper p⟩ c = some ⟨stack, .string isName proper p'⟩ := by
      simp only [step, one]
      cases p' with
      | done => exact absurd rfl going
      | body | escape | code | half | halfEscape | halfCode => rfl
    rw [run_cons next]
    exact ih rest

/-- **A string is read** to its closing quotation mark. -/
theorem run_quoted {s : List Symbol} {t : Text} (h : SpelledAll s t) {proper : Bool}
    (chars : proper = true → ∀ x ∈ s, ∃ c, x = .char c) (stack : List Container) (isName : Bool) :
    run ⟨stack, .string isName proper .body⟩ (t ++ ['\x22'])
      = some ⟨stack, if isName then .colon else .after⟩ := by
  rw [run_append (run_string (StringPlace.run_symbols h chars) (by simp) stack isName)]
  rfl

end State

/-! ## Numbers -/

namespace NumberPlace

/-- `run p t` = the place behind the text `t`, if the number goes on with it. -/
def run (p : NumberPlace) (t : Text) : Option NumberPlace := t.foldlM step p

theorem run_append {p q : NumberPlace} {t : Text} (h : run p t = some q) (u : Text) :
    run p (t ++ u) = run q u := by
  rw [run] at h ⊢
  rw [List.foldlM_append, h]
  rfl

/-- A digit where digits may follow. -/
theorem step_digit (c : Char) (hc : c.isDigit = true) : step whole c = some whole ∧ step point c = some fraction
    ∧ step fraction c = some fraction ∧ step exponent c = some exponentDigits
    ∧ step exponentSign c = some exponentDigits ∧ step exponentDigits c = some exponentDigits := by
  have no_sign : ¬(c = '+' ∨ c = '-') := by
    rintro (rfl | rfl)
    · exact absurd hc (by decide)
    · exact absurd hc (by decide)
  have digit : step exponent c = some exponentDigits := by rw [step, if_neg no_sign, if_pos hc]
  exact ⟨if_pos hc, if_pos hc, if_pos hc, digit, if_pos hc, if_pos hc⟩

/-- Where each digit stays at a place, so do digits in a row. -/
theorem run_more {p : NumberPlace} (stay : ∀ c : Char, c.isDigit = true → step p c = some p) {d : Text}
    (digits : d.all Char.isDigit = true) : run p d = some p := by
  induction d with
  | nil => rfl
  | cons c d ih =>
    rw [List.all_cons, Bool.and_eq_true] at digits
    rw [run, List.foldlM_cons, stay c digits.1]
    exact ih digits.2

/-- Where the first digit leads to a place at which further ones stay, all of them do. -/
theorem run_digits {p q : NumberPlace} (enter : ∀ c : Char, c.isDigit = true → step p c = some q)
    (stay : ∀ c : Char, c.isDigit = true → step q c = some q) {d : Text} (h : IsDigits d) : run p d = some q := by
  obtain ⟨some_digit, digits⟩ := h
  obtain ⟨c, d, rfl⟩ := List.exists_cons_of_ne_nil some_digit
  rw [List.all_cons, Bool.and_eq_true] at digits
  rw [run, List.foldlM_cons, enter c digits.1]
  exact run_more stay digits.2

/-- The digits before the point, with or without a sign: the first of them decides whether more may follow. -/
theorem run_whole {d : Text} (h : IsWhole d) : ∃ c e q, d = c :: e ∧ c.isDigit = true ∧ start c = some q
    ∧ step sign c = some q ∧ run q e = some q ∧ (q = zero ∨ q = whole) := by
  rcases h with rfl | ⟨⟨some_digit, digits⟩, first⟩
  · exact ⟨'0', [], zero, rfl, rfl, rfl, rfl, rfl, .inl rfl⟩
  · obtain ⟨c, e, rfl⟩ := List.exists_cons_of_ne_nil some_digit
    rw [List.all_cons, Bool.and_eq_true] at digits
    have nonzero : c ≠ '0' := fun zero => first (congrArg some zero)
    have no_sign : c ≠ '-' := by
      rintro rfl
      exact absurd digits.1 (by decide)
    refine ⟨c, e, whole, rfl, digits.1, ?_, ?_, run_more (fun d hd => (step_digit d hd).1) digits.2,
      .inr rfl⟩
    · rw [start, if_neg no_sign, if_neg nonzero, if_pos digits.1]
    · rw [step, if_neg nonzero, if_pos digits.1]

/-- The point and the digits behind it. -/
theorem run_places {t : Text} (h : IsPlaces t) {p : NumberPlace} (hp : p = zero ∨ p = whole) :
    ∃ q, run p t = some q ∧ (q = zero ∨ q = whole ∨ q = fraction) := by
  rcases h with rfl | ⟨d, digits, rfl⟩
  · exact ⟨p, rfl, hp.elim .inl fun h => .inr (.inl h)⟩
  · have behind : run point d = some fraction :=
      run_digits (fun c hc => (step_digit c hc).2.1) (fun c hc => (step_digit c hc).2.2.1) digits
    refine ⟨fraction, ?_, .inr (.inr rfl)⟩
    rcases hp with rfl | rfl
    · exact behind
    · exact behind

/-- The exponent. -/
theorem run_exponent {t : Text} (h : IsExponent t) {p : NumberPlace} (hp : p = zero ∨ p = whole ∨ p = fraction) :
    ∃ q, run p t = some q ∧ q.complete = true := by
  rcases h with rfl | ⟨e, mark, d, letter, signs, digits, rfl⟩
  · refine ⟨p, rfl, ?_⟩
    rcases hp with rfl | rfl | rfl
    · rfl
    · rfl
    · rfl
  · have enter : step p e = some exponent := by
      rcases letter with rfl | rfl
      · rcases hp with rfl | rfl | rfl <;> rfl
      · rcases hp with rfl | rfl | rfl <;> rfl
    have stay (c : Char) (hc : c.isDigit = true) : step exponentDigits c = some exponentDigits :=
      (step_digit c hc).2.2.2.2.2
    have signed : run exponentSign d = some exponentDigits :=
      run_digits (fun c hc => (step_digit c hc).2.2.2.2.1) stay digits
    refine ⟨exponentDigits, ?_, rfl⟩
    rw [run, List.foldlM_cons, enter]
    show run exponent (mark ++ d) = _
    rcases signs with rfl | rfl | rfl
    · exact run_digits (fun c hc => (step_digit c hc).2.2.2.1) stay digits
    · exact signed
    · exact signed

/-- **A number** starts as one, and may end where it does. -/
theorem run_number {t : Text} (h : IsNumber t) : ∃ c u p q, t = c :: u ∧ (c = '-' ∨ c.isDigit = true)
    ∧ start c = some p ∧ run p u = some q ∧ q.complete = true := by
  obtain ⟨mark, whole, places, exponent, signs, hw, hp, he, rfl⟩ := h
  obtain ⟨c, e, p, rfl, digit, unsigned, signed, inside, place⟩ := run_whole hw
  obtain ⟨p', behind, place'⟩ := run_places hp place
  obtain ⟨q, last, complete⟩ := run_exponent he place'
  have rest : run p (e ++ (places ++ exponent)) = some q := by
    rw [run_append inside, run_append behind, last]
  rcases signs with rfl | rfl
  · exact ⟨c, _, p, q, rfl, .inr digit, unsigned, rest, complete⟩
  · refine ⟨'-', _, sign, q, rfl, .inl rfl, rfl, ?_, complete⟩
    show run sign (c :: (e ++ (places ++ exponent))) = some q
    rw [run, List.foldlM_cons, signed]
    exact rest

end NumberPlace

namespace State

/-- Within a number, the checker does what its place does. -/
theorem run_place {p q : NumberPlace} {t : Text} (h : p.run t = some q) (stack : List Container) :
    run ⟨stack, .number p⟩ t = some ⟨stack, .number q⟩ := by
  induction t generalizing p with
  | nil =>
    obtain rfl := Option.some.inj h
    rfl
  | cons c t ih =>
    obtain ⟨p', one, rest⟩ := Option.bind_eq_some_iff.mp h
    have next : step ⟨stack, .number p⟩ c = some ⟨stack, .number p'⟩ := by
      simp only [step, one]
    rw [run_cons next]
    exact ih rest

/-- The first character of a number. -/
theorem stepValue_number {c : Char} {p : NumberPlace} (h : NumberPlace.start c = some p) (stack : List Container) :
    stepValue stack c = some ⟨stack, .number p⟩ := by
  unfold stepValue
  split
  · cases h
  · cases h
  · cases h
  · cases h
  · cases h
  · cases h
  · rw [h]
    rfl

end State

end Translucent.Json
