import Translucent.Proofs.Token.Swap

/-!
  # Words that are written out

  What is read from a name of letters, from digits or from a comment, with other text behind it.

  1. **Delimiters** — `Delimited` texts start with white space, a comment, a comma or a closing parenthesis, or are
     empty.
  2. **Names** — a letter starts a name and nothing else (`start_name`), which is measured up to a character that
     belongs to no name and means itself (`nameLength_name`).
  3. **Numbers** — digits, with or without a fraction, and a fraction alone are one number (`IsDecimal.length`).
  4. **Lexemes** — `reads_call`, `reads_hash`, `IsDecimal.reads`, `reads_spaces`, `reads_comment`.
-/

namespace Translucent

/-! ## Delimiters -/

/-- Whether a character may stand behind a word: white space, the start of a comment, a comma, or a closing
    parenthesis. -/
def Character.isDelimiter (c : Char) : Bool := isSpace c || c == '/' || c == ',' || c == ')'

/-- Whether a text starts with a character that may stand behind a word, or is empty. -/
def Delimited (z : Text) : Prop := ∀ c ∈ z.head?, Character.isDelimiter c = true

theorem delimited_nil : Delimited [] := fun _ h => absurd h (by simp)

theorem delimited_cons {m : Char} (h : Character.isDelimiter m = true) (z : Text) : Delimited (m :: z) :=
  fun _ hc => Option.some.inj hc ▸ h

/-- A property of all delimiters. -/
theorem Character.delimiter_char {m : Char} (h : Character.isDelimiter m = true) {p : Char → Prop}
    (each : p ' ' ∧ p '\t' ∧ p '\n' ∧ p '\r' ∧ p '\x0c' ∧ p '/' ∧ p ',' ∧ p ')') : p m := by
  obtain ⟨space, tab, feed, return_, form, slash, comma, paren⟩ := each
  simp only [Character.isDelimiter, Character.isSpace, Character.isNewline, Bool.or_eq_true, beq_iff_eq] at h
  rcases h with ((((rfl | rfl) | (rfl | rfl) | rfl) | rfl) | rfl) | rfl
  · exact space
  · exact tab
  · exact feed
  · exact return_
  · exact form
  · exact slash
  · exact comma
  · exact paren

/-- A character with a property that no delimiter has is no white space. -/
theorem Character.not_space {c : Char} {p : Char → Prop} (h : p c)
    (none_has : ¬p ' ' ∧ ¬p '\t' ∧ ¬p '\n' ∧ ¬p '\r' ∧ ¬p '\x0c' ∧ ¬p '/' ∧ ¬p ',' ∧ ¬p ')') :
    Character.isSpace c = false := by
  apply Bool.eq_false_iff.mpr
  intro space
  have delimiter : Character.isDelimiter c = true := by simp [Character.isDelimiter, space]
  exact Character.delimiter_char (p := fun m => ¬p m) delimiter none_has h

/-! ## Names -/

section Names

variable {c m : Char} {t : Text}

/-- A letter or a hyphen that starts a name, and neither a number nor an arrow. -/
theorem start_name {s : Text} (hc : c.isAlpha = true ∨ c = '-') (name : startsName (c :: s) = true)
    (number : startsNumber (c :: s) = false) (arrow : ¬(c = '-' ∧ s.take 2 = ['-', '>'])) :
    Token.start c s = .name := by
  have ne {d : Char} (alpha : d.isAlpha = false) (hyphen : d ≠ '-') : c ≠ d := by
    rintro rfl
    exact hc.elim (fun h => Bool.false_ne_true (alpha.symm.trans h)) hyphen
  have fits := Token.start_fits c s
  cases h : Token.start c s with
  | name => rfl
  | mark r =>
    rw [h] at fits
    replace fits : Token.mark? c = some r := fits
    unfold Token.mark? at fits
    split at fits <;> first | exact absurd hc (by decide) | cases fits
  | space =>
    rw [h] at fits
    have no_space := Character.not_space (p := fun c => c.isAlpha = true ∨ c = '-') hc (by decide)
    exact absurd fits (Bool.eq_false_iff.mp no_space)
  | quote =>
    rw [h] at fits
    simp only [Token.Start.Fits, Character.isQuote, Bool.or_eq_true, beq_iff_eq] at fits
    rcases fits with rfl | rfl <;> exact absurd hc (by decide)
  | hash => rw [h] at fits; exact absurd fits (ne (by decide) (by decide))
  | atSign => rw [h] at fits; exact absurd fits (ne (by decide) (by decide))
  | comment => rw [h] at fits; exact absurd fits.1 (ne (by decide) (by decide))
  | number => rw [h] at fits; exact absurd (number.symm.trans fits) Bool.false_ne_true
  | arrow => rw [h] at fits; exact absurd fits arrow
  | other => rw [h] at fits; exact absurd (fits.2.symm.trans name) Bool.false_ne_true

/-- A letter starts a name. -/
theorem startsName_letter (hc : c.isAlpha = true) (s : Text) : startsName (c :: s) = true := by
  unfold startsName
  split
  · next h => cases h
  · next h => injection h with h; subst h; exact absurd hc (by decide)
  · next h => injection h with h; subst h; exact absurd hc (by decide)
  · next h =>
    injection h with h
    subst h
    simp [Character.isNameStart, hc]

/-- A letter starts no number. -/
theorem startsNumber_letter (hc : c.isAlpha = true) (s : Text) : startsNumber (c :: s) = false := by
  have ne {d : Char} (hd : d.isAlpha = false) : c ≠ d := by
    rintro rfl
    exact Bool.false_ne_true (hd.symm.trans hc)
  have digit : c.isDigit ≠ true := by
    intro digit
    unfold Char.isAlpha Char.isUpper Char.isLower at hc
    unfold Char.isDigit at digit
    simp only [Bool.or_eq_true, Bool.and_eq_true, decide_eq_true_eq, UInt32.le_iff_toNat_le,
      ge_iff_le, Char.reduceVal, UInt32.reduceToNat] at hc digit
    omega
  have sign : signLength (c :: s) = 0 := if_neg fun h => h.elim (ne (by decide)) (ne (by decide))
  have digits : digitsLength (c :: s) = 0 := by
    rw [digitsLength, List.takeWhile_cons_of_neg digit, List.length_nil]
  have mantissa : mantissaLength (c :: s) = 0 := by
    simp only [mantissaLength, sign, List.drop_zero, digits, Nat.add_zero]
    rw [fractionLength_of_ne (ne (by decide))]
  rw [startsNumber, sign, mantissa]
  rfl

/-- A name is measured up to a character that belongs to no name, and means itself. -/
theorem nameLength_name (hm : Character.isNameChar m = false) (hm' : m ≠ '\\') {n : Text}
    (hn : ∀ c ∈ n, Character.isNameChar c = true ∧ c ≠ '\\' ∧ c ≠ '\x00') :
    nameLength 0 (n ++ m :: t) = n.length ∧ unescape 0 n = n := by
  have whole : (n ++ []).takeWhile Character.isNameChar = n ++ [].takeWhile Character.isNameChar :=
    List.takeWhile_append_of_pos fun c hc => (hn c hc).1
  rw [List.append_nil, List.takeWhile_nil, List.append_nil] at whole
  refine ⟨?_, unescape_plain fun c hc => (hn c hc).2⟩
  rw [nameLength_boundary hm hm' fun h => (hn _ h).2.1 rfl, whole]

/-- A letter belongs to a name, and means itself there. -/
theorem nameChar_of_isAlpha (hc : c.isAlpha = true) : Character.isNameChar c = true ∧ c ≠ '\\' ∧ c ≠ '\x00' := by
  refine ⟨by simp [Character.isNameChar, Character.isNameStart, hc], ?_, ?_⟩
  · rintro rfl
    exact absurd hc (by decide)
  · rintro rfl
    exact absurd hc (by decide)

end Names

/-! ## Numbers -/

/-- Digits with nothing or a fraction behind them, or a fraction alone. -/
def IsDecimal (u : Text) : Prop :=
  ∃ d f : Text, u = d ++ f ∧ d.all Char.isDigit = true
    ∧ ((d ≠ [] ∧ f = []) ∨ ∃ e : Text, f = '.' :: e ∧ e ≠ [] ∧ e.all Char.isDigit = true)

theorem digitsLength_append {d f : Text} (hd : d.all Char.isDigit = true)
    (hf : digitsLength f = 0) : digitsLength (d ++ f) = d.length := by
  rw [digitsLength, List.takeWhile_append_of_pos (List.all_eq_true.mp hd), List.length_append]
  exact congrArg (d.length + ·) hf

/-- A digit is no other character. -/
theorem ne_of_isDigit {c d : Char} (hc : c.isDigit = true) (hd : d.isDigit = false) : c ≠ d := by
  rintro rfl
  exact Bool.false_ne_true (hd.symm.trans hc)

/-- A decimal starts with a digit or a point. -/
theorem IsDecimal.first {u : Text} (h : IsDecimal u) : ∃ c t, u = c :: t ∧ (c.isDigit = true ∨ c = '.') := by
  obtain ⟨d, f, rfl, digits, parts⟩ := h
  cases d with
  | cons c d => exact ⟨c, d ++ f, rfl, .inl (List.all_eq_true.mp digits c List.mem_cons_self)⟩
  | nil =>
    rcases parts with ⟨nonempty, -⟩ | ⟨e, rfl, -, -⟩
    · exact absurd rfl nonempty
    · exact ⟨'.', e, rfl, .inr rfl⟩

/-- What starts a decimal is no character but a digit and a point. -/
theorem ne_of_first {c d : Char} (hc : c.isDigit = true ∨ c = '.') (hd : d.isDigit = false) (point : '.' ≠ d) :
    c ≠ d := by
  rcases hc with digit | rfl
  · exact ne_of_isDigit digit hd
  · exact point

/-- All of a decimal is its number, and more than a sign. -/
theorem IsDecimal.length {u : Text} (h : IsDecimal u) :
    numberLength u = u.length ∧ startsNumber u = true := by
  obtain ⟨c, t, first, start⟩ := h.first
  have sign : signLength u = 0 := by
    rw [first]
    exact if_neg fun h => h.elim (ne_of_first start (by decide) (by decide)) (ne_of_first start (by decide) (by decide))
  have some_text : 0 < u.length := by
    rw [first]
    exact Nat.succ_pos _
  obtain ⟨d, f, rfl, digits, parts⟩ := h
  have rest : digitsLength f = 0 ∧ fractionLength f = f.length := by
    rcases parts with ⟨-, rfl⟩ | ⟨e, rfl, places, digits⟩
    · exact ⟨rfl, rfl⟩
    · have all := digitsLength_append (f := []) digits rfl
      rw [List.append_nil] at all
      refine ⟨rfl, ?_⟩
      rw [fractionLength, all, if_neg (mt List.length_eq_zero_iff.mp places), List.length_cons]
      omega
  have mantissa : mantissaLength (d ++ f) = (d ++ f).length := by
    simp only [mantissaLength, sign, List.drop_zero, digitsLength_append digits rest.1, Nat.zero_add,
      List.drop_left, rest.2, List.length_append]
  constructor
  · rw [numberLength, mantissa, List.drop_length]
    rfl
  · rw [startsNumber, mantissa, sign]
    exact decide_eq_true some_text

/-- A digit or a point is no white space. -/
theorem not_space_of_first {c : Char} (hc : c.isDigit = true ∨ c = '.') : ¬Character.isSpace c = true :=
  Bool.eq_false_iff.mp (Character.not_space (p := fun c => c.isDigit = true ∨ c = '.') hc (by decide))

/-- A digit or a point starts a number, if there is one. -/
theorem start_number {c : Char} {s : Text} (hc : c.isDigit = true ∨ c = '.') (number : startsNumber (c :: s) = true) :
    Token.start c s = .number := by
  have ne {d : Char} (hd : d.isDigit = false) (point : '.' ≠ d) : c ≠ d := ne_of_first hc hd point
  have mark : Token.mark? c = none := by
    unfold Token.mark?
    split <;> first | exact absurd hc (by decide) | rfl
  have quote : ¬Character.isQuote c = true := by
    simp only [Character.isQuote, Bool.or_eq_true, beq_iff_eq]
    rintro (h | h) <;> exact ne (by decide) (by decide) h
  rw [Token.start, mark]
  dsimp only
  rw [if_neg (not_space_of_first hc), if_neg quote, if_neg (ne (by decide) (by decide)),
    if_neg (ne (by decide) (by decide)), if_neg fun h => ne (by decide) (by decide) h.1, if_pos number]

/-! ## Lexemes -/

/-- A name of letters with a parenthesis behind it opens a call, whatever follows. -/
theorem reads_call {f : Text} (letters : f.all Char.isAlpha = true) (some_letter : f ≠ [])
    (url : Token.isUrlName f = false) (z : Text) : Lexeme.Reads ⟨.opening (.call f), f ++ ['(']⟩ z := by
  obtain ⟨c, s, rfl⟩ := List.exists_cons_of_ne_nil some_letter
  rw [List.all_eq_true] at letters
  have first := letters c List.mem_cons_self
  have start : Token.start c (s ++ '(' :: z) = .name := by
    refine start_name (.inl first) (startsName_letter first _) (startsNumber_letter first _) ?_
    rintro ⟨rfl, -⟩
    exact absurd first (by decide)
  obtain ⟨length, meaning⟩ := nameLength_name (m := '(') (t := z) (by decide) (by decide)
    fun d hd => nameChar_of_isAlpha (letters d hd)
  have name : ((c :: s) ++ '(' :: z).take (c :: s).length = c :: s := List.take_left
  have behind : ((c :: s) ++ '(' :: z).drop (c :: s).length = '(' :: z := List.drop_left
  apply reads_of_read (c := c) (t := s ++ ['('])
  rw [List.append_assoc, Token.read_eq, show ['('] ++ z = '(' :: z from rfl, start]
  show Token.readName c (s ++ '(' :: z) = _
  rw [Token.readName_of_paren (s := s ++ '(' :: z) length ((congrArg _ name).trans meaning) behind, url,
    List.length_append]
  rfl

/-- A hexadecimal digit is a digit or a letter. -/
theorem digit_or_letter {c : Char} (h : isHexDigit c = true) : c.isDigit = true ∨ c.isAlpha = true := by
  unfold isHexDigit hexDigit? at h
  by_cases digit : '0' ≤ c ∧ c ≤ '9'
  · left
    rw [Char.isDigit, Bool.and_eq_true, decide_eq_true_eq, decide_eq_true_eq]
    exact digit
  by_cases small : 'a' ≤ c ∧ c ≤ 'f'
  · right
    have last : c ≤ 'z' := Char.le_trans small.2 (by decide)
    unfold Char.isAlpha Char.isLower
    simp only [Bool.or_eq_true, Bool.and_eq_true, decide_eq_true_eq]
    exact .inr ⟨small.1, last⟩
  by_cases large : 'A' ≤ c ∧ c ≤ 'F'
  · right
    have last : c ≤ 'Z' := Char.le_trans large.2 (by decide)
    unfold Char.isAlpha Char.isUpper
    simp only [Bool.or_eq_true, decide_eq_true_eq]
    exact .inl ⟨large.1, last⟩
  · rw [if_neg digit, if_neg small, if_neg large] at h
    cases h

/-- Hexadecimal digits behind a `#` are a hash, up to a character that belongs to no name. -/
theorem reads_hash {h : Text} (digits : h.all isHexDigit = true) (some_digit : h ≠ []) {m : Char}
    (hm : Character.isNameChar m = false) (hm' : m ≠ '\\') (z : Text) :
    Lexeme.Reads ⟨.hash h, '#' :: h⟩ (m :: z) := by
  rw [List.all_eq_true] at digits
  have chars : ∀ c ∈ h, Character.isNameChar c = true ∧ c ≠ '\\' ∧ c ≠ '\x00' := by
    intro c hc
    rcases digit_or_letter (digits c hc) with digit | letter
    · refine ⟨by simp [Character.isNameChar, digit], ?_, ?_⟩ <;> rintro rfl <;> exact absurd digit (by decide)
    · exact nameChar_of_isAlpha letter
  have starts : Token.startsHash (h ++ m :: z) = true := by
    obtain ⟨c, s, rfl⟩ := List.exists_cons_of_ne_nil some_digit
    rcases digit_or_letter (digits c List.mem_cons_self) with digit | letter
    · simp [Token.startsHash, digit]
    · rw [Token.startsHash, List.cons_append, startsName_letter letter]
      rfl
  obtain ⟨length, meaning⟩ := nameLength_name (t := z) hm hm' chars
  apply reads_of_read
  rw [Token.read_eq, show Token.start '#' (h ++ m :: z) = .hash from rfl]
  show Token.readHash (h ++ m :: z) = _
  rw [Token.readHash_eq, if_pos starts, length, List.take_left, meaning]

/-- A decimal is a number, up to what may stand behind a word. -/
theorem IsDecimal.reads {u : Text} (h : IsDecimal u) {z : Text} (hz : Delimited z) :
    Lexeme.Reads ⟨.number, u⟩ z := by
  obtain ⟨length, starts⟩ := h.length
  obtain ⟨c, t, rfl, first⟩ := h.first
  apply reads_of_read
  cases z with
  | nil =>
    rw [List.append_nil, Token.read_eq, start_number first starts]
    show Token.readNumber c t = _
    unfold Token.readNumber
    dsimp only
    rw [length, List.drop_length]
    rfl
  | cons m z =>
    have delimiter := hz m rfl
    have boundary : Character.isNumberChar m = false :=
      Character.delimiter_char (p := fun m => Character.isNumberChar m = false) delimiter (by decide)
    have apart : m ≠ '-' ∧ m ≠ '\\' ∧ m ≠ '%' ∧ Character.isNameStart m = false :=
      Character.delimiter_char (p := fun m => m ≠ '-' ∧ m ≠ '\\' ∧ m ≠ '%' ∧ Character.isNameStart m = false)
        delimiter (by decide)
    have name : startsName (m :: z) = false := (startsName_other apart.1 apart.2.1 z).trans apart.2.2.2
    have percent : (m :: z).head? ≠ some '%' := fun h => apart.2.2.1 (Option.some.inj h)
    have starts' : startsNumber (c :: (t ++ m :: z)) = true := (startsNumber_boundary boundary (c :: t)).trans starts
    rw [Token.read_eq, start_number first starts']
    show Token.readNumber c (t ++ m :: z) = _
    rw [readNumber_boundary boundary, length]
    dsimp only
    rw [List.drop_length, List.nil_append, if_neg percent, name]
    rfl

theorem reads_mark {c : Char} {r : Token} (h : Token.mark? c = some r) (z : Text) :
    Lexeme.Reads ⟨r, [c]⟩ z := ⟨by simp, lexemes_mark h z⟩

/-- All the white space before another character is one token. -/
theorem reads_spaces {c : Char} (hc : Character.isSpace c = true) {w z : Text} (hw : w.all Character.isSpace = true)
    (hz : ∀ m ∈ z.head?, Character.isSpace m = false) : Lexeme.Reads ⟨.space, c :: w⟩ z := by
  have stop : z.takeWhile Character.isSpace = [] := by
    cases z with
    | nil => rfl
    | cons m z => exact List.takeWhile_cons_of_neg (by rw [hz m rfl]; exact Bool.false_ne_true)
  have mark : Token.mark? c = none := by
    unfold Token.mark?
    split <;> first | exact absurd hc (by decide) | rfl
  have start : Token.start c (w ++ z) = .space := by
    rw [Token.start, mark]
    exact if_pos hc
  apply reads_of_read
  rw [Token.read_eq, start]
  show (Token.space, ((w ++ z).takeWhile Character.isSpace).length) = _
  rw [List.takeWhile_append_of_pos (List.all_eq_true.mp hw), stop, List.append_nil]

/-- A comment ends with the first end mark behind its start. -/
theorem commentExtent_closed {body : Text} (hb : ¬['*', '/'] <:+: body) (z : Text) :
    commentExtent (body ++ '*' :: '/' :: z) = ⟨body.length + 2, true⟩ := by
  induction body with
  | nil => rfl
  | cons c body ih =>
    have more : ¬(c = '*' ∧ (body ++ '*' :: '/' :: z).head? = some '/') := by
      rintro ⟨rfl, next⟩
      cases body with
      | nil => simp at next
      | cons d body =>
        obtain rfl := Option.some.inj next
        exact hb ⟨[], body, rfl⟩
    rw [List.cons_append, commentExtent, if_neg more, ih fun inner => hb (inner.trans (List.suffix_cons c body).isInfix)]
    rfl

/-- A closed comment is one token, whatever follows. -/
theorem reads_comment {body : Text} (hb : ¬['*', '/'] <:+: body) (z : Text) :
    Lexeme.Reads ⟨.comment true, '/' :: '*' :: (body ++ ['*', '/'])⟩ z := by
  have extent := commentExtent_closed hb z
  have text : body ++ ['*', '/'] ++ z = body ++ '*' :: '/' :: z := List.append_assoc ..
  apply reads_of_read
  rw [List.cons_append, text, Token.read_eq, show Token.start '/' ('*' :: (body ++ '*' :: '/' :: z)) = .comment from rfl]
  show (Token.comment (commentExtent (body ++ '*' :: '/' :: z)).closed,
    (commentExtent (body ++ '*' :: '/' :: z)).length + 1) = _
  rw [extent, List.length_cons, List.length_append]
  rfl

end Translucent
