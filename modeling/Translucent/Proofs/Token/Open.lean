import Translucent.Proofs.Token.Closed

/-!
  # Tokens before an opening bracket

  A bracket that opens a block ends what stands before it: no token before it looks at what the block holds.

  1. **Measures** — with an opening bracket in front, it does not matter to a name what follows (`nameLength_open`,
     `startsName_open`).
  2. **Reading** — `read_open`: what is read up to the bracket is read there whatever stands behind the bracket.
  3. **Openers** — `Reads.opener`: the same for what ends in the bracket, unless it may start an address.
  4. **Texts that open alike** — `Opened`: two texts that are equal, or equal up to and including an opening bracket.
-/

namespace Translucent

/-- Whether a character is a bracket that opens a block. -/
def Character.isOpening (c : Char) : Bool := ['(', '[', '\x7b'].contains c

/-- A property of all opening brackets. -/
theorem Character.opening_char {m : Char} (opening : Character.isOpening m = true) {p : Char → Prop}
    (h : p '(' ∧ p '[' ∧ p '\x7b') : p m := by
  simp only [isOpening, List.contains_iff_mem, List.mem_cons, List.not_mem_nil, or_false] at opening
  rcases opening with rfl | rfl | rfl
  · exact h.1
  · exact h.2.1
  · exact h.2.2

section Open

variable {c m : Char} {y w : Text} (opening : Character.isOpening m = true) (y' : Text)
include opening

/-! ## Measures -/

theorem startsNewline_open : startsNewline (m :: y) = false :=
  Character.opening_char (p := fun m => Character.isNewline m = false) opening (by decide)

/-- A name that ends before an opening bracket ends there. -/
theorem nameLength_open (within : nameLength 0 (w ++ m :: y) ≤ w.length) :
    nameLength 0 (w ++ m :: y') = nameLength 0 (w ++ m :: y) := by
  rcases Nat.lt_or_eq_of_le within with lt | eq
  · exact nameLength_inside lt (startsNewline_open opening) (startsNewline_open opening)
  · have hex : isHexDigit m = false :=
      Character.opening_char (p := fun m => isHexDigit m = false) opening (by decide)
    have space : Character.isSpace m = false :=
      Character.opening_char (p := fun m => Character.isSpace m = false) opening (by decide)
    have apart : Character.isNameChar m = false ∧ m ≠ '\\' :=
      Character.opening_char (p := fun m => Character.isNameChar m = false ∧ m ≠ '\\') opening (by decide)
    have none_here : nameLength 0 (m :: y') = 0 := by
      rw [nameLength_zero, if_neg (by rw [apart.1]; exact Bool.false_ne_true), if_neg fun h => apart.2 h.1]
    rw [nameLength_extend hex space hex space eq, none_here, eq, Nat.add_zero]

/-- A name starts before an opening bracket or not, whatever follows it. -/
theorem startsName_open (w y : Text) : startsName (w ++ m :: y') = startsName (w ++ m :: y) := by
  by_cases hyphen : w = ['-']
  · subst hyphen
    rfl
  by_cases empty : w = []
  · subst empty
    have apart : m ≠ '-' ∧ m ≠ '\\' :=
      Character.opening_char (p := fun m => m ≠ '-' ∧ m ≠ '\\') opening (by decide)
    rw [List.nil_append, List.nil_append, startsName_other apart.1 apart.2, startsName_other apart.1 apart.2]
  · exact startsName_long empty hyphen (startsNewline_open opening) (startsNewline_open opening)

/-! ## Reading -/

namespace Token

/-- A token before an opening bracket starts alike, whatever follows. -/
theorem start_open : start c (w ++ m :: y') = start c (w ++ m :: y) := by
  have boundary : Character.isNumberChar m = false :=
    Character.opening_char (p := fun m => Character.isNumberChar m = false) opening (by decide)
  have number : startsNumber (c :: (w ++ m :: y')) = startsNumber (c :: (w ++ m :: y)) := by
    rw [← List.cons_append, ← List.cons_append, startsNumber_boundary boundary, startsNumber_boundary boundary]
  have comment : (w ++ m :: y').head? = (w ++ m :: y).head? := by cases w <;> rfl
  have arrow : (w ++ m :: y').take 2 = ['-', '>'] ↔ (w ++ m :: y).take 2 = ['-', '>'] := by
    have hyphen : m ≠ '-' := Character.opening_char (p := fun m => m ≠ '-') opening (by decide)
    rcases w with _ | ⟨d, _ | ⟨e, w⟩⟩
    · simp [hyphen]
    · exact Iff.rfl
    · exact Iff.rfl
  have name := startsName_open opening y' (c :: w) y
  rw [List.cons_append, List.cons_append] at name
  unfold start
  simp only [number, name, comment, arrow]

theorem readHash_open (within : (readHash (w ++ m :: y)).2 ≤ w.length) :
    readHash (w ++ m :: y') = readHash (w ++ m :: y) := by
  have starts : startsHash (w ++ m :: y') = startsHash (w ++ m :: y) := by
    rw [startsHash, startsHash, startsName_open opening y' w y]
    cases w <;> rfl
  rw [readHash_eq] at within
  rw [readHash_eq, readHash_eq, starts]
  split
  · next found =>
    rw [if_pos found] at within
    rw [nameLength_open opening y' within, take_within within, take_within within]
  · rfl

theorem readAtSign_open (within : (readAtSign (w ++ m :: y)).2 ≤ w.length) :
    readAtSign (w ++ m :: y') = readAtSign (w ++ m :: y) := by
  unfold readAtSign at within ⊢
  rw [startsName_open opening y' w y]
  split
  · next found =>
    rw [if_pos found] at within
    rw [nameLength_open opening y' within, take_within within, take_within within]
  · rfl

theorem readNumber_open (starts : startsNumber (c :: (w ++ m :: y)) = true)
    (within : (readNumber c (w ++ m :: y)).2 ≤ w.length) :
    readNumber c (w ++ m :: y') = readNumber c (w ++ m :: y) := by
  have boundary : Character.isNumberChar m = false :=
    Character.opening_char (p := fun m => Character.isNumberChar m = false) opening (by decide)
  have positive : 0 < numberLength (c :: w) :=
    numberLength_pos (startsNumber_boundary (t := y) boundary (c :: w) ▸ starts)
  rw [readNumber_boundary boundary] at within
  rw [readNumber_boundary boundary, readNumber_boundary boundary]
  dsimp only at within ⊢
  have size : ((c :: w).drop (numberLength (c :: w))).length = w.length + 1 - numberLength (c :: w) := List.length_drop
  generalize (c :: w).drop (numberLength (c :: w)) = u at *
  have head : (u ++ m :: y').head? = (u ++ m :: y).head? := by cases u <;> rfl
  rw [head, startsName_open opening y' u y]
  split
  · rfl
  next percent =>
  split
  · next name =>
    -- the name of the unit ends before the bracket
    rw [if_neg percent, if_pos name] at within
    have inside : nameLength 0 (u ++ m :: y) ≤ u.length := by
      dsimp only at within
      omega
    rw [nameLength_open opening y' inside]
  · rfl

theorem readName_open (within : (readName c (w ++ m :: y)).2 ≤ w.length) :
    readName c (w ++ m :: y') = readName c (w ++ m :: y) := by
  have long := nameLength_le_readName c (w ++ m :: y)
  generalize length : nameLength 0 (c :: (w ++ m :: y)) = n at long
  have inside : n ≤ (c :: w).length := Nat.le_trans long (Nat.succ_le_succ within)
  have length' : nameLength 0 (c :: (w ++ m :: y')) = n := by
    rw [← length]
    exact nameLength_open opening y' (w := c :: w) (by rw [List.cons_append, length]; exact inside)
  have name (z : Text) : (c :: (w ++ z)).take n = (c :: w).take n := take_within inside z
  have behind (z : Text) : (c :: (w ++ z)).drop n = (c :: w).drop n ++ z := List.drop_append_of_le_length inside
  by_cases paren : ((c :: (w ++ m :: y)).drop n).head? = some '('
  · obtain ⟨inner, cut⟩ := List.head?_eq_some_iff.mp paren
    have whole := cut
    rw [behind] at cut
    cases before : (c :: w).drop n with
    | nil =>
      -- the name would take in all that stands before the bracket, and the token the bracket
      rw [readName_of_paren length (congrArg _ (name _)) whole] at within
      have size := congrArg List.length before
      rw [List.length_drop, List.length_cons, List.length_nil] at size
      split at within
      · dsimp only at within
        omega
      · dsimp only at within
        omega
    | cons d v =>
      rw [before] at cut
      obtain rfl : d = '(' := (List.cons.inj cut).1
      have behind (z : Text) : (c :: (w ++ z)).drop n = '(' :: (v ++ z) := by rw [behind, before]; rfl
      have size := congrArg List.length before
      rw [List.length_drop, List.length_cons, List.length_cons] at size
      have apart : Character.isSpace m = false ∧ Character.isQuote m = false :=
        Character.opening_char (p := fun m => Character.isSpace m = false ∧ Character.isQuote m = false) opening
          (by decide)
      rw [readName_of_paren length (congrArg _ (name _)) (behind _), quoteFollows_boundary apart.1 apart.2] at within ⊢
      rw [readName_of_paren length' (congrArg _ (name _)) (behind _), quoteFollows_boundary apart.1 apart.2]
      split
      · next address =>
        rw [if_pos address] at within
        dsimp only at within
        have extent : (addressExtent .lead 0 (v ++ m :: y)).length ≤ v.length := by omega
        rw [addressExtent_inside extent]
      · rfl
  · have paren' : ((c :: (w ++ m :: y')).drop n).head? ≠ some '(' := by
      have head : ((c :: (w ++ m :: y')).drop n).head? = ((c :: (w ++ m :: y)).drop n).head? := by
        rw [behind, behind]
        cases (c :: w).drop n <;> rfl
      rw [head]
      exact paren
    rw [readName_of_ident length paren, readName_of_ident length' paren', name, name]

theorem readSymbol_open : readSymbol c (w ++ m :: y') = readSymbol c (w ++ m :: y) := by
  have apart : m ≠ '!' ∧ m ≠ '-' :=
    Character.opening_char (p := fun m => m ≠ '!' ∧ m ≠ '-') opening (by decide)
  have head : (w ++ m :: y').head? = (w ++ m :: y).head? := by cases w <;> rfl
  have take : (w ++ m :: y').take 3 = ['!', '-', '-'] ↔ (w ++ m :: y).take 3 = ['!', '-', '-'] := by
    rcases w with _ | ⟨d, _ | ⟨e, _ | ⟨f, w⟩⟩⟩
    · simp [apart.1]
    · simp [apart.2]
    · exact Iff.rfl
    · exact Iff.rfl
  simp only [readSymbol_eq, head, take]

/-- **What is read before an opening bracket** is read there whatever stands behind the bracket. -/
theorem read_open (within : (read c (w ++ m :: y)).2 ≤ w.length) : read c (w ++ m :: y') = read c (w ++ m :: y) := by
  have fits := start_fits c (w ++ m :: y)
  have space : Character.isSpace m = false :=
    Character.opening_char (p := fun m => Character.isSpace m = false) opening (by decide)
  rw [read_eq] at within
  rw [read_eq, read_eq, start_open opening y' (y := y)]
  cases found : Token.start c (w ++ m :: y) with
  | mark r => rfl
  | arrow => rfl
  | space =>
    simp only [readAs]
    rw [takeWhile_boundary space, takeWhile_boundary space]
  | quote =>
    rw [found] at within
    simp only [readAs] at within ⊢
    rw [stringExtent_inside (startsNewline_open (y := y) opening) within (startsNewline_open opening)]
  | comment =>
    rw [found] at within
    simp only [readAs] at within ⊢
    have slash : m ≠ '/' := Character.opening_char (p := fun m => m ≠ '/') opening (by decide)
    cases w with
    | nil => simp at within
    | cons d w =>
      simp only [List.cons_append, List.drop_succ_cons, List.drop_zero, List.length_cons] at within ⊢
      rw [commentExtent_inside (t := y) slash (by omega) (by simp [slash])]
  | hash => rw [found] at within; exact readHash_open opening y' within
  | atSign => rw [found] at within; exact readAtSign_open opening y' within
  | number => rw [found] at within fits; exact readNumber_open opening y' fits within
  | name => rw [found] at within; exact readName_open opening y' within
  | other => exact readSymbol_open opening y'

end Token

/-- A lexeme that ends before an opening bracket is read there whatever stands behind the bracket. -/
theorem Lexeme.Reads.open {l : Lexeme} {x : Text} (h : l.Reads (x ++ m :: y)) : l.Reads (x ++ m :: y') := by
  obtain ⟨k, c, t, rfl, read⟩ := h.read (by simp)
  apply reads_of_read
  rw [← List.append_assoc] at read ⊢
  rw [← read]
  refine Token.read_open opening y' ?_
  rw [read, List.length_append]
  exact Nat.le_add_right _ _

end Open

/-! ## Openers -/

/-- Whether what opens a block may be read otherwise, depending on what follows: before an address it is none. -/
def Opener.mayBeAddress : Opener → Bool
  | .call name => Token.isUrlName name
  | .bracket _ => false

/-- What opens a block ends in an opening bracket. -/
theorem Lexeme.Reads.exists_opening {o : Opener} {t z : Text} (h : Lexeme.Reads ⟨.opening o, t⟩ z) :
    ∃ w m, t = w ++ [m] ∧ Character.isOpening m = true := by
  cases o with
  | call name =>
    have last := text_of_call (h.2 ▸ List.mem_cons_self) (rfl : (Lexeme.mk _ _).token = .opening (.call name))
    obtain ⟨w, eq⟩ := List.getLast?_eq_some_iff.mp last
    exact ⟨w, '(', eq, rfl⟩
  | bracket b =>
    obtain ⟨c, rfl, mark⟩ := h.mark rfl
    refine ⟨[], c, rfl, ?_⟩
    unfold Token.mark? at mark
    split at mark <;> first | rfl | cases mark

/-- A call is as long as its name and a parenthesis. -/
theorem Token.nameLength_of_call {c : Char} {s name : Text} {n : Nat}
    (h : readName c s = (.opening (.call name), n)) : nameLength 0 (c :: s) = n := by
  unfold readName at h
  dsimp only at h
  split at h
  · split at h
    · cases h
    · exact (Prod.mk.inj h).2
  · cases h

/-- **What opens a block** is read before all texts, unless it may be the start of an address. -/
theorem Lexeme.Reads.opener {o : Opener} {t z : Text} (h : Lexeme.Reads ⟨.opening o, t⟩ z)
    (address : o.mayBeAddress = false) (z' : Text) : Lexeme.Reads ⟨.opening o, t⟩ z' := by
  cases o with
  | bracket b =>
    obtain ⟨c, rfl, mark⟩ := h.mark rfl
    exact ⟨List.cons_ne_nil _ _, lexemes_mark mark z'⟩
  | call name =>
    obtain ⟨c, t, rfl⟩ := List.exists_cons_of_ne_nil h.1
    have starts := Token.start_of_read h.token rfl
    obtain ⟨-, spelled⟩ := Token.name_of_call h.token
    have last := text_of_call (h.2 ▸ List.mem_cons_self) (rfl : (Lexeme.mk _ _).token = .opening (.call name))
    have read := h.length
    rw [Token.read_eq, starts] at read
    have length := Token.nameLength_of_call read
    have some_left : t ≠ [] := by
      rintro rfl
      exact Nat.ne_of_gt (Token.nameLength_pos (Token.fits_of_start starts)) length
    obtain ⟨w, rfl⟩ : ∃ w, t = w ++ ['('] := by
      obtain ⟨d, t, rfl⟩ := List.exists_cons_of_ne_nil some_left
      exact List.getLast?_eq_some_iff.mp last
    rw [List.append_assoc] at starts spelled length
    rw [List.length_append] at length
    -- the name is all that stands before the parenthesis, here and before the other text
    have inside : nameLength 0 ((c :: w) ++ '(' :: z) = (c :: w).length := length
    have length' : nameLength 0 ((c :: w) ++ '(' :: z') = (c :: w).length := by
      rw [nameLength_open rfl z' (Nat.le_of_eq inside), inside]
    have starts' : Token.start c (w ++ '(' :: z') = .name := (Token.start_open rfl z').trans starts
    have spelled' : unescape 0 (((c :: w) ++ '(' :: z').take (c :: w).length) = name := by
      rw [List.take_left, ← spelled, length]
      exact congrArg (unescape 0) (@List.take_left _ _ ('(' :: z)).symm
    have call := Token.readName_of_paren length' spelled' (List.drop_left ..)
    have no_address : Token.isUrlName name = false := address
    rw [no_address, Bool.false_and, if_neg Bool.false_ne_true] at call
    apply reads_of_read
    rw [List.append_assoc, Token.read_eq, List.singleton_append, starts', List.length_append]
    exact call

/-! ## Texts that open alike -/

/-- Whether two texts are equal, or equal up to and including a bracket that opens a block. -/
def Opened (s s' : Text) : Prop :=
  s' = s ∨ ∃ x m y y', Character.isOpening m = true ∧ s = x ++ m :: y ∧ s' = x ++ m :: y'

namespace Opened

variable {s s' : Text}

/-- More of the same text in front. -/
theorem behind (h : Opened s s') (a : Text) : Opened (a ++ s) (a ++ s') := by
  rcases h with rfl | ⟨x, m, y, y', opening, rfl, rfl⟩
  · exact .inl rfl
  · exact .inr ⟨a ++ x, m, y, y', opening, (List.append_assoc ..).symm, (List.append_assoc ..).symm⟩

theorem eq_nil (h : Opened [] s') : s' = [] := by
  rcases h with rfl | ⟨x, m, y, y', -, eq, -⟩
  · rfl
  · simp at eq

end Opened

/-- A lexeme before a text is read before a text that opens alike, too. -/
theorem Lexeme.Reads.opened {l : Lexeme} {s s' : Text} (h : l.Reads s) (opened : Opened s s') : l.Reads s' := by
  rcases opened with rfl | ⟨x, m, y, y', opening, rfl, rfl⟩
  · exact h
  · exact h.open opening y'

end Translucent
