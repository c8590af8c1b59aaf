import Translucent.Proofs.Token.Swap
import Translucent.Value.Spelling

/-!
  # Tokens that take in a new name

  Before `#` most tokens end.  Where `rgba(` takes the place of digits, those that end in a name go on with
  it: names become calls, and the others leave the parenthesis behind.

  1. **Names** — how far a name goes (`nameLength_stuck`), and what it means then.
  2. **Each kind of token** — `readName_stuck`, `readHash_stuck`, `readAtSign_stuck`, `readNumber_stuck`.
  3. **What sticks** — `Reads.stuck` before digits, and `Reads.stuckFar` before a hyphen and digits.
-/

namespace Translucent

/-! ## Names -/

/-- Whether a token ends in a name that is not its own. -/
def Token.endsInName : Token → Bool
  | .hash _ | .atKeyword _ | .dimension => true
  | _ => false

section Stuck

variable {c : Char} {k : Token} {t u y : Text} (y' : Text)

/-- A name that ends before `#` goes on with the new name. -/
theorem nameLength_stuck (h : nameLength 0 (u ++ '#' :: y) = u.length) :
    nameLength 0 (u ++ (CallName.rgba ++ '(' :: y')) = u.length + 4 :=
  nameLength_extend (by decide) (by decide) (by decide) (by decide) h

/-- What a name means ends with the last letter of the new name. -/
theorem getLast?_unescape {k : Nat} (hk : k ≤ u.length + 3) :
    (unescape k (u ++ CallName.rgba)).getLast? = some 'a' := by
  have more (d : Char) {s : Text} (h : s.getLast? = some 'a') : (d :: s).getLast? = some 'a' := by
    rw [List.getLast?_cons, h]
    rfl
  induction u generalizing k with
  | nil =>
    rw [List.length_nil, Nat.zero_add] at hk
    obtain rfl | rfl | rfl | rfl : k = 0 ∨ k = 1 ∨ k = 2 ∨ k = 3 := by omega
    all_goals rfl
  | cons d u ih =>
    rw [List.cons_append]
    cases k with
    | succ k =>
      rw [unescape]
      exact ih (by rw [List.length_cons] at hk; omega)
    | zero =>
      rw [unescape]
      split
      · -- an escape takes one of the letters at most
        refine more _ (ih ?_)
        rw [CallName.rgba, escapeLength_boundary (by decide) (by decide)]
        split
        · omega
        · exact Nat.le_add_right_of_le (escapeLength_le u)
      · split
        · exact more _ (ih (Nat.zero_le _))
        · exact more _ (ih (Nat.zero_le _))

/-! ## Each kind of token -/

/-- A name that ends before `#` starts a call with the new name. -/
theorem readName_stuck (h : nameLength 0 (c :: (t ++ '#' :: y)) = t.length + 1) :
    ∃ n, Token.readName c (t ++ (CallName.rgba ++ '(' :: y')) = (.opening (.call n), t.length + 5) := by
  have length : nameLength 0 (c :: (t ++ (CallName.rgba ++ '(' :: y'))) = t.length + 5 :=
    nameLength_stuck (u := c :: t) y' h
  have cut : c :: (t ++ (CallName.rgba ++ '(' :: y')) = (c :: (t ++ CallName.rgba)) ++ '(' :: y' := by
    simp
  have size : t.length + 5 = (c :: (t ++ CallName.rgba)).length := by
    rw [List.length_cons, List.length_append]; rfl
  have behind : (c :: (t ++ (CallName.rgba ++ '(' :: y'))).drop (t.length + 5) = '(' :: y' := by
    rw [cut, size, List.drop_left]
  have spelled : (c :: (t ++ (CallName.rgba ++ '(' :: y'))).take (t.length + 5) = c :: (t ++ CallName.rgba) := by
    rw [cut, size, List.take_left]
  have last : (unescape 0 (c :: (t ++ CallName.rgba))).getLast? = some 'a' :=
    getLast?_unescape (u := c :: t) (Nat.zero_le _)
  have notUrl : Token.isUrlName (unescape 0 (c :: (t ++ CallName.rgba))) = false := by
    apply Bool.eq_false_iff.mpr
    intro url
    have eq := congrArg List.getLast? (eq_of_beq url)
    rw [Text.lower, List.getLast?_map, last] at eq
    exact absurd eq (by decide)
  rw [Token.readName_of_paren length rfl behind, spelled, notUrl]
  exact ⟨_, rfl⟩

/-- The measure of the name that is read before `#`, or before `-#` where there is none. -/
theorem nameLength_before {w : Text} (hw : w = [] ∨ w = ['-']) (y : Text) :
    nameLength 0 (w ++ '#' :: y) = w.length := by
  rcases hw with rfl | rfl <;> rfl

/-- Where a name starts before `#`, or none could, one starts before the new name. -/
theorem startsName_stuck (h : u = [] ∨ u = ['-'] ∨ startsName (u ++ '#' :: y) = true) :
    startsName (u ++ (CallName.rgba ++ '(' :: y')) = true := by
  by_cases short : u = [] ∨ u = ['-']
  · rcases short with rfl | rfl <;> rfl
  · rw [not_or] at short
    rcases h with h | h | h
    · exact absurd h short.1
    · exact absurd h short.2
    · rw [← h]
      exact startsName_swap_of_apart (.inl rfl) _ fun _ => short

theorem readHash_stuck (h : Token.readHash (t ++ '#' :: y) = (k, t.length)) :
    ∃ n, Token.readHash (t ++ (CallName.rgba ++ '(' :: y')) = (.hash n, t.length + 4) := by
  rw [Token.readHash_eq] at h
  have before : nameLength 0 (t ++ '#' :: y) = t.length ∧ (t = [] ∨ Token.startsHash (t ++ '#' :: y) = true) := by
    split at h
    · next name => exact ⟨congrArg Prod.snd h, .inr name⟩
    · obtain rfl := List.length_eq_zero_iff.mp (congrArg Prod.snd h).symm
      exact ⟨rfl, .inl rfl⟩
  obtain ⟨length, starts⟩ := before
  have starts' : Token.startsHash (t ++ (CallName.rgba ++ '(' :: y')) = true := by
    by_cases empty : t = []
    · subst empty
      rfl
    · rw [← starts.resolve_left empty]
      exact Token.startsHash_swap (.inl rfl) _ fun h => absurd h empty
  rw [Token.readHash_eq, if_pos starts', nameLength_stuck y' length]
  exact ⟨_, rfl⟩

theorem readAtSign_stuck {w : Text} (hw : w = [] ∨ w = ['-'])
    (h : Token.readAtSign (t ++ (w ++ '#' :: y)) = (k, t.length)) (alone : w = [] ∨ k = .symbol) :
    ∃ n, Token.readAtSign (t ++ (w ++ (CallName.rgba ++ '(' :: y')))
      = (.atKeyword n, t.length + w.length + 4) := by
  unfold Token.readAtSign at h
  have before : nameLength 0 ((t ++ w) ++ '#' :: y) = (t ++ w).length
      ∧ (t ++ w = [] ∨ t ++ w = ['-'] ∨ startsName ((t ++ w) ++ '#' :: y) = true) := by
    by_cases name : startsName (t ++ (w ++ '#' :: y)) = true
    · rw [if_pos name] at h
      injection h with token length
      have hw : w = [] := alone.elim id fun symbol => by rw [symbol] at token; cases token
      subst hw
      rw [List.append_nil]
      exact ⟨length, .inr (.inr name)⟩
    · rw [if_neg name] at h
      obtain rfl := List.length_eq_zero_iff.mp (congrArg Prod.snd h).symm
      rw [List.nil_append]
      exact ⟨nameLength_before hw y, hw.imp_right .inl⟩
  obtain ⟨length, starts⟩ := before
  rw [← List.append_assoc]
  refine ⟨unescape 0 (((t ++ w) ++ (CallName.rgba ++ '(' :: y')).take (t.length + w.length + 4)), ?_⟩
  rw [Token.readAtSign, if_pos (startsName_stuck y' starts), nameLength_stuck y' length,
    List.length_append]

theorem readNumber_stuck {w : Text} (hw : w = [] ∨ w = ['-'])
    (starts : startsNumber (c :: (t ++ (w ++ '#' :: y))) = true)
    (h : Token.readNumber c (t ++ (w ++ '#' :: y)) = (k, t.length))
    (unit : k = .number ∨ (k = .dimension ∧ w = [])) :
    Token.readNumber c (t ++ (w ++ (CallName.rgba ++ '(' :: y'))) = (.dimension, t.length + w.length + 4) := by
  have hash : Character.isNumberChar '#' = false := by decide
  rw [← List.append_assoc] at starts h ⊢
  have starts : startsNumber (c :: (t ++ w)) = true :=
    startsNumber_boundary (t := y) hash (c :: (t ++ w)) ▸ starts
  have positive := numberLength_pos starts
  have within := numberLength_le (c :: (t ++ w))
  have letter : Character.isNumberChar 'r' = false := by decide
  have read' := readNumber_boundary (t := 'g' :: 'b' :: 'a' :: '(' :: y') letter c (t ++ w)
  rw [readNumber_boundary hash] at h
  rw [show CallName.rgba ++ '(' :: y' = 'r' :: 'g' :: 'b' :: 'a' :: '(' :: y' from rfl, read']
  generalize numberLength (c :: (t ++ w)) = n at *
  dsimp only at h ⊢
  generalize hu : (c :: (t ++ w)).drop n = u at h ⊢
  have size := congrArg List.length hu
  rw [List.length_drop, List.length_cons, List.length_append] at size
  have noPercent : (u ++ '#' :: y).head? ≠ some '%' := by
    intro percent
    rw [if_pos percent] at h
    injection h with token
    rcases unit with unit | unit
    · rw [unit] at token; cases token
    · rw [unit.1] at token; cases token
  rw [if_neg noPercent] at h
  have before : nameLength 0 (u ++ '#' :: y) = u.length
      ∧ (u = [] ∨ u = ['-'] ∨ startsName (u ++ '#' :: y) = true) := by
    by_cases name : startsName (u ++ '#' :: y) = true
    · rw [if_pos name] at h
      injection h with token length
      have hw : w = [] := by
        rcases unit with unit | unit
        · rw [unit] at token; cases token
        · exact unit.2
      subst hw
      rw [List.length_nil] at size
      exact ⟨by omega, .inr (.inr name)⟩
    · rw [if_neg name] at h
      have length := congrArg Prod.snd h
      dsimp only at length
      have hu : u = w := by
        rw [← hu, show n = (c :: t).length by rw [List.length_cons]; omega, ← List.cons_append]
        exact List.drop_left
      rw [hu]
      exact ⟨nameLength_before hw y, hw.imp_right .inl⟩
  obtain ⟨length, starts⟩ := before
  have noPercent' : (u ++ (CallName.rgba ++ '(' :: y')).head? ≠ some '%' := by
    cases u with
    | nil => simp [CallName.rgba]
    | cons d u => exact noPercent
  rw [List.length_cons, List.length_append] at within
  have length' := nameLength_stuck y' length
  refine (if_neg noPercent').trans ((if_pos (startsName_stuck y' starts)).trans (Prod.ext rfl ?_))
  show n - 1 + nameLength 0 (u ++ (CallName.rgba ++ '(' :: y')) = _
  omega

/-- What is read where a name starts sticks only if it ends with the name. -/
theorem nameLength_of_sticks (starts : startsName (c :: (t ++ '#' :: y)) = true)
    (h : Token.readName c (t ++ '#' :: y) = (k, t.length)) (sticks : Lexeme.sticks ⟨k, c :: t⟩ = true) :
    nameLength 0 (c :: (t ++ '#' :: y)) = t.length + 1 := by
  have positive := Token.nameLength_pos starts
  generalize length : nameLength 0 (c :: (t ++ '#' :: y)) = n at positive
  by_cases paren : ((c :: (t ++ '#' :: y)).drop n).head? = some '('
  · obtain ⟨inner, behind⟩ : ∃ inner, (c :: (t ++ '#' :: y)).drop n = '(' :: inner :=
      List.head?_eq_some_iff.mp paren
    rw [Token.readName_of_paren length rfl behind] at h
    split at h
    · obtain ⟨rfl, -⟩ := Prod.mk.inj h
      cases sticks
    · obtain ⟨rfl, -⟩ := Prod.mk.inj h
      cases sticks
  · rw [Token.readName_of_ident length paren] at h
    have := congrArg Prod.snd h
    dsimp only at this
    omega

/-- What is read where a number starts sticks only if it is a number, with or without a unit. -/
theorem unit_of_sticks {s : Text} {n : Nat} (h : Token.readNumber c s = (k, n))
    (sticks : Lexeme.sticks ⟨k, c :: t⟩ = true) : k = .number ∨ k = .dimension := by
  unfold Token.readNumber at h
  dsimp only at h
  split at h
  · obtain ⟨rfl, -⟩ := Prod.mk.inj h
    cases sticks
  · split at h
    · exact .inr (congrArg Prod.fst h).symm
    · exact .inl (congrArg Prod.fst h).symm

/-- A token that is its first character alone does not stick. -/
theorem sticks_mark (h : Token.mark? c = some k) : Lexeme.sticks ⟨k, c :: t⟩ = false := by
  unfold Token.mark? at h
  split at h <;> cases h <;> rfl

end Stuck

/-! ## What sticks -/

/-- **What sticks to digits** starts a call if it is a name, or else takes in the new name. -/
theorem Lexeme.Reads.stuck {l : Lexeme} {y : Text} (h : l.Reads ('#' :: y)) (sticks : l.sticks = true)
    (y' : Text) :
    (∃ n, Lexeme.Reads ⟨.opening (.call n), l.text ++ (CallName.rgba ++ ['('])⟩ y')
      ∨ ∃ k : Token, k.endsInName = true ∧ Lexeme.Reads ⟨k, l.text ++ CallName.rgba⟩ ('(' :: y') := by
  obtain ⟨k, c, t, rfl, read⟩ := h.read (by simp)
  -- the two readings, by how far they go
  have call {n : Text} (h : Token.readName c (t ++ (CallName.rgba ++ '(' :: y')) = (.opening (.call n), t.length + 5))
      (start : Token.start c (t ++ (CallName.rgba ++ '(' :: y')) = .name) :
      Lexeme.Reads ⟨.opening (.call n), c :: (t ++ (CallName.rgba ++ ['(']))⟩ y' := by
    apply reads_of_read
    rw [Token.read_eq, List.append_assoc, List.append_assoc, List.singleton_append, start]
    show Token.readName _ _ = _
    rw [h, List.length_append]
    rfl
  have name {k : Token} (h : Token.read c (t ++ (CallName.rgba ++ '(' :: y')) = (k, t.length + 4)) :
      Lexeme.Reads ⟨k, c :: (t ++ CallName.rgba)⟩ ('(' :: y') := by
    apply reads_of_read
    rw [List.append_assoc, h, List.length_append]
    rfl
  by_cases hyphen : c = '-' ∧ t = []
  · obtain ⟨rfl, rfl⟩ := hyphen
    obtain ⟨n, h⟩ := readName_stuck (t := []) (y := y) (c := '-') y' rfl
    exact .inl ⟨n, call h rfl⟩
  · have start : Token.start c (t ++ (CallName.rgba ++ '(' :: y')) = Token.start c (t ++ '#' :: y) :=
      start_swap (.inl rfl) _ fun h => hyphen ⟨h.1, h.2.1⟩
    rw [Token.read_eq] at read
    have fits := Token.start_fits c (t ++ '#' :: y)
    cases found : Token.start c (t ++ '#' :: y) with
    | hash =>
      rw [found] at read start
      obtain ⟨n, h⟩ := readHash_stuck y' read
      exact .inr ⟨.hash n, rfl, name (by rw [Token.read_eq, start]; exact h)⟩
    | atSign =>
      rw [found] at read start
      obtain ⟨n, h⟩ := readAtSign_stuck (w := []) y' (.inl rfl) read (.inl rfl)
      exact .inr ⟨.atKeyword n, rfl, name (by rw [Token.read_eq, start]; exact h)⟩
    | number =>
      rw [found] at read start fits
      have unit := unit_of_sticks read sticks
      have h := readNumber_stuck (w := []) y' (.inl rfl) fits read (unit.imp_right fun h => ⟨h, rfl⟩)
      exact .inr ⟨.dimension, rfl, name (by rw [Token.read_eq, start]; exact h)⟩
    | name =>
      rw [found] at read start fits
      obtain ⟨n, h⟩ := readName_stuck y' (nameLength_of_sticks fits read sticks)
      exact .inl ⟨n, call h start⟩
    | mark r =>
      rw [found] at read fits
      have token : r = k := congrArg Prod.fst read
      rw [sticks_mark (token ▸ fits)] at sticks
      cases sticks
    | space => rw [found] at read; obtain ⟨rfl, -⟩ := Prod.mk.inj read; cases sticks
    | quote => rw [found] at read; obtain ⟨rfl, -⟩ := Prod.mk.inj read; cases sticks
    | comment => rw [found] at read; obtain ⟨rfl, -⟩ := Prod.mk.inj read; cases sticks
    | arrow =>
      -- an arrow has three characters
      rw [found] at read
      obtain ⟨rfl, length⟩ := Prod.mk.inj read
      cases t with
      | nil => cases length
      | cons d t => simp [Lexeme.sticks] at sticks
    | other =>
      -- the two other marks that stick are read as such
      rw [found] at read
      have token : (Token.readSymbol c (t ++ '#' :: y)).1 = k := congrArg Prod.fst read
      obtain rfl : k = .symbol := by
        rw [Token.readSymbol_eq] at token
        split at token
        · exact token.symm
        · split at token <;> exact token.symm
      simp only [Lexeme.sticks, Bool.or_eq_true, beq_iff_eq, List.cons.injEq] at sticks
      rcases sticks with (sticks | ⟨rfl, -⟩) | ⟨rfl, -⟩
      · exact absurd sticks hyphen
      · cases (show Token.Start.hash = .other from found)
      · cases (show Token.Start.atSign = .other from found)

/-- **What sticks to a hyphen and digits** takes in both the hyphen and the new name. -/
theorem Lexeme.Reads.stuckFar {l : Lexeme} {y : Text} (h : l.Reads ('-' :: '#' :: y))
    (sticks : l.sticksFar = true) (y' : Text) :
    ∃ k : Token, k.endsInName = true ∧ Lexeme.Reads ⟨k, l.text ++ ('-' :: CallName.rgba)⟩ ('(' :: y') := by
  obtain ⟨k, c, t, rfl, read⟩ := h.read (by simp)
  have name {k : Token} (h : Token.read c (t ++ ('-' :: (CallName.rgba ++ '(' :: y'))) = (k, t.length + 1 + 4)) :
      Lexeme.Reads ⟨k, c :: (t ++ ('-' :: CallName.rgba))⟩ ('(' :: y') := by
    apply reads_of_read
    rw [List.append_assoc, List.cons_append, h, List.length_append]
    rfl
  have start : Token.start c (t ++ '-' :: (CallName.rgba ++ '(' :: y')) = Token.start c (t ++ '-' :: '#' :: y) := by
    have swap := start_swap (c := c) (s := t ++ ['-']) (.inl rfl : LikeShorthand '#' y)
      ('g' :: 'b' :: 'a' :: '(' :: y') (fun h => by simp at h)
    rw [List.append_assoc, List.append_assoc] at swap
    exact swap
  unfold Lexeme.sticksFar at sticks
  split at sticks
  · next number =>
    obtain rfl : k = .number := number
    have found := Token.start_of_read (congrArg Prod.fst read) rfl
    rw [Token.read_eq, found] at read
    have h := readNumber_stuck (w := ['-']) y' (.inr rfl) (Token.fits_of_start found) read (.inl rfl)
    exact ⟨.dimension, rfl, name (by rw [Token.read_eq, start, found]; exact h)⟩
  · next symbol =>
    obtain rfl : k = .symbol := symbol
    obtain ⟨rfl, rfl⟩ := List.cons.inj (eq_of_beq sticks)
    obtain ⟨n, h⟩ := readAtSign_stuck (t := []) (y := y) (w := ['-']) y' (.inr rfl) read (.inr rfl)
    exact ⟨.atKeyword n, rfl, name h⟩
  · cases sticks

end Translucent
