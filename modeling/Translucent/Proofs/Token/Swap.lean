import Translucent.Proofs.Token.Inside
import Translucent.Proofs.Token.Plain

/-!
  # Tokens before a replaced text

  A text with a shorthand in it, and the same text with `rgba(…)` in place of the shorthand, are read alike
  up to there, except for what stands right before digits: `#` ends most tokens, the letter `r` does not.

  1. **Reading** — `Lexeme.Reads`: a lexeme is the first one of its text with some tail behind it.  `Lexed`
     says the same of several lexemes.
  2. **The first character** — `LikeShorthand`, what can be said of the text that is replaced; the measures
     that do not tell its first character from an `r`.
  3. **What is read alike** — `Reads.swap`: a lexeme that does not stick to what is replaced is read before
     the new text too, and so are several of them (`Lexed.swap`).
  4. **Texts alike** — the same for texts that are equal or part at a shorthand (`Reads.alike`).
-/

namespace Translucent

/-! ## Reading -/

/-- Whether a lexeme is the first one of its text with `tail` behind it. -/
def Lexeme.Reads (l : Lexeme) (tail : Text) : Prop :=
  l.text ≠ [] ∧ lexemes 0 (l.text ++ tail) = l :: lexemes 0 tail

theorem reads_of_read {c : Char} {t tail : Text} {k : Token}
    (h : Token.read c (t ++ tail) = (k, t.length)) : Lexeme.Reads ⟨k, c :: t⟩ tail := by
  refine ⟨List.cons_ne_nil _ _, ?_⟩
  show lexemes 0 (c :: (t ++ tail)) = _
  rw [lexemes_cons, h]
  show Lexeme.mk k (c :: (t ++ tail).take t.length) :: lexemes 0 ((t ++ tail).drop t.length) = _
  rw [List.take_left, List.drop_left]

theorem Lexeme.Reads.read {l : Lexeme} {tail : Text} (h : l.Reads tail) (nonempty : tail ≠ []) :
    ∃ k c t, l = ⟨k, c :: t⟩ ∧ Token.read c (t ++ tail) = (k, t.length) := by
  obtain ⟨k, text⟩ := l
  obtain ⟨some, h⟩ := h
  cases text with
  | nil => exact absurd rfl some
  | cons c t =>
    refine ⟨k, c, t, rfl, ?_⟩
    rw [show (Lexeme.mk k (c :: t)).text ++ tail = c :: (t ++ tail) from rfl, lexemes_cons] at h
    injection h with first _
    injection first with token text
    injection text with _ text
    -- all of `t` is read, and no more, as there is more
    have length := congrArg List.length text
    have := List.length_pos_iff.mpr nonempty
    rw [List.length_take, List.length_append] at length
    exact Prod.ext token (by show (Token.read c (t ++ tail)).2 = t.length; omega)

/-- What is read in front of any text, empty or not. -/
theorem Lexeme.Reads.token {c : Char} {t tail : Text} {k : Token} (h : Lexeme.Reads ⟨k, c :: t⟩ tail) :
    (Token.read c (t ++ tail)).1 = k := by
  have first := h.2
  rw [show (Lexeme.mk k (c :: t)).text ++ tail = c :: (t ++ tail) from rfl, lexemes_cons] at first
  injection first with first _
  injection first

theorem reads_of_lexemes {s : Text} {l : Lexeme} {ls : List Lexeme} (h : lexemes 0 s = l :: ls) :
    l.Reads (Lexeme.textOf ls) ∧ lexemes 0 (Lexeme.textOf ls) = ls := by
  cases s with
  | nil => simp [lexemes] at h
  | cons c s =>
    have whole := h
    rw [lexemes_cons] at h
    injection h with first rest
    have text : Lexeme.textOf ls = s.drop (Token.read c s).2 := by
      rw [← rest, textOf_lexemes_zero]
    refine ⟨⟨?_, ?_⟩, by rw [text, rest]⟩
    · rw [← first]; exact List.cons_ne_nil _ _
    · have cut : l.text ++ Lexeme.textOf ls = c :: s := by
        rw [text, ← first]
        exact congrArg (c :: ·) (List.take_append_drop _ s)
      rw [cut, whole, text, rest]

/-- Whether the lexemes `ls` are read before the text `s`. -/
def Lexed (ls : List Lexeme) (s : Text) : Prop := lexemes 0 (Lexeme.textOf ls ++ s) = ls ++ lexemes 0 s

namespace Lexed

variable {l : Lexeme} {ls ms : List Lexeme} {s : Text}

theorem nil (s : Text) : Lexed [] s := rfl

theorem cons (reads : l.Reads (Lexeme.textOf ls ++ s)) (h : Lexed ls s) : Lexed (l :: ls) s := by
  rw [Lexed, Lexeme.textOf_cons, List.append_assoc, reads.2, h]
  rfl

/-- The first lexeme and the others. -/
theorem uncons (h : Lexed (l :: ls) s) : l.Reads (Lexeme.textOf ls ++ s) ∧ Lexed ls s := by
  have first := reads_of_lexemes (h.trans (List.cons_append ..))
  rw [Lexeme.textOf_append, textOf_lexemes_zero] at first
  exact first

/-- Both parts of lexemes. -/
theorem parts (h : Lexed (ls ++ ms) s) : Lexed ls (Lexeme.textOf ms ++ s) ∧ Lexed ms s := by
  induction ls with
  | nil => exact ⟨rfl, h⟩
  | cons l ls ih =>
    have whole : Lexed (l :: (ls ++ ms)) s := h
    obtain ⟨reads, behind⟩ := whole.uncons
    rw [Lexeme.textOf_append, List.append_assoc] at reads
    exact ⟨cons reads (ih behind).1, (ih behind).2⟩

theorem append (h : Lexed ls (Lexeme.textOf ms ++ s)) (behind : Lexed ms s) : Lexed (ls ++ ms) s := by
  rw [Lexed, Lexeme.textOf_append, List.append_assoc, h, behind, List.append_assoc]

/-- The lexemes of a text. -/
theorem lexemes (t : Text) : Lexed (lexemes 0 t) [] := by
  rw [Lexed, textOf_lexemes_zero, List.append_nil]
  exact (List.append_nil _).symm

/-- Lexemes that are read before nothing are those of their text. -/
theorem whole (h : Lexed ls []) : Translucent.lexemes 0 (Lexeme.textOf ls) = ls := by
  rw [Lexed, List.append_nil] at h
  exact h.trans (List.append_nil ls)

/-- No lexeme that is read is empty. -/
theorem eq_nil (h : Lexed ls s) (empty : Lexeme.textOf ls = []) : ls = [] := by
  cases ls with
  | nil => rfl
  | cons l ls =>
    rw [Lexeme.textOf_cons] at empty
    exact absurd (List.append_eq_nil_iff.mp empty).1 h.uncons.1.1

/-- Two ways to cut lexemes: the later cut is one of what is behind the earlier. -/
theorem exists_between {as bs cs ds : List Lexeme} (lexed : Lexed (cs ++ ds) s)
    (cut : as ++ bs = cs ++ ds) (le : Text.byteLength (Lexeme.textOf cs) ≤ Text.byteLength (Lexeme.textOf as)) :
    ∃ ms, as = cs ++ ms ∧ ds = ms ++ bs := by
  rcases List.append_eq_append_iff.mp cut with ⟨ms, rfl, rfl⟩ | between
  · rw [Lexeme.textOf_append, Text.byteLength_append] at le
    have empty : Lexeme.textOf ms = [] := Text.byteLength_eq_zero_iff.mp (by omega)
    obtain rfl := lexed.parts.1.parts.2.eq_nil empty
    exact ⟨[], by simp, rfl⟩
  · exact between

end Lexed

/-- Where a name starts there is one. -/
theorem Token.nameLength_pos {c : Char} {s : Text} (starts : startsName (c :: s) = true) :
    0 < nameLength 0 (c :: s) := by
  by_cases slash : c = '\\'
  · subst slash
    have line : startsNewline s = false := by simpa [startsName] using starts
    rw [nameLength_zero, if_neg (by decide), if_pos ⟨rfl, line⟩]
    exact Nat.succ_pos _
  · rw [nameLength_zero, if_pos (isNameChar_of_startsName starts slash)]
    exact Nat.succ_pos _

/-! ## The first character -/

/-- What can be said of a shorthand from its first character on: it starts with `#` or a name, and the name
    is one of three. -/
def LikeShorthand (m : Char) (y : Text) : Prop :=
  m = '#' ∨ ((m = 'b' ∨ m = 'w' ∨ m = 'r' ∨ m = '\\') ∧ startsName (m :: y) = true)

namespace LikeShorthand

variable {m : Char} {y : Text}

/-- A property of all five characters. -/
theorem char {p : Char → Prop} (like : LikeShorthand m y) (h : p '#' ∧ p 'b' ∧ p 'w' ∧ p 'r' ∧ p '\\') :
    p m := by
  obtain ⟨hash, b, w, r, slash⟩ := h
  rcases like with rfl | ⟨rfl | rfl | rfl | rfl, -⟩
  · exact hash
  · exact b
  · exact w
  · exact r
  · exact slash

theorem newline (like : LikeShorthand m y) : Character.isNewline m = false :=
  like.char (p := fun m => Character.isNewline m = false) (by decide)

theorem space (like : LikeShorthand m y) : Character.isSpace m = false :=
  like.char (p := fun m => Character.isSpace m = false) (by decide)

theorem numberChar (like : LikeShorthand m y) : Character.isNumberChar m = false :=
  like.char (p := fun m => Character.isNumberChar m = false) (by decide)

/-- What is no `#` belongs to a name. -/
theorem nameLength_pos (like : LikeShorthand m y) (hash : m ≠ '#') : 0 < nameLength 0 (m :: y) :=
  like.elim (fun h => absurd h hash) fun h => Token.nameLength_pos h.2

end LikeShorthand

/-- A hash starts with its mark. -/
theorem Lexeme.Reads.hash {l : Lexeme} {name z : Text} (h : l.Reads z) (hl : l.token = .hash name) :
    ∃ t, l.text = '#' :: t := by
  obtain ⟨k, text⟩ := l
  obtain ⟨c, t, rfl⟩ := List.exists_cons_of_ne_nil h.1
  have start := Token.start_of_read (h.token.trans hl) rfl
  exact ⟨t, congrArg (· :: t) (Token.fits_of_start start)⟩

/-- A token of one character is spelled by that character. -/
theorem Lexeme.Reads.mark {k : Token} {t z : Text} (h : Lexeme.Reads ⟨k, t⟩ z)
    (hk : Token.startOf k = some (.mark k)) : ∃ c, t = [c] ∧ Token.mark? c = some k := by
  obtain ⟨c, t, rfl⟩ := List.exists_cons_of_ne_nil h.1
  have mark : Token.mark? c = some k := Token.fits_of_start (Token.start_of_read h.token hk)
  have first := h.2
  rw [show (Lexeme.mk k (c :: t)).text ++ z = c :: (t ++ z) from rfl, lexemes_mark mark] at first
  injection first with first _
  injection first with _ text
  exact ⟨c, text.symm, mark⟩

/-- The call of one of three names is like a shorthand. -/
theorem Lexeme.Reads.call {name t z : Text} (h : Lexeme.Reads ⟨.opening (.call name), t⟩ z)
    (hn : name.head? = some 'b' ∨ name.head? = some 'w' ∨ name.head? = some 'r') :
    ∃ m y, t ++ z = m :: y ∧ m ≠ '#' ∧ LikeShorthand m y := by
  obtain ⟨c, t, rfl⟩ := List.exists_cons_of_ne_nil h.1
  obtain ⟨starts, spelled⟩ := Token.name_of_call h.token
  have positive := Token.nameLength_pos starts
  obtain ⟨n, length⟩ : ∃ n, nameLength 0 (c :: (t ++ z)) = n + 1 := ⟨_, (Nat.succ_pred_eq_of_pos positive).symm⟩
  rw [length, List.take_succ_cons, unescape] at spelled
  have char : c = 'b' ∨ c = 'w' ∨ c = 'r' ∨ c = '\\' := by
    by_cases slash : c = '\\'
    · exact .inr (.inr (.inr slash))
    rw [if_neg slash] at spelled
    split at spelled
    · rw [← spelled] at hn
      exact absurd hn (by simp [replacement])
    · rw [← spelled] at hn
      simp only [List.head?_cons, Option.some.injEq] at hn
      rcases hn with hn | hn | hn
      · exact .inl hn
      · exact .inr (.inl hn)
      · exact .inr (.inr (.inl hn))
  refine ⟨c, t ++ z, rfl, ?_, .inr ⟨char, starts⟩⟩
  rintro rfl
  exact absurd char (by decide)

/-- Nothing that opens a block is a hyphen. -/
theorem Lexeme.Reads.ne_hyphen {o : Opener} {t z : Text} (h : Lexeme.Reads ⟨.opening o, t⟩ z) :
    t ≠ ['-'] := by
  rintro rfl
  have token := h.token
  cases o with
  | call name =>
    have last := text_of_call (h.2 ▸ List.mem_cons_self) (rfl : (Lexeme.mk _ _).token = .opening (.call name))
    exact absurd last (by simp)
  | bracket b =>
    have mark : Token.mark? '-' = some (.opening (.bracket b)) := Token.fits_of_start (Token.start_of_read token rfl)
    cases mark

section Measures

variable {m : Char} {t x y : Text} (like : LikeShorthand m y) (y' : Text)

theorem startsName_other {c : Char} (hyphen : c ≠ '-') (slash : c ≠ '\\') (s : Text) :
    startsName (c :: s) = Character.isNameStart c := by
  unfold startsName
  split
  · next h => cases h
  · next h => injection h with h; exact absurd h hyphen
  · next h => injection h with h; exact absurd h slash
  · next h => injection h with h; rw [h]

include like in
/-- Only behind a hyphen it matters for a name whether `#` or `r` follows. -/
theorem startsName_swap {c : Char} {s : Text} (apart : ¬(c = '-' ∧ s = [] ∧ m = '#')) :
    startsName (c :: (s ++ 'r' :: y')) = startsName (c :: (s ++ m :: y)) := by
  by_cases hyphen : c = '-'
  · subst hyphen
    cases s with
    | nil =>
      rcases like with rfl | ⟨rfl | rfl | rfl | rfl, -⟩
      · exact absurd ⟨rfl, rfl, rfl⟩ apart
      all_goals rfl
    | cons d s => rfl
  · by_cases slash : c = '\\'
    · subst slash
      cases s with
      | nil =>
        show (!Character.isNewline 'r') = !Character.isNewline m
        rw [like.newline]
        rfl
      | cons d s => rfl
    · rw [startsName_other hyphen slash, startsName_other hyphen slash]

include like in
/-- The same before any text, where only digits directly or behind a hyphen matter. -/
theorem startsName_swap_of_apart (apart : m = '#' → x ≠ [] ∧ x ≠ ['-']) :
    startsName (x ++ 'r' :: y') = startsName (x ++ m :: y) := by
  cases x with
  | nil =>
    rcases like with hash | ⟨-, name⟩
    · exact absurd rfl (apart hash).1
    · exact name.symm
  | cons d x =>
    refine startsName_swap like y' ?_
    rintro ⟨rfl, rfl, hash⟩
    exact (apart hash).2 rfl

include like in
/-- Where a name starts, with or without digits in it, one starts with the `r` too. -/
theorem startsName_swap_of_name (name : startsName (x ++ m :: y) = true) :
    startsName (x ++ 'r' :: y') = true := by
  rw [startsName_swap_of_apart like, name]
  rintro rfl
  -- neither digits nor a hyphen before them start a name
  constructor
  · rintro rfl
    simp [startsName, Character.isNameStart] at name
  · rintro rfl
    simp [startsName, Character.isNameStart] at name

include like in
/-- A name that ends before the shorthand ends there before an `r` too, unless that is what ends it. -/
theorem nameLength_swap (near : x = [] → m ≠ '#') (h : nameLength 0 (t ++ (x ++ m :: y)) = t.length) :
    nameLength 0 (t ++ (x ++ 'r' :: y')) = t.length := by
  by_cases hx : x = []
  · subst hx
    rcases nameLength_end (Nat.le_of_eq h) with lt | zero
    · omega
    · exact absurd zero (Nat.ne_of_gt (like.nameLength_pos (near rfl)))
  · have := List.length_pos_iff.mpr hx
    rw [← List.append_assoc] at h ⊢
    rw [← h]
    exact nameLength_inside (z := m :: y) (by rw [h, List.length_append]; omega) like.newline rfl

include like in
theorem startsNumber_swap (c : Char) (s : Text) :
    startsNumber (c :: (s ++ 'r' :: y')) = startsNumber (c :: (s ++ m :: y)) := by
  rw [← List.cons_append, ← List.cons_append, startsNumber_boundary (by decide),
    startsNumber_boundary like.numberChar]

include like in
theorem quoteFollows_swap (x : Text) : quoteFollows (x ++ 'r' :: y') = quoteFollows (x ++ m :: y) := by
  induction x with
  | nil =>
    have quote : Character.isQuote m = false := like.char (p := fun m => Character.isQuote m = false)
      (by decide)
    simp only [List.nil_append, quoteFollows]
    rw [List.dropWhile_cons_of_neg (by decide),
      List.dropWhile_cons_of_neg (by rw [like.space]; exact Bool.false_ne_true)]
    exact quote.symm
  | cons c x ih =>
    rw [List.cons_append, List.cons_append, quoteFollows, quoteFollows]
    by_cases space : Character.isSpace c = true
    · rw [List.dropWhile_cons_of_pos space, List.dropWhile_cons_of_pos space]
      exact ih
    · rw [List.dropWhile_cons_of_neg space, List.dropWhile_cons_of_neg space]
      rfl

include like in
/-- Only behind a hyphen it matters for the start of a token whether `#` or `r` follows. -/
theorem start_swap {c : Char} {s : Text} (apart : ¬(c = '-' ∧ s = [] ∧ m = '#')) :
    Token.start c (s ++ 'r' :: y') = Token.start c (s ++ m :: y) := by
  have comment : (s ++ 'r' :: y').head? = some '*' ↔ (s ++ m :: y).head? = some '*' := by
    cases s with
    | nil =>
      have star : m ≠ '*' := like.char (p := fun m => m ≠ '*') (by decide)
      simp [star]
    | cons d s => exact Iff.rfl
  have arrow : (s ++ 'r' :: y').take 2 = ['-', '>'] ↔ (s ++ m :: y).take 2 = ['-', '>'] := by
    rcases s with _ | ⟨d, _ | ⟨e, s⟩⟩
    · have hyphen : m ≠ '-' := like.char (p := fun m => m ≠ '-') (by decide)
      simp [hyphen]
    · have greater : m ≠ '>' := like.char (p := fun m => m ≠ '>') (by decide)
      simp [greater]
    · exact Iff.rfl
  unfold Token.start
  simp only [startsNumber_swap like y', startsName_swap like y' apart, comment, arrow]

end Measures

/-! ## What is read alike -/

/-- Whether a lexeme goes on if the `#` behind it turns into a letter. -/
def Lexeme.sticks (l : Lexeme) : Bool :=
  match l.token with
  | .ident _ | .hash _ | .atKeyword _ | .number | .dimension => true
  | .symbol => l.text == ['-'] || l.text == ['#'] || l.text == ['@']
  | _ => false

/-- Whether a lexeme goes on if the `-#` behind it turns into a hyphen and a letter. -/
def Lexeme.sticksFar (l : Lexeme) : Bool :=
  match l.token with
  | .number => true
  | .symbol => l.text == ['@']
  | _ => false

namespace Token

variable {c m : Char} {k : Token} {t x y : Text} (like : LikeShorthand m y)
  (near : x = [] → m = '#' → Lexeme.sticks ⟨k, c :: t⟩ = false)
  (far : x = ['-'] → m = '#' → Lexeme.sticksFar ⟨k, c :: t⟩ = false) (y' : Text)

include near in
/-- What sticks to digits is not right before them. -/
theorem apart_of_sticks (sticks : Lexeme.sticks ⟨k, c :: t⟩ = true) : x = [] → m ≠ '#' :=
  fun hx hm => Bool.false_ne_true ((near hx hm).symm.trans sticks)

include like in
/-- Only directly behind a `#` it matters for a hash whether `#` or `r` follows. -/
theorem startsHash_swap {s : Text} (apart : s = [] → m ≠ '#') :
    startsHash (s ++ 'r' :: y') = startsHash (s ++ m :: y) := by
  unfold startsHash
  cases s with
  | nil =>
    rcases like with hash | ⟨-, name⟩
    · exact absurd hash (apart rfl)
    · rw [List.nil_append, List.nil_append, name]
      rfl
  | cons d s =>
    by_cases hyphen : d = '-'
    · subst hyphen
      simp
    · rw [List.cons_append, List.cons_append, startsName_swap like y' fun h => hyphen h.1]
      rfl

include like near in
theorem readHash_swap (hc : c = '#') (h : readHash (t ++ (x ++ m :: y)) = (k, t.length)) :
    readHash (t ++ (x ++ 'r' :: y')) = (k, t.length) := by
  have apart : t ++ x = [] → m ≠ '#' := by
    -- a lone `#` before digits sticks
    intro empty hash
    obtain ⟨rfl, rfl⟩ := List.append_eq_nil_iff.mp empty
    subst hash
    have symbol : Token.symbol = k := congrArg Prod.fst h
    have near := near rfl rfl
    rw [← symbol, hc] at near
    exact absurd near (by decide)
  have starts : startsHash (t ++ (x ++ 'r' :: y')) = startsHash (t ++ (x ++ m :: y)) := by
    rw [← List.append_assoc, ← List.append_assoc]
    exact startsHash_swap like y' apart
  rw [readHash_eq] at h ⊢
  rw [starts]
  split
  · next name =>
    rw [if_pos name] at h
    injection h with token length
    have noHash := apart_of_sticks near (by rw [← token]; rfl)
    rw [length, List.take_left] at token
    rw [nameLength_swap like y' noHash length, List.take_left, token]
  · next name =>
    rw [if_neg name] at h
    exact h

include like near far in
theorem readAtSign_swap (hc : c = '@') (h : readAtSign (t ++ (x ++ m :: y)) = (k, t.length)) :
    readAtSign (t ++ (x ++ 'r' :: y')) = (k, t.length) := by
  unfold readAtSign at h ⊢
  by_cases name : startsName (t ++ (x ++ m :: y)) = true
  · rw [if_pos name] at h
    injection h with token length
    have noHash := apart_of_sticks near (by rw [← token]; rfl)
    have starts : startsName (t ++ (x ++ 'r' :: y')) = true := by
      rw [← List.append_assoc] at name ⊢
      exact startsName_swap_of_name like y' name
    rw [length, List.take_left] at token
    rw [if_pos starts, nameLength_swap like y' noHash length, List.take_left, token]
  · rw [if_neg name] at h
    injection h with token length
    obtain rfl := List.length_eq_zero_iff.mp length.symm
    rw [List.nil_append] at name ⊢
    rw [startsName_swap_of_apart like, if_neg name, token]
    · rfl
    · intro hm
      constructor
      · intro hx
        have near := near hx hm
        rw [← token, hc] at near
        exact absurd near (by decide)
      · intro hx
        have far := far hx hm
        rw [← token, hc] at far
        exact absurd far (by decide)

include like near far in
theorem readNumber_swap (starts : startsNumber (c :: (t ++ (x ++ m :: y))) = true)
    (h : readNumber c (t ++ (x ++ m :: y)) = (k, t.length)) :
    readNumber c (t ++ (x ++ 'r' :: y')) = (k, t.length) := by
  rw [← List.append_assoc] at starts h ⊢
  have starts : startsNumber (c :: (t ++ x)) = true :=
    startsNumber_boundary (t := y) like.numberChar (c :: (t ++ x)) ▸ starts
  have positive := numberLength_pos starts
  rw [readNumber_boundary like.numberChar] at h
  rw [readNumber_boundary (by decide)]
  generalize numberLength (c :: (t ++ x)) = n at *
  dsimp only at h ⊢
  have percent : ((c :: (t ++ x)).drop n ++ 'r' :: y').head? = some '%'
      ↔ ((c :: (t ++ x)).drop n ++ m :: y).head? = some '%' := by
    have hm : m ≠ '%' := like.char (p := fun m => m ≠ '%') (by decide)
    cases (c :: (t ++ x)).drop n with
    | nil => simp [hm]
    | cons d u => exact Iff.rfl
  split
  · next found =>
    rw [if_pos (percent.mp found)] at h
    exact h
  · next notFound =>
    rw [if_neg fun found => notFound (percent.mpr found)] at h
    by_cases name : startsName ((c :: (t ++ x)).drop n ++ m :: y) = true
    · -- a dimension: its name ends before the shorthand
      rw [if_pos name] at h
      injection h with token length
      have noHash := apart_of_sticks near (by rw [← token]; rfl)
      have fits : n ≤ (c :: t).length := by rw [List.length_cons]; omega
      have split : (c :: (t ++ x)).drop n = (c :: t).drop n ++ x := List.drop_append_of_le_length fits
      have starts := startsName_swap_of_name like y' name
      have whole : (c :: t).length = n + ((c :: t).drop n).length := by
        rw [List.length_drop, List.length_cons]
        omega
      rw [split, List.append_assoc] at length
      rw [List.length_cons] at whole
      rw [if_pos starts, split, List.append_assoc, nameLength_swap like y' noHash (by omega), ← token]
      exact Prod.ext rfl (by show n - 1 + _ = t.length; omega)
    · -- a number: what follows starts no unit
      rw [if_neg name] at h
      injection h with token length
      have end_eq : (c :: (t ++ x)).drop n = x := by
        rw [show n = (c :: t).length by rw [List.length_cons]; omega, ← List.cons_append]
        exact List.drop_left
      rw [end_eq] at name ⊢
      rw [startsName_swap_of_apart like, if_neg name, ← token, length]
      intro hm
      constructor
      · exact fun hx => apart_of_sticks near (by rw [← token]; rfl) hx hm
      · intro hx
        have far := far hx hm
        rw [← token] at far
        exact Bool.false_ne_true far.symm

include like in
/-- Behind a name and its parenthesis, an address ends where it did. -/
theorem readName_swap_of_paren {u v : Text} {n : Nat} (length : nameLength 0 (c :: (u ++ m :: y)) = n)
    (paren : (c :: u).drop n = '(' :: v) (within : (readName c (u ++ m :: y)).2 ≤ u.length) :
    readName c (u ++ 'r' :: y') = readName c (u ++ m :: y) := by
  have size := congrArg List.length paren
  rw [List.length_drop, List.length_cons, List.length_cons] at size
  have inside : n < (c :: u).length := by rw [List.length_cons]; omega
  have behind (z : Text) : (c :: (u ++ z)).drop n = '(' :: (v ++ z) := by
    rw [← List.cons_append, List.drop_append_of_le_length (Nat.le_of_lt inside), paren]
    rfl
  have name (z : Text) : (c :: (u ++ z)).take n = (c :: u).take n := by
    rw [← List.cons_append, List.take_append_of_le_length (Nat.le_of_lt inside)]
  have length' : nameLength 0 (c :: (u ++ 'r' :: y')) = n := by
    rw [← length]
    exact nameLength_inside (x := c :: u) (z := m :: y) (length.symm ▸ inside) like.newline rfl
  rw [readName_of_paren length (congrArg _ (name _)) (behind _)] at within ⊢
  rw [readName_of_paren length' (congrArg _ (name _)) (behind _), quoteFollows_swap like y']
  split
  · next url =>
    rw [if_pos url] at within
    dsimp only at within
    have extent : (addressExtent .lead 0 (v ++ m :: y)).length ≤ v.length := by omega
    rw [addressExtent_inside extent]
  · rfl

include like near in
theorem readName_swap (starts : startsName (c :: (t ++ (x ++ m :: y))) = true)
    (h : readName c (t ++ (x ++ m :: y)) = (k, t.length)) :
    readName c (t ++ (x ++ 'r' :: y')) = (k, t.length) := by
  generalize length : nameLength 0 (c :: (t ++ (x ++ m :: y))) = n
  by_cases paren : ((c :: (t ++ (x ++ m :: y))).drop n).head? = some '('
  · -- the name and the parenthesis stand before the shorthand
    obtain ⟨inner, behind⟩ : ∃ inner, (c :: (t ++ (x ++ m :: y))).drop n = '(' :: inner :=
      List.head?_eq_some_iff.mp paren
    have le : n ≤ t.length := by
      rw [readName_of_paren length rfl behind] at h
      split at h
      · have size := congrArg Prod.snd h
        dsimp only at size
        omega
      · exact Nat.le_of_eq (congrArg Prod.snd h)
    have inside : n < (c :: (t ++ x)).length := by
      rw [List.length_cons, List.length_append]
      omega
    rw [← List.append_assoc] at h length behind ⊢
    rw [← List.cons_append, List.drop_append_of_le_length (Nat.le_of_lt inside)] at behind
    obtain ⟨v, before⟩ : ∃ v, (c :: (t ++ x)).drop n = '(' :: v := by
      cases before : (c :: (t ++ x)).drop n with
      | nil =>
        have := List.length_drop (i := n) (l := c :: (t ++ x))
        rw [before, List.length_nil] at this
        omega
      | cons d v =>
        rw [before, List.cons_append] at behind
        injection behind with head
        exact ⟨v, by rw [head]⟩
    rw [readName_swap_of_paren like y' length before, h]
    rw [h, List.length_append]
    exact Nat.le_add_right _ _
  · -- an identifier: it ends before the shorthand
    rw [readName_of_ident length paren] at h
    have positive := nameLength_pos starts
    injection h with token size
    have noHash := apart_of_sticks near (by rw [← token]; rfl)
    obtain rfl : n = (c :: t).length := by rw [List.length_cons]; omega
    rw [← List.cons_append] at length paren token
    rw [List.drop_left] at paren
    rw [List.take_left] at token
    have length' := nameLength_swap like y' noHash length
    have paren' : (((c :: t) ++ (x ++ 'r' :: y')).drop (c :: t).length).head? ≠ some '(' := by
      rw [List.drop_left]
      cases x with
      | nil => simp
      | cons d x => exact paren
    have ident := readName_of_ident (s := t ++ (x ++ 'r' :: y')) length' paren'
    rw [← List.cons_append, List.take_left, token] at ident
    exact ident

/-- Only two marks look at what follows them. -/
theorem readSymbol_eq (c : Char) (s : Text) : readSymbol c s =
    if c = '<' ∧ s.take 3 = ['!', '-', '-'] then (.symbol, 3)
    else if ['~', '|', '^', '$', '*'].contains c ∧ s.head? = some '=' then (.symbol, 1)
    else (.symbol, 0) := by
  by_cases comment : c = '<' ∧ s.take 3 = ['!', '-', '-']
  · rw [if_pos comment]
    obtain ⟨rfl, comment⟩ := comment
    rcases s with _ | ⟨d, _ | ⟨e, _ | ⟨f, s⟩⟩⟩
    · simp at comment
    · simp at comment
    · simp at comment
    · simp only [List.take_succ_cons, List.take_zero, List.cons.injEq, and_true] at comment
      obtain ⟨rfl, rfl, rfl⟩ := comment
      rfl
  · rw [if_neg comment]
    by_cases group : ['~', '|', '^', '$', '*'].contains c ∧ s.head? = some '='
    · rw [if_pos group]
      obtain ⟨mark, equal⟩ := group
      obtain ⟨s, rfl⟩ := List.head?_eq_some_iff.mp equal
      simp only [List.contains_iff_mem, List.mem_cons, List.not_mem_nil, or_false] at mark
      rcases mark with rfl | rfl | rfl | rfl | rfl <;> rfl
    · rw [if_neg group]
      unfold readSymbol
      split
      · exact absurd ⟨rfl, rfl⟩ comment
      · exact absurd ⟨rfl, rfl⟩ group
      · exact absurd ⟨rfl, rfl⟩ group
      · exact absurd ⟨rfl, rfl⟩ group
      · exact absurd ⟨rfl, rfl⟩ group
      · exact absurd ⟨rfl, rfl⟩ group
      · rfl

include like in
theorem readSymbol_swap (s : Text) : readSymbol c (s ++ 'r' :: y') = readSymbol c (s ++ m :: y) := by
  have bang : m ≠ '!' := like.char (p := fun m => m ≠ '!') (by decide)
  have hyphen : m ≠ '-' := like.char (p := fun m => m ≠ '-') (by decide)
  have equal : m ≠ '=' := like.char (p := fun m => m ≠ '=') (by decide)
  have head : (s ++ 'r' :: y').head? = some '=' ↔ (s ++ m :: y).head? = some '=' := by
    cases s with
    | nil => simp [equal]
    | cons d s => exact Iff.rfl
  have take : (s ++ 'r' :: y').take 3 = ['!', '-', '-'] ↔ (s ++ m :: y).take 3 = ['!', '-', '-'] := by
    rcases s with _ | ⟨d, _ | ⟨e, _ | ⟨f, s⟩⟩⟩
    · simp [bang]
    · simp [hyphen]
    · simp [hyphen]
    · exact Iff.rfl
  simp only [readSymbol_eq, head, take]

include like near far in
/-- **A token that does not stick to a shorthand** is read before the text in its place too. -/
theorem read_swap (h : read c (t ++ (x ++ m :: y)) = (k, t.length)) :
    read c (t ++ (x ++ 'r' :: y')) = (k, t.length) := by
  by_cases apart : c = '-' ∧ t ++ x = [] ∧ m = '#'
  · -- a hyphen before digits sticks
    obtain ⟨rfl, empty, rfl⟩ := apart
    obtain ⟨rfl, rfl⟩ := List.append_eq_nil_iff.mp empty
    have token : Token.symbol = k := congrArg Prod.fst h
    have near := near rfl rfl
    rw [← token] at near
    exact absurd near (by decide)
  · rw [read_eq] at h ⊢
    have start : start c (t ++ (x ++ 'r' :: y')) = start c (t ++ (x ++ m :: y)) := by
      rw [← List.append_assoc, ← List.append_assoc]
      exact start_swap like y' apart
    have within : t.length ≤ (t ++ x).length := (List.prefix_append t x).length_le
    rw [start]
    have fits := start_fits c (t ++ (x ++ m :: y))
    cases found : Token.start c (t ++ (x ++ m :: y)) with
    | mark r => rw [found] at h; exact h
    | arrow => rw [found] at h; exact h
    | space =>
      rw [found] at h
      simp only [readAs] at h ⊢
      rw [← List.append_assoc, takeWhile_boundary like.space] at h
      rw [← List.append_assoc, takeWhile_boundary (by decide)]
      exact h
    | quote =>
      rw [found] at h
      simp only [readAs] at h ⊢
      rw [← List.append_assoc] at h ⊢
      have length : (stringExtent c 0 (t ++ x ++ m :: y)).length = t.length := congrArg Prod.snd h
      rw [stringExtent_inside (t := y) like.newline (by omega) rfl]
      exact h
    | comment =>
      rw [found] at h fits
      simp only [readAs] at h ⊢
      have size : (commentExtent ((t ++ (x ++ m :: y)).drop 1)).length + 1 = t.length := congrArg Prod.snd h
      have slash : m ≠ '/' := like.char (p := fun m => m ≠ '/') (by decide)
      cases t with
      | nil => cases size
      | cons d t =>
        simp only [List.cons_append, List.drop_succ_cons, List.drop_zero, ← List.append_assoc t,
          List.length_cons] at h size ⊢
        rw [commentExtent_inside (t := y) slash (by rw [List.length_append]; omega) (by simp)]
        exact h
    | hash => rw [found] at h fits; exact readHash_swap like near y' fits h
    | atSign => rw [found] at h fits; exact readAtSign_swap like near far y' fits h
    | number => rw [found] at h fits; exact readNumber_swap like near far y' fits h
    | name => rw [found] at h fits; exact readName_swap like near y' fits h
    | other =>
      rw [found] at h
      simp only [readAs] at h ⊢
      rw [← List.append_assoc] at h ⊢
      rw [readSymbol_swap like y']
      exact h

end Token

/-- **A lexeme that does not stick to a shorthand** is read before the text in its place too. -/
theorem Lexeme.Reads.swap {l : Lexeme} {x y : Text} {m : Char} (h : l.Reads (x ++ m :: y))
    (like : LikeShorthand m y) (near : x = [] → m = '#' → l.sticks = false)
    (far : x = ['-'] → m = '#' → l.sticksFar = false) (y' : Text) : l.Reads (x ++ 'r' :: y') := by
  obtain ⟨k, c, t, rfl, read⟩ := h.read (by simp)
  exact reads_of_read (Token.read_swap like near far y' read)

/-- **Lexemes that do not stick to a shorthand** are read before the text in its place too. -/
theorem Lexed.swap {ls : List Lexeme} {x y : Text} {m : Char} (h : Lexed ls (x ++ m :: y)) (like : LikeShorthand m y)
    (near : ∀ l ∈ ls.getLast?, x = [] → m = '#' → l.sticks = false)
    (far : ∀ l ∈ ls.getLast?, x = ['-'] → m = '#' → l.sticksFar = false) (y' : Text) : Lexed ls (x ++ 'r' :: y') := by
  induction ls with
  | nil => exact .nil _
  | cons l ls ih =>
    obtain ⟨reads, behind⟩ := h.uncons
    by_cases last : ls = []
    · subst last
      exact .cons (reads.swap like (near l rfl) (far l rfl) y') (.nil _)
    · have same : (l :: ls).getLast? = ls.getLast? := by
        obtain ⟨q, ls, rfl⟩ := List.exists_cons_of_ne_nil last
        exact List.getLast?_cons_cons
      rw [same] at near far
      rw [← List.append_assoc] at reads
      refine .cons ?_ (ih behind near far)
      rw [← List.append_assoc]
      refine reads.swap like (fun empty => ?_) (fun hyphen hash => ?_) y'
      · exact absurd (behind.eq_nil (List.append_eq_nil_iff.mp empty).1) last
      · -- a hyphen alone before digits is one lexeme, and sticks to them
        subst hash
        rcases List.append_eq_singleton_iff.mp hyphen with ⟨empty, -⟩ | ⟨text, rfl⟩
        · exact absurd (behind.eq_nil empty) last
        obtain ⟨q, ls, rfl⟩ := List.exists_cons_of_ne_nil last
        obtain ⟨reads, more⟩ := behind.uncons
        rw [Lexeme.textOf_cons] at text
        obtain ⟨k, t⟩ := q
        rcases List.append_eq_singleton_iff.mp text with ⟨empty, -⟩ | ⟨rfl, none_behind⟩
        · exact absurd empty reads.1
        obtain rfl := more.eq_nil none_behind
        obtain rfl : Token.symbol = k := reads.token
        exact Bool.noConfusion (near _ rfl rfl rfl)

/-! ## Texts alike -/

/-- `Alike near far s s'` = whether `s'` is `s`, or `s` up to a shorthand of it where `s'` goes on with an
    `r`.  The shorthand may be one of digits at the start of `s` only if `near`, and right behind a hyphen
    at the start only if `far`. -/
def Alike (near far : Prop) (s s' : Text) : Prop :=
  s' = s ∨ ∃ x m y y', s = x ++ m :: y ∧ s' = x ++ 'r' :: y' ∧ LikeShorthand m y
    ∧ (x = [] → m = '#' → near) ∧ (x = ['-'] → m = '#' → far)

namespace Alike

variable {near far : Prop} {s s' : Text}

theorem refl (near far : Prop) (s : Text) : Alike near far s s := .inl rfl

/-- A shorthand in place of which the other text goes on. -/
theorem swap {m : Char} {y : Text} (like : LikeShorthand m y) (start : m = '#' → near) (y' : Text) :
    Alike near far (m :: y) ('r' :: y') :=
  .inr ⟨[], m, y, y', rfl, rfl, like, fun _ => start, by simp⟩

/-- Digits at the start. -/
theorem digits (y z : Text) : Alike True False ('#' :: y) ('r' :: z) := swap (.inl rfl) (fun _ => trivial) z

theorem eq_nil (h : Alike near far [] s') : s' = [] := by
  rcases h with rfl | ⟨x, m, y, y', eq, -⟩
  · rfl
  · simp at eq

theorem imp {near' far' : Prop} (h : Alike near far s s') (hn : near → near') (hf : far → far') :
    Alike near' far' s s' := by
  rcases h with rfl | ⟨x, m, y, y', eq, eq', like, n, f⟩
  · exact refl _ _ _
  · exact .inr ⟨x, m, y, y', eq, eq', like, fun hx hm => hn (n hx hm), fun hx hm => hf (f hx hm)⟩

/-- Behind the same text, what was at the start is behind a hyphen at most. -/
theorem append (h : Alike near far s s') {a : Text} (ha : a ≠ []) :
    Alike False (a = ['-'] ∧ near) (a ++ s) (a ++ s') := by
  rcases h with rfl | ⟨x, m, y, y', rfl, rfl, like, n, f⟩
  · exact refl _ _ _
  · refine .inr ⟨a ++ x, m, y, y', (List.append_assoc ..).symm, (List.append_assoc ..).symm, like, ?_, ?_⟩
    · intro empty
      exact absurd (List.append_eq_nil_iff.mp empty).1 ha
    · intro hyphen hm
      rcases List.append_eq_singleton_iff.mp hyphen with ⟨empty, -⟩ | ⟨rfl, rfl⟩
      · exact absurd empty ha
      · exact ⟨rfl, n rfl hm⟩

/-- What is not at the start stays so. -/
theorem behind (h : Alike False False s s') (a : Text) : Alike False False (a ++ s) (a ++ s') := by
  by_cases ha : a = []
  · subst ha
    exact h
  · exact (h.append ha).imp id fun h => h.2

end Alike

/-- **A lexeme that does not stick** is read before a text alike too. -/
theorem Lexeme.Reads.alike {l : Lexeme} {near far : Prop} {s s' : Text} (h : l.Reads s)
    (alike : Alike near far s s') (hn : near → l.sticks = false) (hf : far → l.sticksFar = false) :
    l.Reads s' := by
  rcases alike with rfl | ⟨x, m, y, y', rfl, rfl, like, n, f⟩
  · exact h
  · exact h.swap like (fun hx hm => hn (n hx hm)) (fun hx hm => hf (f hx hm)) y'

end Translucent
