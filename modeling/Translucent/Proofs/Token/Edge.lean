import Translucent.Proofs.Token.Swap

/-!
  # Tokens before an edge

  What is read within the first part of a text does not depend on the second part, if that starts with a
  character that ends every token, or is empty.

  1. **Edges** — firm characters (`isFirm`) belong to no name, no number and no group of marks, and end what stands
     before them; `Stop` is a text that starts with one or is empty.
  2. **Measures** — each of them is the same before all stops.
  3. **Reading** — `read_stop`, and `Reads.stop` for a lexeme with more text behind it; `lexeme_plain` for the
     first lexeme of a plain text.
  4. **Texts that part** — `Parted`: two texts that are equal, or equal up to and including a firm character.
     No token before them tells them apart (`Reads.parted`, `Lexed.parted`, `Parted.nameLength`).
-/

namespace Translucent

/-! ## Edges -/

/-- Whether a character ends whatever stands before it. -/
def Character.isFirm (c : Char) : Bool :=
  [':', ';', ',', '#', '[', '\x7b', ')', ']', '\x7d'].contains c

/-- Whether a text starts with a character that ends what stands before it, or is empty. -/
def Stop (z : Text) : Prop := ∀ c ∈ z.head?, Character.isFirm c = true

/-- Whether what was read before the text `m :: y` was ended by `m`: a firm character, or the start of what
    looks like a shorthand. -/
def Ended (m : Char) (y : Text) : Prop := Character.isFirm m = true ∨ LikeShorthand m y

theorem stop_nil : Stop [] := fun _ h => absurd h (by simp)

theorem stop_cons {m : Char} (firm : Character.isFirm m = true) (y : Text) : Stop (m :: y) :=
  fun _ h => Option.some.inj h ▸ firm

/-- Whether a property is one of all firm characters, found by looking at each of them. -/
def Character.eachFirm (p : Char → Prop) [DecidablePred p] : Bool :=
  [':', ';', ',', '#', '[', '\x7b', ')', ']', '\x7d'].all fun c => decide (p c)

/-- A property of all firm characters. -/
theorem Character.firm_char {m : Char} (firm : Character.isFirm m = true) {p : Char → Prop} [DecidablePred p]
    (h : Character.eachFirm p = true) : p m :=
  of_decide_eq_true (List.all_eq_true.mp h m (List.contains_iff_mem.mp firm))

/-- Firm characters belong to no name. -/
theorem nameLength_firm {m : Char} (firm : Character.isFirm m = true) (y : Text) :
    nameLength 0 (m :: y) = 0 := by
  have name : Character.isNameChar m = false :=
    Character.firm_char (p := fun m => Character.isNameChar m = false) firm (by decide)
  have slash : m ≠ '\\' := Character.firm_char (p := fun m => m ≠ '\\') firm (by decide)
  rw [nameLength_zero, if_neg (by rw [name]; exact Bool.false_ne_true), if_neg fun h => slash h.1]

namespace Ended

variable {m : Char} {y : Text}

/-- A property of all characters that end a token here. -/
theorem char {p : Char → Prop} [DecidablePred p] (edge : Ended m y) (firm : Character.eachFirm p = true)
    (like : p 'b' ∧ p 'w' ∧ p 'r' ∧ p '\\') : p m := by
  rcases edge with h | h
  · exact Character.firm_char h firm
  · exact h.char ⟨Character.firm_char (m := '#') rfl firm, like⟩

theorem newline (edge : Ended m y) : startsNewline (m :: y) = false :=
  edge.char (p := fun m => Character.isNewline m = false) (by decide) (by decide)

theorem numberChar (edge : Ended m y) : Character.isNumberChar m = false :=
  edge.char (p := fun m => Character.isNumberChar m = false) (by decide) (by decide)

theorem space (edge : Ended m y) : Character.isSpace m = false :=
  edge.char (p := fun m => Character.isSpace m = false) (by decide) (by decide)

theorem quote (edge : Ended m y) : Character.isQuote m = false :=
  edge.char (p := fun m => Character.isQuote m = false) (by decide) (by decide)

/-- What does not go on a name starts none. -/
theorem firm (edge : Ended m y) (h : nameLength 0 (m :: y) = 0) : Character.isFirm m = true := by
  rcases edge with firm | like
  · exact firm
  · by_cases hash : m = '#'
    · subst hash
      rfl
    · exact absurd h (Nat.ne_of_gt (like.nameLength_pos hash))

end Ended

/-- A quotation mark is looked for up to the first character that is no white space. -/
theorem quoteFollows_boundary {m : Char} {y : Text} (space : Character.isSpace m = false)
    (quote : Character.isQuote m = false) (w : Text) : quoteFollows (w ++ m :: y) = quoteFollows w := by
  induction w with
  | nil =>
    rw [List.nil_append, quoteFollows, List.dropWhile_cons_of_neg (by rw [space]; exact Bool.false_ne_true)]
    exact quote
  | cons c w ih =>
    rw [List.cons_append, quoteFollows, quoteFollows]
    by_cases space : Character.isSpace c = true
    · rw [List.dropWhile_cons_of_pos space, List.dropWhile_cons_of_pos space]
      exact ih
    · rw [List.dropWhile_cons_of_neg space, List.dropWhile_cons_of_neg space]
      rfl

namespace Stop

variable {z : Text}

/-- A property of all firm characters. -/
theorem head {p : Char → Prop} [DecidablePred p] (stop : Stop z) (h : Character.eachFirm p = true) :
    ∀ c ∈ z.head?, p c :=
  fun c hc => Character.firm_char (stop c hc) h

theorem newline (stop : Stop z) : startsNewline z = false := by
  cases z with
  | nil => rfl
  | cons c z => exact stop.head (p := fun m => Character.isNewline m = false) (by decide) c rfl

theorem ne (stop : Stop z) {d : Char} (hd : Character.isFirm d = false) : z.head? ≠ some d := by
  intro h
  rw [stop d h] at hd
  cases hd

/-! ## Measures -/

variable (stop : Stop z)
include stop

/-- Whoever looks for a character that is not firm does not find it at a stop. -/
theorem head?_append {d : Char} (hd : Character.isFirm d = false) (w : Text) :
    (w ++ z).head? = some d ↔ w.head? = some d := by
  cases w with
  | nil => exact iff_of_false (stop.ne hd) (by simp)
  | cons c w => exact Iff.rfl

/-- Neither is one of the groups of marks found across a stop. -/
theorem take_append {g : Text} (hg : g.any Character.isFirm = false) (w : Text) :
    (w ++ z).take g.length = g ↔ w.take g.length = g := by
  induction g generalizing w with
  | nil => simp
  | cons e g ih =>
    rw [List.any_cons, Bool.or_eq_false_iff] at hg
    cases w with
    | nil =>
      rw [List.nil_append]
      refine iff_of_false (fun h => ?_) (by simp)
      cases z with
      | nil => simp at h
      | cons c z =>
        rw [List.length_cons, List.take_succ_cons] at h
        injection h with h
        exact stop.ne hg.1 (h ▸ rfl)
    | cons c w =>
      simp only [List.cons_append, List.length_cons, List.take_succ_cons, List.cons.injEq]
      rw [ih hg.2 w]

theorem takeWhile_append {p : Char → Bool} (hp : Character.eachFirm (p · = false) = true) (w : Text) :
    (w ++ z).takeWhile p = w.takeWhile p := by
  cases z with
  | nil => rw [List.append_nil]
  | cons m y => exact takeWhile_boundary (stop.head (p := fun c => p c = false) hp m rfl) w

theorem numberLength_append (w : Text) : numberLength (w ++ z) = numberLength w := by
  cases z with
  | nil => rw [List.append_nil]
  | cons m y =>
    exact numberLength_boundary
      (stop.head (p := fun m => Character.isNumberChar m = false) (by decide) m rfl) w

theorem startsNumber_append (w : Text) : startsNumber (w ++ z) = startsNumber w := by
  cases z with
  | nil => rw [List.append_nil]
  | cons m y =>
    exact startsNumber_boundary
      (stop.head (p := fun m => Character.isNumberChar m = false) (by decide) m rfl) w

theorem startsNewline_append (w : Text) : startsNewline (w ++ z) = startsNewline w := by
  cases w with
  | nil => exact stop.newline
  | cons c w => rfl

/-- No name starts at a stop or goes on there. -/
theorem startsName_append (w : Text) : startsName (w ++ z) = startsName w := by
  rcases w with _ | ⟨c, w⟩
  · cases z with
    | nil => rfl
    | cons m y =>
      have slash : m ≠ '\\' := stop.head (p := fun m => m ≠ '\\') (by decide) m rfl
      have hyphen : m ≠ '-' := stop.head (p := fun m => m ≠ '-') (by decide) m rfl
      show startsName (m :: y) = false
      rw [startsName_other hyphen slash]
      exact stop.head (p := fun m => Character.isNameStart m = false) (by decide) m rfl
  · rw [List.cons_append]
    by_cases hyphen : c = '-'
    · subst hyphen
      cases w with
      | cons d w => rfl
      | nil =>
        cases z with
        | nil => rfl
        | cons m y =>
          show (Character.isNameStart m || m == '-' || m == '\\') = false
          exact stop.head (p := fun m => (Character.isNameStart m || m == '-' || m == '\\') = false)
            (by decide) m rfl
    by_cases slash : c = '\\'
    · subst slash
      exact congrArg (!·) (stop.startsNewline_append w)
    · rw [startsName_other hyphen slash, startsName_other hyphen slash]

theorem quoteFollows_append (w : Text) : quoteFollows (w ++ z) = quoteFollows w := by
  cases z with
  | nil => rw [List.append_nil]
  | cons m y =>
    exact quoteFollows_boundary (stop.head (p := fun m => Character.isSpace m = false) (by decide) m rfl)
      (stop.head (p := fun m => Character.isQuote m = false) (by decide) m rfl) w

end Stop

/-- A name that ends where a firm character follows ends there with the text, too. -/
theorem nameLength_ended {m : Char} {y : Text} (firm : Character.isFirm m = true) {k : Nat} {w : Text}
    (h : nameLength k (w ++ m :: y) = w.length) : nameLength k w = w.length := by
  have hex : isHexDigit m = false := Character.firm_char (p := fun m => isHexDigit m = false) firm (by decide)
  have space : Character.isSpace m = false :=
    Character.firm_char (p := fun m => Character.isSpace m = false) firm (by decide)
  induction w generalizing k with
  | nil => rfl
  | cons c w ih =>
    rw [List.cons_append, List.length_cons] at h
    rw [List.length_cons]
    cases k with
    | succ k =>
      rw [nameLength] at h ⊢
      rw [ih (by omega)]
    | zero =>
      rw [nameLength_zero] at h ⊢
      split
      · next name =>
        rw [if_pos name] at h
        rw [ih (by omega)]
      · next name =>
        rw [if_neg name, startsNewline_append (Ended.newline (Or.inl firm)) (show startsNewline [] = false from rfl),
          List.append_nil] at h
        split
        · next escape =>
          rw [if_pos escape, escapeLength_boundary hex space] at h
          by_cases last : w = []
          · -- the escape would take in the firm character
            subst last
            simp [nameLength] at h
          · rw [if_neg last] at h
            rw [ih (by omega)]
        · next escape =>
          rw [if_neg escape] at h
          omega

/-- What starts with more than a hyphen starts with a name, or not, whatever follows. -/
theorem startsName_long {w z z' : Text} (some_text : w ≠ []) (hyphen : w ≠ ['-'])
    (hz : startsNewline z = false) (hz' : startsNewline z' = false) :
    startsName (w ++ z) = startsName (w ++ z') := by
  obtain ⟨c, w, rfl⟩ := List.exists_cons_of_ne_nil some_text
  rw [List.cons_append, List.cons_append]
  by_cases slash : c = '\\'
  · subst slash
    exact congrArg (!·) (startsNewline_append hz hz')
  by_cases dash : c = '-'
  · subst dash
    cases w with
    | nil => exact absurd rfl hyphen
    | cons d w => rfl
  · rw [startsName_other dash slash, startsName_other dash slash]

section Measures

variable {m : Char} {y z w : Text} (edge : Ended m y) (stop : Stop z)
include edge stop

/-- A name that ends within `w` or at its end does so before all stops. -/
theorem nameLength_stop (h : nameLength 0 (w ++ m :: y) ≤ w.length) :
    nameLength 0 (w ++ z) = nameLength 0 (w ++ m :: y) := by
  rcases nameLength_end h with lt | none
  · exact nameLength_inside lt edge.newline stop.newline
  · have firm := edge.firm none
    rcases Nat.lt_or_eq_of_le h with lt | eq
    · exact nameLength_inside lt edge.newline stop.newline
    · rw [eq]
      cases z with
      | nil => rw [List.append_nil]; exact nameLength_ended firm eq
      | cons m' y' =>
        have firm' := stop m' rfl
        have hex {c : Char} (h : Character.isFirm c = true) : isHexDigit c = false :=
          Character.firm_char (p := fun m => isHexDigit m = false) h (by decide)
        have space {c : Char} (h : Character.isFirm c = true) : Character.isSpace c = false :=
          Character.firm_char (p := fun m => Character.isSpace m = false) h (by decide)
        rw [nameLength_extend (hex firm) (space firm) (hex firm') (space firm') eq, nameLength_firm firm']
        rfl

omit edge stop in
/-- What stands within `w` is taken from it. -/
theorem take_within {n : Nat} (h : n ≤ w.length) (z : Text) : (w ++ z).take n = w.take n :=
  List.take_append_of_le_length h

end Measures

/-! ## Reading -/

namespace Token

variable {c m : Char} {y z w : Text} (edge : Ended m y) (stop : Stop z)
include edge stop

/-- A token starts alike, unless a name goes on from a hyphen. -/
theorem start_stop (h : w = [] → c = '-' → Character.isFirm m = true) :
    start c (w ++ z) = start c (w ++ m :: y) := by
  have number : startsNumber (c :: (w ++ z)) = startsNumber (c :: (w ++ m :: y)) := by
    rw [← List.cons_append, ← List.cons_append, stop.startsNumber_append, startsNumber_boundary edge.numberChar]
  have star : m ≠ '*' := edge.char (p := fun m => m ≠ '*') (by decide) (by decide)
  have hyphen : m ≠ '-' := edge.char (p := fun m => m ≠ '-') (by decide) (by decide)
  have greater : m ≠ '>' := edge.char (p := fun m => m ≠ '>') (by decide) (by decide)
  have comment : (w ++ z).head? = some '*' ↔ (w ++ m :: y).head? = some '*' := by
    rw [stop.head?_append (by decide)]
    cases w with
    | nil => simp [star]
    | cons d w => exact Iff.rfl
  have arrow : (w ++ z).take 2 = ['-', '>'] ↔ (w ++ m :: y).take 2 = ['-', '>'] := by
    refine (stop.take_append (g := ['-', '>']) (by decide) w).trans ?_
    rcases w with _ | ⟨d, _ | ⟨e, w⟩⟩
    · simp [hyphen]
    · simp [greater]
    · exact Iff.rfl
  have name : startsName (c :: (w ++ z)) = startsName (c :: (w ++ m :: y)) := by
    by_cases hyphen : c :: w = ['-']
    · obtain ⟨rfl, rfl⟩ := List.cons.inj hyphen
      have firm := stop_cons (h rfl rfl) y
      exact (stop.startsName_append ['-']).trans (firm.startsName_append ['-']).symm
    · exact startsName_long (List.cons_ne_nil c w) hyphen stop.newline edge.newline
  unfold start
  simp only [number, name, comment, arrow]

/-- A name starts before all stops or before none, unless what follows starts it. -/
theorem startsName_stop (h : startsName (w ++ m :: y) = true → nameLength 0 (w ++ m :: y) ≤ w.length) :
    startsName (w ++ z) = startsName (w ++ m :: y) := by
  by_cases short : w = [] ∨ w = ['-']
  · -- there is no name in `w`, so that none starts here
    have none_starts : startsName (w ++ m :: y) = false := by
      apply Bool.eq_false_iff.mpr
      intro starts
      have within := h starts
      have firm : Character.isFirm m = true := by
        rcases nameLength_end within with lt | none
        · rcases short with rfl | rfl
          · simp at lt
          · have positive := nameLength_pos (c := '-') (s := m :: y) starts
            exact absurd lt (by simp only [List.length_singleton, List.cons_append, List.nil_append]; omega)
        · exact edge.firm none
      rw [(stop_cons firm y).startsName_append] at starts
      rcases short with rfl | rfl <;> cases starts
    rw [none_starts, stop.startsName_append]
    rcases short with rfl | rfl <;> rfl
  · rw [not_or] at short
    exact startsName_long short.1 short.2 stop.newline edge.newline

theorem readHash_stop (within : (readHash (w ++ m :: y)).2 ≤ w.length) :
    readHash (w ++ z) = readHash (w ++ m :: y) := by
  have within : startsHash (w ++ m :: y) = true → nameLength 0 (w ++ m :: y) ≤ w.length := by
    intro starts
    rw [readHash_eq, if_pos starts] at within
    exact within
  have first : ((w ++ z).head?.map fun c => c.isDigit || c == '-').getD false
      = ((w ++ m :: y).head?.map fun c => c.isDigit || c == '-').getD false := by
    cases w with
    | cons d w => rfl
    | nil =>
      have here : (m.isDigit || m == '-') = false :=
        edge.char (p := fun m => (m.isDigit || m == '-') = false) (by decide) (by decide)
      cases z with
      | nil => exact here.symm
      | cons m' z =>
        exact (stop.head (p := fun m => (m.isDigit || m == '-') = false) (by decide) m' rfl).trans here.symm
  have name : startsName (w ++ z) = startsName (w ++ m :: y) :=
    startsName_stop edge stop fun starts => within (by rw [startsHash, starts]; rfl)
  have starts : startsHash (w ++ z) = startsHash (w ++ m :: y) := by
    rw [startsHash, startsHash, name, first]
  rw [readHash_eq, readHash_eq, starts]
  split
  · next found =>
    have length := nameLength_stop edge stop (within found)
    rw [length, take_within (within found), take_within (within found)]
  · rfl

theorem readAtSign_stop (within : (readAtSign (w ++ m :: y)).2 ≤ w.length) :
    readAtSign (w ++ z) = readAtSign (w ++ m :: y) := by
  unfold readAtSign at within ⊢
  have within : startsName (w ++ m :: y) = true → nameLength 0 (w ++ m :: y) ≤ w.length := by
    intro starts
    rw [if_pos starts] at within
    exact within
  rw [startsName_stop edge stop within]
  split
  · next found =>
    have length := nameLength_stop edge stop (within found)
    rw [length, take_within (within found), take_within (within found)]
  · rfl

theorem readNumber_stop (starts : startsNumber (c :: (w ++ m :: y)) = true)
    (within : (readNumber c (w ++ m :: y)).2 ≤ w.length) :
    readNumber c (w ++ z) = readNumber c (w ++ m :: y) := by
  have positive : 0 < numberLength (c :: w) :=
    numberLength_pos (startsNumber_boundary (t := y) edge.numberChar (c :: w) ▸ starts)
  have fits := numberLength_le (c :: w)
  have length : numberLength (c :: (w ++ z)) = numberLength (c :: w) := stop.numberLength_append (c :: w)
  have unit : (c :: (w ++ z)).drop (numberLength (c :: w)) = (c :: w).drop (numberLength (c :: w)) ++ z :=
    List.drop_append_of_le_length fits
  rw [readNumber_boundary edge.numberChar] at within ⊢
  unfold readNumber
  simp only [length, unit]
  rw [List.length_cons] at fits
  generalize numberLength (c :: w) = n at *
  have size : ((c :: w).drop n).length = w.length + 1 - n := List.length_drop
  generalize hu : (c :: w).drop n = u at *
  simp only [hu] at within ⊢
  have percent : m ≠ '%' := edge.char (p := fun m => m ≠ '%') (by decide) (by decide)
  have head : (u ++ m :: y).head? = some '%' ↔ (u ++ z).head? = some '%' := by
    rw [stop.head?_append (by decide)]
    cases u with
    | nil => simp [percent]
    | cons d u => exact Iff.rfl
  by_cases found : (u ++ m :: y).head? = some '%'
  · rw [if_pos found, if_pos (head.mp found)]
  · rw [if_neg found] at within ⊢
    rw [if_neg (mt head.mpr found)]
    -- the name of a unit ends before what follows
    have inside : startsName (u ++ m :: y) = true → nameLength 0 (u ++ m :: y) ≤ u.length := by
      intro name
      rw [if_pos name] at within
      dsimp only at within
      omega
    rw [startsName_stop edge stop inside]
    split
    · next name => rw [nameLength_stop edge stop (inside name)]
    · rfl

/-- Behind a name and its parenthesis, an address ends where it did. -/
theorem readName_stop_of_paren {n : Nat} {v : Text} (length : nameLength 0 (c :: (w ++ m :: y)) = n)
    (paren : (c :: w).drop n = '(' :: v) (within : (readName c (w ++ m :: y)).2 ≤ w.length) :
    readName c (w ++ z) = readName c (w ++ m :: y) := by
  have size := congrArg List.length paren
  rw [List.length_drop, List.length_cons, List.length_cons] at size
  have inside : n ≤ (c :: w).length := by rw [List.length_cons]; omega
  have behind (z : Text) : (c :: (w ++ z)).drop n = '(' :: (v ++ z) := by
    rw [← List.cons_append, List.drop_append_of_le_length inside, paren]
    rfl
  have name (z : Text) : (c :: (w ++ z)).take n = (c :: w).take n := take_within inside z
  have length' : nameLength 0 (c :: (w ++ z)) = n := by
    rw [← length]
    exact nameLength_stop (w := c :: w) edge stop (by rw [List.cons_append, length]; exact inside)
  have quote : quoteFollows (v ++ z) = quoteFollows (v ++ m :: y) := by
    rw [stop.quoteFollows_append, quoteFollows_boundary edge.space edge.quote]
  rw [readName_of_paren length (congrArg _ (name _)) (behind _)] at within ⊢
  rw [readName_of_paren length' (congrArg _ (name _)) (behind _), quote]
  split
  · next url =>
    rw [if_pos url] at within
    dsimp only at within
    have extent : (addressExtent .lead 0 (v ++ m :: y)).length ≤ v.length := by omega
    rw [addressExtent_inside extent]
  · rfl

theorem readName_stop (starts : startsName (c :: (w ++ m :: y)) = true)
    (within : (readName c (w ++ m :: y)).2 ≤ w.length) :
    readName c (w ++ z) = readName c (w ++ m :: y) := by
  have positive := nameLength_pos starts
  generalize length : nameLength 0 (c :: (w ++ m :: y)) = n at positive
  have paren_ne : m ≠ '(' := edge.char (p := fun m => m ≠ '(') (by decide) (by decide)
  by_cases paren : ((c :: (w ++ m :: y)).drop n).head? = some '('
  · -- the parenthesis stands in `w`
    obtain ⟨inner, behind⟩ : ∃ inner, (c :: (w ++ m :: y)).drop n = '(' :: inner :=
      List.head?_eq_some_iff.mp paren
    have le : n ≤ w.length := by
      rw [readName_of_paren length rfl behind] at within
      split at within
      · dsimp only at within
        omega
      · exact within
    rw [← List.cons_append, List.drop_append_of_le_length (Nat.le_succ_of_le le)] at behind
    cases before : (c :: w).drop n with
    | nil =>
      rw [before] at behind
      injection behind with head
      exact absurd head paren_ne
    | cons d v =>
      rw [before, List.cons_append] at behind
      injection behind with head
      subst head
      exact readName_stop_of_paren edge stop length before within
  · -- an identifier ends within `w`, and no parenthesis follows there
    rw [readName_of_ident length paren] at within ⊢
    have inside : n ≤ (c :: w).length := by
      dsimp only at within
      rw [List.length_cons]
      omega
    have length' : nameLength 0 (c :: (w ++ z)) = n := by
      rw [← length]
      exact nameLength_stop (w := c :: w) edge stop (by rw [List.cons_append, length]; exact inside)
    have paren' : ((c :: (w ++ z)).drop n).head? ≠ some '(' := by
      rw [← List.cons_append, List.drop_append_of_le_length inside] at paren ⊢
      rw [Ne, stop.head?_append (by decide)]
      intro found
      apply paren
      obtain ⟨v, before⟩ := List.head?_eq_some_iff.mp found
      rw [before]
      rfl
    rw [readName_of_ident length' paren', ← List.cons_append, ← List.cons_append, take_within inside,
      take_within inside]

theorem readSymbol_stop : readSymbol c (w ++ z) = readSymbol c (w ++ m :: y) := by
  have bang : m ≠ '!' := edge.char (p := fun m => m ≠ '!') (by decide) (by decide)
  have hyphen : m ≠ '-' := edge.char (p := fun m => m ≠ '-') (by decide) (by decide)
  have equal : m ≠ '=' := edge.char (p := fun m => m ≠ '=') (by decide) (by decide)
  have head : (w ++ z).head? = some '=' ↔ (w ++ m :: y).head? = some '=' := by
    rw [stop.head?_append (by decide)]
    cases w with
    | nil => simp [equal]
    | cons d w => exact Iff.rfl
  have take : (w ++ z).take 3 = ['!', '-', '-'] ↔ (w ++ m :: y).take 3 = ['!', '-', '-'] := by
    refine (stop.take_append (g := ['!', '-', '-']) (by decide) w).trans ?_
    rcases w with _ | ⟨d, _ | ⟨e, _ | ⟨f, w⟩⟩⟩
    · simp [bang]
    · simp [hyphen]
    · simp [hyphen]
    · exact Iff.rfl
  simp only [readSymbol_eq, head, take]

omit edge stop in
/-- What starts with a name has at least its length. -/
theorem nameLength_le_readName (c : Char) (s : Text) : nameLength 0 (c :: s) ≤ (readName c s).2 + 1 := by
  unfold readName
  dsimp only
  split
  · split <;> (dsimp only; omega)
  · dsimp only
    omega

/-- **What is read within a text** is read there before all stops. -/
theorem read_stop (within : (read c (w ++ m :: y)).2 ≤ w.length) :
    read c (w ++ z) = read c (w ++ m :: y) := by
  have apart : w = [] → c = '-' → Character.isFirm m = true := by
    rintro rfl rfl
    rcases edge with firm | like
    · exact firm
    · by_cases hash : m = '#'
      · subst hash; rfl
      · -- the hyphen would start a name, which takes in what follows
        exfalso
        have name : start '-' (m :: y) = .name := by
          rcases like with rfl | ⟨rfl | rfl | rfl | rfl, -⟩
          · exact absurd rfl hash
          all_goals rfl
        have positive := like.nameLength_pos hash
        have length : nameLength 0 ('-' :: m :: y) = nameLength 0 (m :: y) + 1 := rfl
        have long := nameLength_le_readName '-' (m :: y)
        rw [List.nil_append, read_eq, name] at within
        simp only [readAs, List.length_nil] at within
        omega
  rw [read_eq, read_eq, start_stop edge stop apart]
  rw [read_eq] at within
  have fits := start_fits c (w ++ m :: y)
  cases found : Token.start c (w ++ m :: y) with
  | mark r => rfl
  | arrow => rfl
  | space =>
    simp only [readAs]
    rw [stop.takeWhile_append (by decide), takeWhile_boundary edge.space]
  | quote =>
    rw [found] at within
    simp only [readAs] at within ⊢
    rw [stringExtent_inside edge.newline within stop.newline]
  | comment =>
    rw [found] at within fits
    simp only [readAs] at within ⊢
    have slash : m ≠ '/' := edge.char (p := fun m => m ≠ '/') (by decide) (by decide)
    cases w with
    | nil => simp at within
    | cons d w =>
      simp only [List.cons_append, List.drop_succ_cons, List.drop_zero, List.length_cons] at within ⊢
      rw [commentExtent_inside (t := y) slash (by omega) (stop.ne (by decide))]
  | hash => rw [found] at within; exact readHash_stop edge stop within
  | atSign => rw [found] at within; exact readAtSign_stop edge stop within
  | number => rw [found] at within fits; exact readNumber_stop edge stop fits within
  | name => rw [found] at within fits; exact readName_stop edge stop fits within
  | other => exact readSymbol_stop edge stop

end Token

/-- **A lexeme that ends before an edge** is read before all stops in its place. -/
theorem Lexeme.Reads.stop {l : Lexeme} {x y z : Text} {m : Char} (h : l.Reads (x ++ m :: y))
    (edge : Ended m y) (stop : Stop z) : l.Reads (x ++ z) := by
  obtain ⟨k, c, t, rfl, read⟩ := h.read (by simp)
  apply reads_of_read
  rw [← List.append_assoc] at read ⊢
  rw [← read]
  refine Token.read_stop edge stop ?_
  rw [read, List.length_append]
  exact Nat.le_add_right _ _

/-- Lexemes before an edge are read before all stops in its place. -/
theorem Lexed.stop {ls : List Lexeme} {y z : Text} {m : Char} (h : Lexed ls (m :: y)) (edge : Ended m y)
    (stop : Stop z) : Lexed ls z := by
  induction ls with
  | nil => exact .nil z
  | cons l ls ih => exact .cons (h.uncons.1.stop edge stop) (ih h.uncons.2)

/-- **The first lexeme of plain text** lies within it, whatever follows the text. -/
theorem lexeme_plain {c : Char} {s z : Text} (stop : Stop z)
    (plain : ∀ d ∈ c :: s, Character.isPlain d = true) {d : Nat}
    (balanced : parens d (c :: s) = some 0) :
    ∃ l s', c :: s = l.text ++ s' ∧ l.text ≠ [] ∧ l.Plain
      ∧ lexemes 0 (c :: (s ++ z)) = l :: lexemes 0 (s' ++ z) := by
  have firm : Ended ';' [] := .inl rfl
  obtain ⟨within, isPlain⟩ := Token.plainRead (t := []) plain balanced (.inl rfl)
  have read := Token.read_stop firm stop within
  rw [← read] at within isPlain
  refine ⟨_, s.drop (Token.read c (s ++ z)).2, ?_, ?_, isPlain, ?_⟩
  · rw [List.cons_append, List.take_append_drop]
  · exact List.cons_ne_nil _ _
  · rw [lexemes_cons, List.take_append_of_le_length within, List.drop_append_of_le_length within]

/-! ## Texts that part -/

/-- Whether two texts are equal, or equal up to and including a firm character. -/
def Parted (s s' : Text) : Prop :=
  s' = s ∨ ∃ x m y y', Character.isFirm m = true ∧ s = x ++ m :: y ∧ s' = x ++ m :: y'

namespace Parted

variable {s s' : Text}

theorem refl (s : Text) : Parted s s := .inl rfl

/-- Texts that start with the same firm character. -/
theorem cons {m : Char} (firm : Character.isFirm m = true) (y y' : Text) : Parted (m :: y) (m :: y') :=
  .inr ⟨[], m, y, y', firm, rfl, rfl⟩

/-- More of the same text in front. -/
theorem behind (h : Parted s s') (a : Text) : Parted (a ++ s) (a ++ s') := by
  rcases h with rfl | ⟨x, m, y, y', firm, rfl, rfl⟩
  · exact refl _
  · exact .inr ⟨a ++ x, m, y, y', firm, (List.append_assoc ..).symm, (List.append_assoc ..).symm⟩

theorem eq_nil (h : Parted [] s') : s' = [] := by
  rcases h with rfl | ⟨x, m, y, y', -, eq, -⟩
  · rfl
  · simp at eq

end Parted

/-- A lexeme before a text is read before a text that parts from it, too. -/
theorem Lexeme.Reads.parted {l : Lexeme} {s s' : Text} (h : l.Reads s) (parted : Parted s s') :
    l.Reads s' := by
  rcases parted with rfl | ⟨x, m, y, y', firm, rfl, rfl⟩
  · exact h
  · exact h.stop (.inl firm) (stop_cons firm y')

theorem Lexed.parted {ls : List Lexeme} {s s' : Text} (h : Lexed ls s) (parted : Parted s s') : Lexed ls s' := by
  induction ls with
  | nil => exact .nil s'
  | cons l ls ih => exact .cons (h.uncons.1.parted (parted.behind _)) (ih h.uncons.2)

/-- No name starts with a character depending on more than the next one. -/
theorem nameLength_head {c : Char} {s s' : Text} (h : nameLength 0 (c :: s) = 0)
    (next : s'.head?.any Character.isNewline = s.head?.any Character.isNewline) : nameLength 0 (c :: s') = 0 := by
  have head (s : Text) : s.head?.any Character.isNewline = startsNewline s := by cases s <;> rfl
  rw [head, head] at next
  rw [nameLength_zero] at h ⊢
  split at h
  · cases h
  · next name =>
    split at h
    · cases h
    · next escape =>
      rw [if_neg name, next, if_neg escape]

/-- Where no name goes on in a text, none goes on in a text that parts from it. -/
theorem Parted.nameLength {s s' : Text} (h : Parted s s') (none_here : nameLength 0 s = 0) : nameLength 0 s' = 0 := by
  rcases h with rfl | ⟨x, m, y, y', firm, rfl, rfl⟩
  · exact none_here
  · cases x with
    | nil => exact nameLength_firm firm y'
    | cons c x =>
      refine nameLength_head none_here ?_
      cases x <;> rfl

/-- Where no name goes on before a shorthand, none does before another text in its place. -/
theorem LikeShorthand.nameLength {m : Char} {y u : Text} (like : LikeShorthand m y) (some_text : u ≠ [])
    (h : nameLength 0 (u ++ m :: y) = 0) {n : Char} (newline : Character.isNewline n = false) (z : Text) :
    nameLength 0 (u ++ n :: z) = 0 := by
  obtain ⟨c, u, rfl⟩ := List.exists_cons_of_ne_nil some_text
  refine nameLength_head h ?_
  cases u with
  | nil => simp [like.newline, newline]
  | cons d u => rfl

end Translucent
