import Translucent.Proofs.Value.Replace
import Translucent.Proofs.Value.Standard

/-!
  # Expanding twice

  The expansion of a value holds no shorthands, so that expanding it again changes nothing.  The expansion
  has to be read anew: the name `rgba` may be taken for a part of the token before it, and what was kept
  must not become a shorthand next to what was written.

  1. **Clean rows** — `Clean`: nothing is found in a row, at any depth.
  2. **Rows without blocks** — a call that is searched does not become a shorthand, as what is written in
     place of one is a block.
  3. **What stands before digits** — which rows start with digits or with a hyphen and digits, and what
     in the row behind a hash decides whether it starts a shorthand.
  4. **Rows read again** — `Renewed`: what the new row has to keep of the old one so that the text around
     both is read alike; one lemma for each way a row can start.
  5. **Whole rows** — `exists_renewed`, by induction along the row.

  **Main statement** — `expand_once`.
-/

namespace Translucent

open Content

namespace Content

/-! ## Clean rows -/

/-- Whether nothing is found in a row, however deep it lies. -/
def Clean (c : Content) : Prop := ∀ depth start pos, c.occurrences depth start pos = []

theorem clean_nil : nil.Clean := fun _ _ _ => rfl

theorem clean_leaf {l : Lexeme} {rest : Content} (h : hexShorthand? l rest = none) (hr : rest.Clean) :
    (leaf l rest).Clean := by
  intro depth start pos
  rw [occurrences, h]
  exact hr depth _ _

/-- A block that is no shorthand, with nothing inside if it is searched. -/
theorem clean_block {o : Opener} {body : Content} {closed : Bool} (whole : whole? o body closed = none)
    (inside : isSearched o body = true → body.Clean) (t : Text) {rest : Content} (hr : rest.Clean) :
    (block o t body closed rest).Clean := by
  intro depth start pos
  by_cases deep : maxSearchDepth ≤ depth
  · exact (if_pos deep).trans (hr depth _ _)
  rw [Cursor.occurrences_block (Nat.not_le.mp deep)]
  dsimp only
  rw [hr depth, List.append_nil]
  cases o with
  | bracket b => exact inside rfl _ _ _
  | call name =>
    rcases Option.eq_none_or_eq_some (call? name body) with nothing | ⟨s, found⟩
    · simp only [nothing]
      cases color : CallName.colors.contains name with
      | true => rfl
      | false =>
        refine inside ?_ _ _ _
        rw [isSearched, nothing, color]
        rfl
    · simp only [whole?, found] at whole ⊢
      split
      · next ends => rw [if_pos ends] at whole; cases whole
      · rfl

/-- The arguments of the standard call are clean. -/
theorem clean_row (c : Color) : c.row.Clean := by
  have word (k : Token) (u : Text) (hk : ∀ digits, k ≠ .hash digits) {rest : Content} (hr : rest.Clean) :
      (leaf ⟨k, u⟩ rest).Clean := clean_leaf (hexShorthand?_of_ne hk rest) hr
  have channel (n : UInt8) {rest : Content} (hr : rest.Clean) : (Color.channelRow n rest).Clean :=
    word _ _ (by simp) (word _ _ (by simp) (word _ _ (by simp) hr))
  exact channel _ (channel _ (channel _ (word _ _ (by simp) clean_nil)))

/-! ## Rows without blocks -/

/-- Whether a row holds no blocks. -/
def Flat : Content → Prop
  | nil => True
  | leaf _ rest => Flat rest
  | block .. => False

theorem flat_of_significant {c : Content} (h : c.significant.Flat) : c.Flat := by
  induction c with
  | nil => trivial
  | leaf l rest ih =>
    rw [significant_leaf] at h
    split at h
    · exact ih h
    · exact ih h
  | block o t body closed rest => exact h

/-- Only `rgba` may hold a call. -/
theorem flat_of_call? {name : Text} {c : Content} {s : Shorthand} (h : call? name c = some s)
    (other : CallName.colors.contains name = false) : c.Flat := by
  apply flat_of_significant
  unfold call? at h
  split at h
  · unfold blackCall? at h
    split at h
    · next eq => rw [eq]; trivial
    · cases h
  split at h
  · unfold whiteCall? at h
    split at h
    · next eq => rw [eq]; trivial
    · next eq => rw [eq]; trivial
    · cases h
  split at h
  · next rgba =>
    rw [rgba] at other
    cases other
  · cases h

/-! ## What stands before digits -/

/-- Whether a row starts with a shorthand of digits. -/
def startsDigits : Content → Bool
  | leaf l rest => (hexShorthand? l rest).isSome
  | _ => false

/-- Whether a row starts with a hyphen and a shorthand of digits. -/
def startsHyphenDigits : Content → Bool
  | leaf l rest => l.text == ['-'] && rest.startsDigits
  | _ => false

theorem parts_of_startsDigits {c : Content} (h : c.startsDigits = true) :
    ∃ l n s after, c = leaf l (leaf n after) ∧ hexShorthand? l (leaf n after) = some (s, n) := by
  cases c with
  | nil => cases h
  | block o t body closed rest => cases h
  | leaf l rest =>
    obtain ⟨⟨s, n⟩, found⟩ := Option.isSome_iff_exists.mp h
    obtain ⟨-, -, after, rfl⟩ := parts_of_hexShorthand? found
    exact ⟨l, n, s, after, rfl, found⟩

theorem parts_of_startsHyphenDigits {c : Content} (h : c.startsHyphenDigits = true) :
    ∃ q rest, c = leaf q rest ∧ q.text = ['-'] ∧ rest.startsDigits = true := by
  cases c with
  | nil => cases h
  | block o t body closed rest => cases h
  | leaf q rest =>
    rw [startsHyphenDigits, Bool.and_eq_true, beq_iff_eq] at h
    exact ⟨q, rest, rfl, h⟩

/-- Before digits nothing starts a shorthand. -/
theorem hexShorthand?_of_startsDigits {c : Content} (h : c.startsDigits = true) (l : Lexeme) :
    hexShorthand? l c = none := by
  obtain ⟨l', n, s, after, rfl, found⟩ := parts_of_startsDigits h
  obtain ⟨⟨digits, hash⟩, -⟩ := parts_of_hexShorthand? found
  refine hexShorthand?_of_next (fun n' after' eq number => ?_) l
  injection eq with eq
  rw [← eq, hash] at number
  cases number

/-- What may follow a number decides last whether digits start a shorthand. -/
theorem hexShorthand?_of_ends {l n : Lexeme} {rest rest' : Content}
    (ends : rest'.mayEndColor = true → rest.mayEndColor = true)
    (h : hexShorthand? l (leaf n rest) = none) : hexShorthand? l (leaf n rest') = none := by
  cases token : l.token with
  | hash digits =>
    simp only [hexShorthand?, token] at h ⊢
    by_cases delimited : n.text.head? = some '.' ∧ rest'.mayEndColor = true
    · rw [if_pos ⟨delimited.1, ends delimited.2⟩] at h
      rw [if_pos delimited, h]
    · exact if_neg delimited
  | _ => exact hexShorthand?_of_ne (by rw [token]; simp) _

theorem hexShorthand?_block (l : Lexeme) (o : Opener) (t : Text) (body : Content) (closed : Bool)
    (rest : Content) : hexShorthand? l (block o t body closed rest) = none :=
  hexShorthand?_of_next (by simp) l

/-! ## Rows read again -/

/-- `Renewed stack tail tail' c w c'` = whether `c'` is the row that is read from `w` before `tail'`, where
    `c` was read before `tail`, and it is one that nothing is found in.  What stands before a row sees of it
    how its text starts, whether it has no blocks, whether it goes on digits before it, and whether a
    colour may end before it. -/
structure Renewed (stack : List Bracket) (tail tail' : Text) (c : Content) (w : Text) (c' : Content) :
    Prop where
  read : levels stack (lexemes 0 (w ++ tail')) = prepend c' (levels stack (lexemes 0 tail'))
  alike : Alike (c.startsDigits = true) (c.startsHyphenDigits = true) (c.text ++ tail) (w ++ tail')
  clean : c'.Clean
  flat : c'.Flat → c' = c
  digits : ∀ l, hexShorthand? l c = none → hexShorthand? l c' = none
  ends : c'.mayEndColor = true → c.mayEndColor = true

namespace Renewed

variable {stack : List Bracket} {tail tail' : Text} {c rest c' : Content} {w : Text}

theorem nil (alike : Alike False False tail tail') : Renewed stack tail tail' .nil [] .nil where
  read := rfl
  alike := alike.imp False.elim False.elim
  clean := clean_nil
  flat := fun _ => rfl
  digits := fun _ h => h
  ends := id

/-- A leaf that does not stick to what follows is kept. -/
theorem leaf {l : Lexeme} (reads : l.Reads (rest.text ++ tail)) (ho : ∀ o, l.token ≠ .opening o)
    (hc : ∀ b, l.token = .closing b → stack.head? ≠ some b) (nothing : hexShorthand? l rest = none)
    (near : rest.startsDigits = true → l.sticks = false)
    (far : rest.startsHyphenDigits = true → l.sticksFar = false)
    (h : Renewed stack tail tail' rest w c') :
    Renewed stack tail tail' (.leaf l rest) (l.text ++ w) (.leaf l c') where
  read := by
    have reads' := reads.alike h.alike near far
    rw [List.append_assoc, levels_leaf_of_reads reads' ho hc, h.read]
    rfl
  alike := by
    have alike := h.alike.append reads.1
    rw [text_leaf, List.append_assoc, List.append_assoc]
    refine alike.imp False.elim ?_
    intro hyphen
    rw [startsHyphenDigits, hyphen.1, hyphen.2]
    rfl
  clean := clean_leaf (h.digits l nothing) h.clean
  flat := fun flat => congrArg (Content.leaf l) (h.flat flat)
  digits := fun _ nothing => hexShorthand?_of_ends h.ends nothing
  ends := id

/-- What is written before the arguments of the standard call opens a call. -/
theorem call {name t out : Text} {color : Color} (h : Renewed stack tail tail' rest w c')
    (reads : Lexeme.Reads ⟨.opening (.call name), t⟩ (color.row.text ++ ')' :: (w ++ tail')))
    (written : out = t ++ (color.row.text ++ ')' :: w))
    (alike : Alike (c.startsDigits = true) (c.startsHyphenDigits = true) (c.text ++ tail) (out ++ tail')) :
    Renewed stack tail tail' c out (.block (.call name) t color.row true c') where
  read := by
    rw [written]
    simp only [List.append_assoc, List.cons_append]
    rw [color.levels_arguments rfl reads, h.read]
    rfl
  alike := alike
  clean := clean_block (by rw [whole?, color.call?_row, ite_self]) (fun _ => clean_row color) t h.clean
  flat := False.elim
  digits := fun l _ => hexShorthand?_block l _ _ _ _ _
  ends := fun h => absurd h Bool.false_ne_true

/-- What is written before the arguments is a token of its own, without their parenthesis. -/
theorem bare {k : Token} {t out : Text} {color : Color} (h : Renewed stack tail tail' rest w c')
    (name : k.endsInName = true)
    (reads : Lexeme.Reads ⟨k, t⟩ ('(' :: (color.row.text ++ ')' :: (w ++ tail'))))
    (written : out = t ++ ('(' :: (color.row.text ++ ')' :: w)))
    (alike : Alike (c.startsDigits = true) (c.startsHyphenDigits = true) (c.text ++ tail) (out ++ tail')) :
    Renewed stack tail tail' c out (.leaf ⟨k, t⟩ (.block (.bracket .round) ['('] color.row true c')) where
  read := by
    have bracket : Lexeme.Reads ⟨.opening (.bracket .round), ['(']⟩ (color.row.text ++ ')' :: (w ++ tail')) :=
      reads_mark rfl _
    have block := color.levels_arguments rfl bracket stack
    rw [written]
    simp only [List.append_assoc, List.cons_append, List.nil_append] at block ⊢
    rw [levels_leaf_of_reads reads ?_ ?_, block, h.read]
    · rfl
    · rintro o rfl; cases name
    · rintro b rfl; cases name
  alike := alike
  clean := clean_leaf (hexShorthand?_block _ _ _ _ _ _) (clean_block rfl (fun _ => clean_row color) _ h.clean)
  flat := False.elim
  digits := by
    intro l _
    refine hexShorthand?_of_next (fun n after eq number => ?_) l
    injection eq with eq
    rw [← eq] at number
    obtain rfl : k = .number := number
    cases name
  ends := by
    intro ends
    simp only [mayEndColor, Bool.or_eq_true, beq_iff_eq] at ends
    rcases ends with (rfl | rfl) | rfl <;> cases name

/-- The standard text in place of a shorthand is a call of its own. -/
theorem standard (color : Color) (h : Renewed stack tail tail' rest w c') {m : Char} {y : Text}
    (like : LikeShorthand m y) (text : c.text ++ tail = m :: y) (near : m = '#' → c.startsDigits = true) :
    Renewed stack tail tail' c (color.text ++ w)
      (.block (.call CallName.rgba) (CallName.rgba ++ ['(']) color.row true c') := by
  refine call h (Color.reads_standard _) ?_ ?_
  · rw [color.text_append, List.append_assoc]
    rfl
  · rw [text]
    exact Alike.swap like near _

/-- Digits with their number, where nothing sticks to them. -/
theorem ofDigits (color : Color) {l n : Lexeme} {s : Shorthand} {z : Text} (reads : l.Reads z)
    (found : hexShorthand? l (.leaf n rest) = some (s, n)) (h : Renewed stack tail tail' rest w c') :
    Renewed stack tail tail' (.leaf l (.leaf n rest)) (color.text ++ w)
      (.block (.call CallName.rgba) (CallName.rgba ++ ['(']) color.row true c') := by
  obtain ⟨⟨digits, hash⟩, -⟩ := parts_of_hexShorthand? found
  obtain ⟨t, text⟩ := reads.hash hash
  refine h.standard color (y := t ++ ((Content.leaf n rest).text ++ tail)) (.inl rfl) ?_ fun _ => ?_
  · rw [text_leaf, text]
    simp only [List.append_assoc, List.cons_append]
  · exact Option.isSome_iff_exists.mpr ⟨_, found⟩

/-- A call that is a shorthand. -/
theorem ofCall (color : Color) {name t : Text} {body : Content} {closed : Bool} {s : Shorthand}
    (reads : Lexeme.Reads ⟨.opening (.call name), t⟩
      (body.text ++ (closing (.call name) closed ++ (rest.text ++ tail))))
    (whole : whole? (.call name) body closed = some s) (h : Renewed stack tail tail' rest w c') :
    Renewed stack tail tail' (.block (.call name) t body closed rest) (color.text ++ w)
      (.block (.call CallName.rgba) (CallName.rgba ++ ['(']) color.row true c') := by
  obtain ⟨m, y, text, noHash, like⟩ := reads.call (head_of_whole? whole)
  refine h.standard color like ?_ fun hash => absurd hash noHash
  rw [← text]
  simp only [text_block, List.append_assoc]

/-- Digits behind a lexeme that sticks to them. -/
theorem ofStuck (color : Color) {p l n : Lexeme} {s : Shorthand}
    (reads : p.Reads ((Content.leaf l (.leaf n rest)).text ++ tail)) (sticks : p.sticks = true)
    {z : Text} (readsDigits : l.Reads z) (found : hexShorthand? l (.leaf n rest) = some (s, n))
    (h : Renewed stack tail tail' rest w c') :
    ∃ c'', Renewed stack tail tail' (.leaf p (.leaf l (.leaf n rest))) (p.text ++ (color.text ++ w)) c'' := by
  obtain ⟨⟨digits, hash⟩, -⟩ := parts_of_hexShorthand? found
  obtain ⟨t, text⟩ := readsDigits.hash hash
  obtain ⟨y, behind⟩ : ∃ y, (Content.leaf l (.leaf n rest)).text ++ tail = '#' :: y := by
    rw [text_leaf, text]
    exact ⟨_, rfl⟩
  rw [behind] at reads
  have alike : Alike ((Content.leaf p (.leaf l (.leaf n rest))).startsDigits = true)
      ((Content.leaf p (.leaf l (.leaf n rest))).startsHyphenDigits = true)
      ((Content.leaf p (.leaf l (.leaf n rest))).text ++ tail) ((p.text ++ (color.text ++ w)) ++ tail') := by
    rw [text_leaf, List.append_assoc, behind, List.append_assoc]
    refine ((Alike.digits y _).append reads.1).imp False.elim ?_
    intro hyphen
    rw [startsHyphenDigits, hyphen.1, startsDigits, found]
    rfl
  rcases reads.stuck sticks (color.row.text ++ ')' :: (w ++ tail')) with ⟨name, reads'⟩ | ⟨k, name, reads'⟩
  · refine ⟨_, call h reads' ?_ alike⟩
    rw [color.text_append]
    simp only [List.append_assoc, List.cons_append, List.nil_append]
  · refine ⟨_, bare h name reads' ?_ alike⟩
    rw [color.text_append, List.append_assoc]

/-- Digits behind a hyphen, behind a lexeme that sticks to both. -/
theorem ofStuckFar (color : Color) {p q l n : Lexeme} {s : Shorthand}
    (reads : p.Reads ((Content.leaf q (.leaf l (.leaf n rest))).text ++ tail)) (sticks : p.sticksFar = true)
    (hyphen : q.text = ['-']) {z : Text} (readsDigits : l.Reads z)
    (found : hexShorthand? l (.leaf n rest) = some (s, n)) (h : Renewed stack tail tail' rest w c') :
    ∃ c'', Renewed stack tail tail' (.leaf p (.leaf q (.leaf l (.leaf n rest))))
      (p.text ++ (q.text ++ (color.text ++ w))) c'' := by
  obtain ⟨⟨digits, hash⟩, -⟩ := parts_of_hexShorthand? found
  obtain ⟨t, text⟩ := readsDigits.hash hash
  obtain ⟨y, behind⟩ : ∃ y, (Content.leaf q (.leaf l (.leaf n rest))).text ++ tail = '-' :: '#' :: y := by
    rw [text_leaf, text_leaf, hyphen, text]
    exact ⟨_, rfl⟩
  rw [behind] at reads
  obtain ⟨k, name, reads'⟩ := reads.stuckFar sticks (color.row.text ++ ')' :: (w ++ tail'))
  refine ⟨_, bare h name reads' ?_ ?_⟩
  · rw [color.text_append, hyphen]
    simp only [List.append_assoc, List.cons_append, List.nil_append]
  · rw [text_leaf, List.append_assoc, behind, List.append_assoc, hyphen]
    -- the digits are not even right behind a hyphen at the start
    refine (((Alike.digits y _).append (a := ['-']) (by simp)).append reads.1).imp False.elim ?_
    intro far
    exact far.2.elim

/-- What follows a block that is kept is behind its closing bracket, or there is nothing. -/
theorem alike_closing (h : Renewed stack tail tail' rest w c') (o : Opener) {closed : Bool}
    (left : closed = false → rest = .nil ∧ tail = []) :
    Alike False False (closing o closed ++ (rest.text ++ tail)) (closing o closed ++ (w ++ tail'))
      ∧ (closed = false → w ++ tail' = []) := by
  have nothing (unclosed : closed = false) : rest.text ++ tail = [] ∧ w ++ tail' = [] := by
    have alike := h.alike
    obtain ⟨rfl, rfl⟩ := left unclosed
    exact ⟨rfl, alike.eq_nil⟩
  refine ⟨?_, fun unclosed => (nothing unclosed).2⟩
  cases closed with
  | false =>
    rw [(nothing rfl).1, (nothing rfl).2]
    exact Alike.refl _ _ _
  | true =>
    refine (h.alike.append (a := closing o true) (by simp [closing])).imp id ?_
    intro hyphen
    have char := hyphen.1
    rw [closing, if_pos rfl] at char
    cases hb : o.shape <;> rw [hb] at char <;> cases char

/-- A block that is kept, or that is searched. -/
theorem block {o : Opener} {t inner : Text} {body body' : Content} {closed : Bool}
    (reads : Lexeme.Reads ⟨.opening o, t⟩ (body.text ++ (closing o closed ++ (rest.text ++ tail))))
    (left : closed = false → rest = .nil ∧ tail = []) {near far : Prop}
    (alike : Alike near far (body.text ++ (closing o closed ++ (rest.text ++ tail)))
      (inner ++ (closing o closed ++ (w ++ tail'))))
    (readBody : levels (o.shape :: stack) (lexemes 0 (inner ++ (closing o closed ++ (w ++ tail'))))
      = prepend body' (levels (o.shape :: stack) (lexemes 0 (closing o closed ++ (w ++ tail')))))
    (whole : whole? o body' closed = none) (inside : isSearched o body' = true → body'.Clean)
    (h : Renewed stack tail tail' rest w c') :
    Renewed stack tail tail' (.block o t body closed rest) (t ++ (inner ++ (closing o closed ++ w)))
      (.block o t body' closed c') where
  read := by
    have reads' := reads.alike alike (fun _ => rfl) (fun _ => rfl)
    simp only [List.append_assoc]
    rw [levels_block_of_reads reads' readBody (h.alike_closing o left).2, h.read]
    rfl
  alike := by
    simp only [text_block, List.append_assoc]
    exact (alike.append reads.1).imp False.elim fun hyphen => absurd hyphen.1 reads.ne_hyphen
  clean := clean_block whole inside t h.clean
  flat := False.elim
  digits := fun l _ => hexShorthand?_block l _ _ _ _ _
  ends := fun h => absurd h Bool.false_ne_true

end Renewed

/-! ## Whole rows -/

/-- A block that is searched is no shorthand afterwards. -/
theorem whole?_of_renewed {o : Opener} {body body' : Content} (searched : isSearched o body = true)
    (flat : body'.Flat → body' = body) (closed : Bool) : whole? o body' closed = none := by
  cases o with
  | bracket b => rfl
  | call name =>
    simp only [isSearched, Bool.and_eq_true, Option.isNone_iff_eq_none, Bool.not_eq_true'] at searched
    cases found : call? name body' with
    | none => rw [whole?, found, ite_self]
    | some s =>
      rw [flat (flat_of_call? found searched.2), searched.1] at found
      cases found

/-- The text of a row with the standard text of its colour in place of each shorthand. -/
def rewritten (c : Content) : Text := c.replaced fun s => s.color.text

/-- **Each row is read again**: what is written for a spelled row is read as a row that nothing is found in. -/
theorem exists_renewed (c : Content) (stack : List Bracket) (tail tail' : Text)
    (spelled : c.Spelled stack tail) (alike : Alike False False tail tail') :
    ∃ c', Renewed stack tail tail' c c.rewritten c' := by
  -- by size, as a lexeme that sticks is one step with the shorthand behind it
  generalize size : sizeOf c = n
  induction n using Nat.strongRecOn generalizing c stack tail tail' with
  | ind n ih =>
    cases c with
    | nil => exact ⟨.nil, Renewed.nil alike⟩
    | leaf l rest =>
      obtain ⟨reads, ho, hc, spelled⟩ := spelled
      cases found : hexShorthand? l rest with
      | some r =>
        obtain ⟨s, number⟩ := r
        obtain ⟨-, -, after, rfl⟩ := parts_of_hexShorthand? found
        obtain ⟨-, -, -, spelled⟩ := spelled
        obtain ⟨c', h⟩ := ih _ (by simp at size; omega) after stack tail tail' spelled alike rfl
        rw [rewritten, replaced_digits _ found]
        exact ⟨_, h.ofDigits s.color reads found⟩
      | none =>
        rw [rewritten, replaced_leaf _ found]
        by_cases near : rest.startsDigits = true ∧ l.sticks = true
        · obtain ⟨l', number, s, after, rfl, found'⟩ := parts_of_startsDigits near.1
          obtain ⟨reads', -, -, -, -, -, spelled⟩ := spelled
          obtain ⟨c', h⟩ := ih _ (by simp at size; omega) after stack tail tail' spelled alike rfl
          rw [replaced_digits _ found']
          exact h.ofStuck s.color reads near.2 reads' found'
        by_cases far : rest.startsHyphenDigits = true ∧ l.sticksFar = true
        · obtain ⟨q, rest, rfl, hyphen, digits⟩ := parts_of_startsHyphenDigits far.1
          obtain ⟨l', number, s, after, rfl, found'⟩ := parts_of_startsDigits digits
          obtain ⟨-, -, -, reads', -, -, -, -, -, spelled⟩ := spelled
          obtain ⟨c', h⟩ := ih _ (by simp at size; omega) after stack tail tail' spelled alike rfl
          rw [replaced_leaf _ (hexShorthand?_of_startsDigits digits q), replaced_digits _ found']
          exact h.ofStuckFar s.color reads far.2 hyphen reads' found'
        · obtain ⟨c', h⟩ := ih _ (by simp at size; omega) rest stack tail tail' spelled alike rfl
          refine ⟨_, h.leaf reads ho hc found (fun digits => ?_) fun digits => ?_⟩
          · exact Bool.eq_false_iff.mpr fun sticks => near ⟨digits, sticks⟩
          · exact Bool.eq_false_iff.mpr fun sticks => far ⟨digits, sticks⟩
    | block o t body closed rest =>
      obtain ⟨reads, left, inside, spelled⟩ := spelled
      obtain ⟨c', h⟩ := ih _ (by simp at size; omega) rest stack tail tail' spelled alike rfl
      obtain ⟨behind, -⟩ := h.alike_closing o left
      rw [rewritten, replaced]
      cases whole : whole? o body closed with
      | some s =>
        cases o with
        | bracket b => cases whole
        | call name => exact ⟨_, h.ofCall s.color reads whole⟩
      | none =>
        dsimp only
        by_cases searched : isSearched o body = true
        · rw [if_pos searched]
          obtain ⟨body', hb⟩ := ih _ (by simp at size; omega) body (o.shape :: stack) _ _ inside behind rfl
          exact ⟨_, h.block reads left hb.alike hb.read (whole?_of_renewed searched hb.flat closed)
            fun _ => hb.clean⟩
        · rw [if_neg searched]
          exact ⟨_, h.block reads left (behind.behind body.text) (levels_of_spelled (inside.alike behind)) whole
            fun h => absurd h searched⟩

end Content

/-- Only black and white of opacity 1 have a standard text that is no call. -/
theorem Shorthand.standard_eq {s : Shorthand} (black : s ≠ .black .full) (white : s ≠ .white .full) :
    s.standard = s.color.text := by
  unfold standard solid?
  split
  · exact absurd rfl black
  · exact absurd rfl white
  · rfl

/-- **Expanding once is enough**: in a value without a block deeper than `maxSearchDepth`, and without black
    or white of opacity 1, nothing is left to expand after the first time. -/
theorem expand_once (v out : Text) (shallow : (ofText v).depth ≤ maxSearchDepth)
    (translucent : ∀ o ∈ occurrencesIn v, o.shorthand ≠ .black .full ∧ o.shorthand ≠ .white .full)
    (h : expand v = some out) : occurrencesIn out = [] ∧ expand out = none := by
  rw [expand_eq_replaced shallow] at h
  split at h
  · cases h
  have text : out = (ofText v).rewritten := by
    rw [← Option.some.inj h]
    apply replaced_congr (ofText v) 0
    intro o ho
    rw [← occurrences_outside shallow, ← occurrencesIn_eq] at ho
    exact Shorthand.standard_eq (translucent o ho).1 (translucent o ho).2
  obtain ⟨c', renewed⟩ := exists_renewed (ofText v) [] [] [] (spelled_ofText v) (Alike.refl _ _ _)
  have read : ofText out = c' := by
    have read := renewed.read
    rw [List.append_nil, ← text] at read
    rw [ofText, ofLexemes, read, content_prepend]
    exact append_nil c'
  have nothing : occurrencesIn out = [] := by
    rw [occurrencesIn_eq, read]
    exact renewed.clean 0 0 0
  exact ⟨nothing, by rw [expand, nothing]⟩

/-- Digits behind a name, which becomes that of a call, and a call in a call: `x#fff.5 f(white())`. -/
theorem expand_once_name_and_call :
    let v := ['x', '#', 'f', 'f', 'f', '.', '5', ' ', 'f', '(', 'w', 'h', 'i', 't', 'e', '(', ')', ')']
    let out := ['x', 'r', 'g', 'b', 'a', '(', '2', '5', '5', ',', ' ', '2', '5', '5', ',', ' ', '2', '5', '5',
      ',', ' ', '0', '.', '5', ')', ' ', 'f', '(', 'r', 'g', 'b', 'a', '(', '2', '5', '5', ',', ' ', '2', '5',
      '5', ',', ' ', '2', '5', '5', ',', ' ', '0', ')', ')']
    (ofText v).depth ≤ maxSearchDepth
      ∧ (∀ o ∈ occurrencesIn v, o.shorthand ≠ .black .full ∧ o.shorthand ≠ .white .full)
      ∧ expand v = some out ∧ occurrencesIn out = [] ∧ expand out = none := by
  intro v out
  have shallow : (ofText v).depth ≤ maxSearchDepth := by decide
  have found := (occurrencesIn_eq v).trans (occurrences_outside shallow)
  have translucent : ∀ o ∈ occurrencesIn v, o.shorthand ≠ .black .full ∧ o.shorthand ≠ .white .full := by
    rw [found]
    decide
  have expanded : expand v = some out := by
    rw [expand_eq_replaced shallow, found]
    decide
  exact ⟨shallow, translucent, expanded, expand_once v out shallow translucent expanded⟩

end Translucent
