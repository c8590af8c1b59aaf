import Translucent.Token.Lexer

/-!
  # How a token starts

  `Token.read` decides by the first characters of a text what to read, and then measures it.  The two
  steps apart:

  1. **Starts** — `Token.start` is the decision alone, `Token.readAs` reads on from it, and `read_eq` says
     that reading is the one behind the other.  A start says something about the first characters
     (`start_fits`), and about the token that is read (`start_of_read`).
  2. **Openers** — `text_of_call`: only names start calls, and a call is spelled with its parenthesis.
-/

namespace Translucent

namespace Token

/-! ## Starts -/

/-- What the first characters of a token tell. -/
inductive Start
  /-- A character that is a token by itself. -/
  | mark (t : Token)
  | space
  | quote
  | hash
  | atSign
  | comment
  | number
  /-- The start of `-->`. -/
  | arrow
  | name
  /-- Nothing of the above. -/
  | other
  deriving DecidableEq

/-- `start c s` = what a token that starts with `c` before `s` is read as. -/
def start (c : Char) (s : Text) : Start :=
  match mark? c with
  | some t => .mark t
  | none =>
    if Character.isSpace c then .space
    else if Character.isQuote c then .quote
    else if c = '#' then .hash
    else if c = '@' then .atSign
    else if c = '/' ∧ s.head? = some '*' then .comment
    else if startsNumber (c :: s) then .number
    else if c = '-' ∧ s.take 2 = ['-', '>'] then .arrow
    else if startsName (c :: s) then .name
    else .other

/-- The token behind an `@`. -/
def readAtSign (s : Text) : Token × Nat :=
  if startsName s then (.atKeyword (unescape 0 (s.take (nameLength 0 s))), nameLength 0 s)
  else (.symbol, 0)

/-- Whether a name follows a `#`: it may start with a digit there, or with any hyphen. -/
def startsHash (s : Text) : Bool :=
  startsName s || (s.head?.map fun c => c.isDigit || c == '-').getD false

theorem readHash_eq (s : Text) : readHash s =
    if startsHash s then (.hash (unescape 0 (s.take (nameLength 0 s))), nameLength 0 s)
    else (.symbol, 0) := rfl

/-- The token that starts with `c` before `s`, once it is known how. -/
def readAs (c : Char) (s : Text) : Start → Token × Nat
  | .mark t => (t, 0)
  | .space => (.space, (s.takeWhile Character.isSpace).length)
  | .quote => (.string (stringExtent c 0 s).closed, (stringExtent c 0 s).length)
  | .hash => readHash s
  | .atSign => readAtSign s
  | .comment => (.comment (commentExtent (s.drop 1)).closed, (commentExtent (s.drop 1)).length + 1)
  | .number => readNumber c s
  | .arrow => (.symbol, 2)
  | .name => readName c s
  | .other => readSymbol c s

/-- Reading is deciding and then measuring. -/
theorem read_eq (c : Char) (s : Text) : read c s = readAs c s (start c s) := by
  rw [read, start]
  cases mark? c with
  | some t => rfl
  | none =>
    dsimp only
    split
    · rfl
    split
    · rfl
    split
    · rfl
    split
    · rfl
    split
    · rfl
    split
    · rfl
    split
    · rfl
    split <;> rfl

/-- What a start says about the first characters. -/
def Start.Fits (c : Char) (s : Text) : Start → Prop
  | mark t => mark? c = some t
  | space => Character.isSpace c = true
  | quote => Character.isQuote c = true
  | hash => c = '#'
  | atSign => c = '@'
  | comment => c = '/' ∧ s.head? = some '*'
  | number => startsNumber (c :: s) = true
  | arrow => c = '-' ∧ s.take 2 = ['-', '>']
  | name => startsName (c :: s) = true
  | other => mark? c = none ∧ startsName (c :: s) = false

/-- **What a start says holds.** -/
theorem start_fits (c : Char) (s : Text) : (start c s).Fits c s := by
  unfold start
  split
  · next t mark => exact mark
  · next mark =>
    split
    · assumption
    split
    · assumption
    split
    · assumption
    split
    · assumption
    split
    · assumption
    split
    · assumption
    split
    · assumption
    split
    · assumption
    · next name => exact ⟨mark, Bool.eq_false_iff.mpr name⟩

/-- What a start that is known says. -/
theorem fits_of_start {c : Char} {s : Text} {r : Start} (h : start c s = r) : r.Fits c s :=
  h ▸ start_fits c s

/-- `startOf k` = what a token that is read as `k` starts like.  Symbols have no start of their own. -/
def startOf : Token → Option Start
  | .symbol => none
  | .space => some .space
  | .comment _ => some .comment
  | .string _ => some .quote
  | .hash _ => some .hash
  | .atKeyword _ => some .atSign
  | .number | .percentage | .dimension => some .number
  | .ident _ | .url _ | .opening (.call _) => some .name
  | k => some (.mark k)

theorem startOf_readAs {c : Char} {s : Text} {r : Start} (fits : r.Fits c s) :
    (readAs c s r).1 = .symbol ∨ startOf (readAs c s r).1 = some r := by
  cases r with
  | mark t =>
    replace fits : mark? c = some t := fits
    unfold mark? at fits
    split at fits <;> cases fits <;> exact .inr rfl
  | space => exact .inr rfl
  | quote => exact .inr rfl
  | comment => exact .inr rfl
  | arrow => exact .inl rfl
  | hash =>
    simp only [readAs, readHash]
    split
    · exact .inr rfl
    · exact .inl rfl
  | atSign =>
    simp only [readAs, readAtSign]
    split
    · exact .inr rfl
    · exact .inl rfl
  | number =>
    simp only [readAs, readNumber]
    split
    · exact .inr rfl
    split <;> exact .inr rfl
  | name =>
    simp only [readAs, readName]
    split
    · split <;> exact .inr rfl
    · exact .inr rfl
  | other =>
    simp only [readAs, readSymbol]
    split <;> exact .inl rfl

/-- No two characters are the same token. -/
theorem mark?_injective {c d : Char} {k : Token} (hc : mark? c = some k) (hd : mark? d = some k) : c = d := by
  unfold mark? at hc
  split at hc
  all_goals
    cases hc <;> unfold mark? at hd <;> split at hd <;> first | rfl | cases hd

/-- **Each token but a symbol tells how it starts.** -/
theorem start_of_read {c : Char} {s : Text} {k : Token} {r : Start} (h : (read c s).1 = k)
    (hk : startOf k = some r) : start c s = r := by
  rw [read_eq] at h
  rcases startOf_readAs (start_fits c s) with symbol | eq
  · rw [h] at symbol
    rw [symbol] at hk
    cases hk
  · rw [h, hk] at eq
    exact (Option.some.inj eq).symm

/-- A name with a parenthesis behind it. -/
theorem readName_of_paren {c : Char} {s name inner : Text} {n : Nat}
    (length : nameLength 0 (c :: s) = n) (spelled : unescape 0 ((c :: s).take n) = name)
    (behind : (c :: s).drop n = '(' :: inner) :
    readName c s =
      if isUrlName name && !quoteFollows inner then
        (.url (addressExtent .lead 0 inner).closed, n + (addressExtent .lead 0 inner).length)
      else (.opening (.call name), n) := by
  unfold readName
  simp only [length, spelled, behind]

/-- A name with something else behind it. -/
theorem readName_of_ident {c : Char} {s : Text} {n : Nat} (length : nameLength 0 (c :: s) = n)
    (behind : ((c :: s).drop n).head? ≠ some '(') :
    readName c s = (.ident (unescape 0 ((c :: s).take n)), n - 1) := by
  unfold readName
  simp only [length]
  split
  · next inner paren =>
    rw [paren] at behind
    exact absurd rfl behind
  · rfl

/-! ## Openers -/

/-- A call starts with its name. -/
theorem name_of_call {c : Char} {s name : Text} (h : (read c s).1 = .opening (.call name)) :
    startsName (c :: s) = true ∧ unescape 0 ((c :: s).take (nameLength 0 (c :: s))) = name := by
  have hs := start_of_read h rfl
  refine ⟨fits_of_start hs, ?_⟩
  rw [read_eq, hs] at h
  simp only [readAs, readName] at h
  split at h
  · split at h
    · cases h
    · injection h with h
      injection h
  · cases h

/-- What starts a call ends in the parenthesis behind the name. -/
theorem read_call {c : Char} {s name : Text} (h : (read c s).1 = .opening (.call name)) :
    (c :: s.take (read c s).2).getLast? = some '(' := by
  have hs := start_of_read h rfl
  rw [read_eq, hs] at h ⊢
  simp only [readAs, readName] at h ⊢
  split at h
  · next inner rest =>
    split at h
    · cases h
    next no_address =>
    -- the text is that of the name and one character more
    rw [if_neg no_address]
    show ((c :: s).take (nameLength 0 (c :: s) + 1)).getLast? = _
    rw [List.take_add_one, ← List.head?_drop, rest]
    exact List.getLast?_concat
  · cases h

end Token

theorem Lexeme.textOf_append (ls ms : List Lexeme) : textOf (ls ++ ms) = textOf ls ++ textOf ms :=
  List.flatMap_append

/-- A character that is a token by itself. -/
theorem lexemes_mark {c : Char} {r : Token} (h : Token.mark? c = some r) (t : Text) :
    lexemes 0 (c :: t) = ⟨r, [c]⟩ :: lexemes 0 t := by
  have read : Token.read c t = (r, 0) := by rw [Token.read, h]
  rw [lexemes_cons, read]
  rfl

theorem text_of_call {s : Text} {k : Nat} {l : Lexeme} (hl : l ∈ lexemes k s) {name : Text}
    (h : l.token = .opening (.call name)) : l.text.getLast? = some '(' := by
  induction s generalizing k with
  | nil => cases k <;> exact absurd hl List.not_mem_nil
  | cons c s ih =>
    cases k with
    | succ k => exact ih hl
    | zero =>
      rw [lexemes] at hl
      rcases List.mem_cons.mp hl with rfl | hl
      · exact Token.read_call h
      · exact ih hl

end Translucent
