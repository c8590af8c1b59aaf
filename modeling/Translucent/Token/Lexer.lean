import Translucent.Token
import Translucent.Token.Extent
import Translucent.Token.Number

/-!
  # From text to lexemes

  `Token.read c s` is the token that starts with the character `c` before the text `s`, and the
  number of characters of `s` that belong to it.  So a token is never empty, and `lexemes` walks
  through the text with the count of the characters that are already spoken for.

  **Main statement** — `textOf_lexemes`: the lexemes of a text are the text, cut into pieces.
-/

namespace Translucent

namespace Token

/-- `url` in any case: the one name that makes a call of its own kind. -/
def isUrlName (name : Text) : Bool := Text.eqIgnoreCase name ['u', 'r', 'l']

/-- The token that starts with the name at the start of `c :: s`: a call if `(` follows, unless it
    is an unquoted address. -/
def readName (c : Char) (s : Text) : Token × Nat :=
  let length := nameLength 0 (c :: s)
  let name := unescape 0 ((c :: s).take length)
  match (c :: s).drop length with
  | '(' :: inner =>
    if isUrlName name && !quoteFollows inner then
      let e := addressExtent .lead 0 inner
      (.url e.closed, length + e.length)
    else (.opening (.call name), length)
  | _ => (.ident name, length - 1)

/-- The token that starts with the number at the start of `c :: s`. -/
def readNumber (c : Char) (s : Text) : Token × Nat :=
  let length := numberLength (c :: s)
  let unit := (c :: s).drop length
  if unit.head? = some '%' then (.percentage, length)
  else if startsName unit then (.dimension, length - 1 + nameLength 0 unit)
  else (.number, length - 1)

/-- The token behind a `#`: a name may start with a digit there. -/
def readHash (s : Text) : Token × Nat :=
  if startsName s || (s.head?.map fun c => c.isDigit || c == '-').getD false then
    let length := nameLength 0 s
    (.hash (unescape 0 (s.take length)), length)
  else (.symbol, 0)

/-- The token that starts with `c` before `s`, where nothing of the above does.  Two or three
    characters of `s` can belong to it. -/
def readSymbol (c : Char) (s : Text) : Token × Nat :=
  match c, s with
  | '<', '!' :: '-' :: '-' :: _ => (.symbol, 3)
  | '~', '=' :: _ | '|', '=' :: _ | '^', '=' :: _ | '$', '=' :: _ | '*', '=' :: _ => (.symbol, 1)
  | _, _ => (.symbol, 0)

/-- `mark? c` = the token that the character `c` is by itself, whatever follows. -/
def mark? : Char → Option Token
  | ':' => some .colon
  | ';' => some .semicolon
  | ',' => some .comma
  | '(' => some (.opening (.bracket .round))
  | '[' => some (.opening (.bracket .square))
  | '\x7b' => some (.opening (.bracket .curly))
  | ')' => some (.closing .round)
  | ']' => some (.closing .square)
  | '\x7d' => some (.closing .curly)
  | _ => none

/-- `read c s` = the token that starts with `c` before `s`, and the number of characters of `s`
    that belong to it. -/
def read (c : Char) (s : Text) : Token × Nat :=
  match mark? c with
  | some t => (t, 0)
  | none =>
    if Character.isSpace c then (.space, (s.takeWhile Character.isSpace).length)
    else if Character.isQuote c then
      let e := stringExtent c 0 s
      (.string e.closed, e.length)
    else if c = '#' then readHash s
    else if c = '@' then
      if startsName s then
        let length := nameLength 0 s
        (.atKeyword (unescape 0 (s.take length)), length)
      else (.symbol, 0)
    else if c = '/' ∧ s.head? = some '*' then
      let e := commentExtent (s.drop 1)
      (.comment e.closed, e.length + 1)
    else if startsNumber (c :: s) then readNumber c s
    else if c = '-' ∧ s.take 2 = ['-', '>'] then (.symbol, 2)
    else if startsName (c :: s) then readName c s
    else readSymbol c s

end Token

/-! ## Lexemes -/

/-- `lexemes k s` = the lexemes of `s` behind its first `k` characters. -/
def lexemes : Nat → Text → List Lexeme
  | _, [] => []
  | k + 1, _ :: s => lexemes k s
  | 0, c :: s =>
    ⟨(Token.read c s).1, c :: s.take (Token.read c s).2⟩ :: lexemes (Token.read c s).2 s

/-- Characters that are spoken for are dropped. -/
theorem lexemes_drop (k : Nat) (s : Text) : lexemes k s = lexemes 0 (s.drop k) := by
  induction s generalizing k with
  | nil => cases k <;> simp [lexemes]
  | cons c s ih =>
    cases k with
    | zero => rfl
    | succ k => rw [lexemes, List.drop_succ_cons, ih]

/-- The first lexeme of a text, and what follows it. -/
theorem lexemes_cons (c : Char) (s : Text) :
    lexemes 0 (c :: s) = ⟨(Token.read c s).1, c :: s.take (Token.read c s).2⟩
      :: lexemes 0 (s.drop (Token.read c s).2) := by
  rw [lexemes, lexemes_drop (Token.read c s).2 s]

/-- **Nothing is lost**: in order, the lexemes of a text are the text. -/
theorem textOf_lexemes (k : Nat) (s : Text) : Lexeme.textOf (lexemes k s) = s.drop k := by
  induction s generalizing k with
  | nil => cases k <;> simp [lexemes]
  | cons c s ih =>
    cases k with
    | zero =>
      rw [lexemes, Lexeme.textOf_cons, ih, List.cons_append, List.take_append_drop]
      rfl
    | succ k => rw [lexemes, ih, List.drop_succ_cons]

/-- The lexemes of a text are written as it is. -/
theorem textOf_lexemes_zero (s : Text) : Lexeme.textOf (lexemes 0 s) = s := textOf_lexemes 0 s

/-! ## Closing brackets -/

/-- The characters that are closing brackets. -/
theorem Token.mark?_closing {c : Char} {b : Bracket} (h : mark? c = some (.closing b)) :
    c = b.closer := by
  unfold mark? at h
  split at h <;> simp only [Option.some.injEq, Token.closing.injEq, reduceCtorEq] at h <;>
    exact h ▸ rfl

/-- What starts with a name is no closing bracket. -/
theorem Token.readName_ne_closing (c : Char) (s : Text) (b : Bracket) :
    (readName c s).1 ≠ .closing b := by
  unfold readName
  intro h
  dsimp only at h
  split at h
  · split at h <;> exact Token.noConfusion h
  · exact Token.noConfusion h

/-- What starts with a number is no closing bracket. -/
theorem Token.readNumber_ne_closing (c : Char) (s : Text) (b : Bracket) :
    (readNumber c s).1 ≠ .closing b := by
  unfold readNumber
  intro h
  dsimp only at h
  split at h
  · exact Token.noConfusion h
  · split at h <;> exact Token.noConfusion h

/-- A closing bracket is a token of one character. -/
theorem Token.read_closing {c : Char} {s : Text} {b : Bracket}
    (h : (Token.read c s).1 = .closing b) : (Token.read c s).2 = 0 ∧ c = b.closer := by
  cases mark : mark? c with
  | some t =>
    have eq : read c s = (t, 0) := by rw [read, mark]
    rw [eq] at h ⊢
    exact ⟨rfl, mark?_closing (mark.trans (congrArg some h))⟩
  | none =>
    -- no other token is a closing bracket
    exfalso
    simp only [read, mark] at h
    split at h
    · exact Token.noConfusion h
    split at h
    · exact Token.noConfusion h
    split at h
    · unfold readHash at h; split at h <;> exact Token.noConfusion h
    split at h
    · split at h <;> exact Token.noConfusion h
    split at h
    · exact Token.noConfusion h
    split at h
    · exact readNumber_ne_closing c s b h
    split at h
    · exact Token.noConfusion h
    split at h
    · exact readName_ne_closing c s b h
    · unfold readSymbol at h; split at h <;> exact Token.noConfusion h

/-- A closing bracket is spelled by its own character. -/
theorem text_of_closing {s : Text} {k : Nat} {l : Lexeme} (hl : l ∈ lexemes k s) {b : Bracket}
    (hb : l.token = .closing b) : l.text = [b.closer] := by
  induction s generalizing k with
  | nil => cases k <;> exact absurd hl List.not_mem_nil
  | cons c s ih =>
    cases k with
    | succ k => exact ih hl
    | zero =>
      rw [lexemes] at hl
      rcases List.mem_cons.mp hl with rfl | hl
      · obtain ⟨length, char⟩ := Token.read_closing hb
        show c :: s.take (Token.read c s).2 = _
        rw [length, List.take_zero, char]
      · exact ih hl

end Translucent
