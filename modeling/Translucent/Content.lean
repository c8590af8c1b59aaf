import Translucent.Token.Lexer

/-!
  # The content of a text, as a tree of blocks

  A `Content` is a row of components: lexemes, and blocks with a content of their own.  A block ends
  at the bracket that closes it or, unclosed, at the end of the text; a closing bracket that does
  not fit the innermost open block is a lexeme like any other.

  1. **The type** — one inductive type for a row and what hangs below it, so that a function on
     contents is one structural recursion.
  2. **Walking** — `upTo` and `dropTo` cut a row where a condition on what follows holds first;
     they never look into blocks.
  3. **Building** — `levels` reads lexemes under the brackets that are open and gives the rest of
     each open block; `ofText` is what it gives with no bracket open.

  **Main statement** — `text_ofText`: the tree of a text has that text.
-/

namespace Translucent

/-- A row of components. -/
inductive Content
  /-- Nothing more. -/
  | nil
  /-- A lexeme that opens no block, and what follows it. -/
  | leaf (l : Lexeme) (rest : Content)
  /-- A block: what opens it, how that is spelled, what the block holds, whether it is closed, and
      what follows it. -/
  | block (o : Opener) (text : Text) (body : Content) (closed : Bool) (rest : Content)
  deriving DecidableEq, Repr

namespace Content

/-! ## Text and size -/

/-- The text of the bracket that closes a block, empty if it was left open. -/
def closing (o : Opener) (closed : Bool) : Text := if closed then [o.shape.closer] else []

/-- `textBefore c tail` = the text that `c` was read from, with `tail` behind it. -/
def textBefore : Content → Text → Text
  | nil, tail => tail
  | leaf l rest, tail => l.text ++ textBefore rest tail
  | block o t body closed rest, tail =>
    t ++ textBefore body (closing o closed ++ textBefore rest tail)

/-- `text c` = the text that `c` was read from. -/
def text (c : Content) : Text := c.textBefore []

theorem textBefore_append (c : Content) (s t : Text) :
    c.textBefore (s ++ t) = c.textBefore s ++ t := by
  induction c generalizing s with
  | nil => rfl
  | leaf l rest ih => simp [textBefore, ih]
  | block o u body closed rest ihb ihr =>
    rw [textBefore, textBefore, ihr, ← List.append_assoc (closing o closed), ihb, List.append_assoc]

theorem textBefore_eq (c : Content) (tail : Text) : c.textBefore tail = c.text ++ tail := by
  rw [text, ← textBefore_append, List.nil_append]

@[simp] theorem text_nil : text nil = [] := rfl

@[simp] theorem text_leaf (l : Lexeme) (rest : Content) :
    text (leaf l rest) = l.text ++ rest.text := rfl

@[simp] theorem text_block (o : Opener) (t : Text) (body : Content) (closed : Bool)
    (rest : Content) :
    text (block o t body closed rest) = t ++ body.text ++ closing o closed ++ rest.text := by
  rw [text, textBefore, textBefore_eq, textBefore_eq rest]; simp

/-- The number of bytes of the closing bracket. -/
def closingWidth (closed : Bool) : Nat := if closed then 1 else 0

/-- `width c` = the number of bytes of the text of `c`. -/
def width : Content → Nat
  | nil => 0
  | leaf l rest => Text.byteLength l.text + width rest
  | block _ t body closed rest =>
    Text.byteLength t + width body + closingWidth closed + width rest

/-- `length c` = the number of components of the row `c`, blocks counting as one. -/
def length : Content → Nat
  | nil => 0
  | leaf _ rest => length rest + 1
  | block _ _ _ _ rest => length rest + 1

theorem byteLength_closing (o : Opener) (closed : Bool) :
    Text.byteLength (closing o closed) = closingWidth closed := by
  cases o with
  | call name => cases closed <;> rfl
  | bracket b => cases b <;> cases closed <;> rfl

/-- The width is that of the text. -/
theorem width_eq (c : Content) : c.width = Text.byteLength c.text := by
  induction c with
  | nil => rfl
  | leaf l rest ih => simp [width, ih]
  | block o t body closed rest ihb ihr => simp [width, ihb, ihr, byteLength_closing]; omega

/-! ## Walking along a row -/

/-- `upTo stop c` = the components of `c` before the first place where `stop` holds of the rest. -/
def upTo (stop : Content → Bool) : Content → Content
  | nil => nil
  | leaf l rest => if stop (leaf l rest) then nil else leaf l (upTo stop rest)
  | block o t body closed rest =>
    if stop (block o t body closed rest) then nil else block o t body closed (upTo stop rest)

/-- `dropTo stop c` = the rest of `c` at the first place where `stop` holds of it. -/
def dropTo (stop : Content → Bool) : Content → Content
  | nil => nil
  | leaf l rest => if stop (leaf l rest) then leaf l rest else dropTo stop rest
  | block o t body closed rest =>
    if stop (block o t body closed rest) then block o t body closed rest else dropTo stop rest

/-- Whether white space or a comment comes next. -/
def startsTrivia : Content → Bool
  | leaf l _ => l.token.isTrivia
  | _ => false

/-- `significant c` = `c` without the white space and the comments of the row itself. -/
def significant : Content → Content
  | nil => nil
  | leaf l rest =>
    match l.token with
    | .space | .comment _ => significant rest
    | _ => leaf l (significant rest)
  | block o t body closed rest => block o t body closed (significant rest)

theorem significant_leaf (l : Lexeme) (rest : Content) : (leaf l rest).significant
    = if l.token.isTrivia then rest.significant else leaf l rest.significant := by
  rw [significant]
  cases l.token <;> rfl

/-! ## Building the tree -/

/-- What is left of an open block: its content, and whether its closing bracket comes. -/
structure Level where
  /-- The content from here to the end of the block. -/
  content : Content
  /-- Whether the block is closed. -/
  closed : Bool

/-- The text ends here, so the block has nothing left and is not closed. -/
def Level.ended : Level := ⟨.nil, false⟩

/-- `levels stack ls` = what is left of each open block, innermost first, when `stack` are the
    brackets of the open blocks and `ls` the lexemes to come.  The last one is left of the text
    outside all blocks; those that are not listed are ended. -/
def levels : List Bracket → List Lexeme → List Level
  | _, [] => []
  | stack, l :: ls =>
    match l.token with
    | .opening o =>
      let found := levels (o.shape :: stack) ls
      let inner := found.headD .ended
      let next := found.tail.headD .ended
      ⟨.block o l.text inner.content inner.closed next.content, next.closed⟩ :: found.tail.tail
    | .closing b =>
      if stack.head? = some b then ⟨.nil, true⟩ :: levels stack.tail ls
      else put l (levels stack ls)
    | _ => put l (levels stack ls)
where
  /-- A lexeme at the front of the innermost level. -/
  put (l : Lexeme) (found : List Level) : List Level :=
    let next := found.headD .ended
    ⟨.leaf l next.content, next.closed⟩ :: found.tail

/-- The tree of lexemes. -/
def ofLexemes (ls : List Lexeme) : Content := ((levels [] ls).headD .ended).content

/-- The tree of a text. -/
def ofText (t : Text) : Content := ofLexemes (lexemes 0 t)

/-! ## The three parts of a lexeme -/

/-- Under the open brackets a lexeme opens a block, closes the innermost one, or does neither. -/
theorem opens_or_closes_or_neither (stack : List Bracket) (l : Lexeme) :
    (∃ o, l.token = .opening o) ∨ (∃ b, l.token = .closing b ∧ stack.head? = some b)
      ∨ ((∀ o, l.token ≠ .opening o) ∧ ∀ b, l.token = .closing b → stack.head? ≠ some b) := by
  cases ht : l.token with
  | opening o => exact Or.inl ⟨o, rfl⟩
  | closing b =>
    by_cases h : stack.head? = some b
    · exact Or.inr (Or.inl ⟨b, rfl, h⟩)
    · exact Or.inr (Or.inr ⟨(by simp), fun _ e => by injection e with e; exact e ▸ h⟩)
  | _ => exact Or.inr (Or.inr ⟨(by simp), (by simp)⟩)

/-- What opens a block takes the innermost level as its body. -/
theorem levels_opening {l : Lexeme} {o : Opener} (h : l.token = .opening o)
    (stack : List Bracket) (ls : List Lexeme) :
    levels stack (l :: ls) =
      let found := levels (o.shape :: stack) ls
      let inner := found.headD .ended
      let next := found.tail.headD .ended
      ⟨.block o l.text inner.content inner.closed next.content, next.closed⟩
        :: found.tail.tail := by
  rw [levels, h]

/-- What closes the innermost block ends its level. -/
theorem levels_closing {l : Lexeme} {b : Bracket} (h : l.token = .closing b)
    {stack : List Bracket} (fits : stack.head? = some b) (ls : List Lexeme) :
    levels stack (l :: ls) = ⟨.nil, true⟩ :: levels stack.tail ls := by
  rw [levels, h]
  exact if_pos fits

/-- Any other lexeme is put in front of the innermost level. -/
theorem levels_neither {l : Lexeme} {stack : List Bracket} (ho : ∀ o, l.token ≠ .opening o)
    (hc : ∀ b, l.token = .closing b → stack.head? ≠ some b) (ls : List Lexeme) :
    levels stack (l :: ls) = levels.put l (levels stack ls) := by
  rw [levels]
  split
  · next o h => exact absurd h (ho o)
  · next b h => exact if_neg (hc b h)
  · rfl

/-! ## Nothing is lost -/

/-- The text of the bracket that closes the innermost of the open blocks, if it comes. -/
def Level.closing (stack : List Bracket) (l : Level) : Text :=
  if l.closed then (stack.head?.map Bracket.closer).toList else []

/-- The text of all that is left of the open blocks. -/
def Level.textOf : List Bracket → List Level → Text
  | _, [] => []
  | stack, l :: outer => l.content.text ++ l.closing stack ++ textOf stack.tail outer

/-- The innermost level comes first in the text, listed or not. -/
theorem Level.textOf_eq (stack : List Bracket) (found : List Level) :
    textOf stack found = (found.headD .ended).content.text ++ (found.headD .ended).closing stack
      ++ textOf stack.tail found.tail := by
  cases found with
  | nil => rfl
  | cons l outer => rfl

/-- A lexeme put in front of a level comes first in the text. -/
theorem Level.textOf_put (stack : List Bracket) (l : Lexeme) (found : List Level) :
    textOf stack (levels.put l found) = l.text ++ textOf stack found := by
  rw [textOf_eq stack found, levels.put, textOf, text_leaf]
  simp only [closing, List.append_assoc]

/-- In order, the open blocks are left with the text of the lexemes to come. -/
theorem textOf_levels (stack : List Bracket) (ls : List Lexeme)
    (closers : ∀ l ∈ ls, ∀ b, l.token = .closing b → l.text = [b.closer]) :
    Level.textOf stack (levels stack ls) = Lexeme.textOf ls := by
  induction ls generalizing stack with
  | nil => rfl
  | cons l ls ih =>
    have ih stack := ih stack fun m hm => closers m (List.mem_cons_of_mem _ hm)
    rw [Lexeme.textOf_cons]
    rcases opens_or_closes_or_neither stack l with ⟨o, ho⟩ | ⟨b, hb, fits⟩ | ⟨ho, hc⟩
    · -- a block opens: the two innermost levels become one
      rw [levels_opening ho, ← ih (o.shape :: stack), Level.textOf_eq (o.shape :: stack),
        Level.textOf_eq (List.tail _)]
      simp only [Level.textOf, text_block, List.append_assoc, List.tail_cons]
      rfl
    · -- the innermost block ends
      rw [levels_closing hb fits, closers l List.mem_cons_self b hb, ← ih stack.tail, Level.textOf]
      simp only [Level.closing, fits]
      rfl
    · rw [levels_neither ho hc, Level.textOf_put, ih]

/-- There are no more levels than open blocks, but for the one outside. -/
theorem length_levels_le (stack : List Bracket) (ls : List Lexeme) :
    (levels stack ls).length ≤ stack.length + 1 := by
  induction ls generalizing stack with
  | nil => exact Nat.zero_le _
  | cons l ls ih =>
    rcases opens_or_closes_or_neither stack l with ⟨o, ho⟩ | ⟨b, hb, fits⟩ | ⟨ho, hc⟩
    · have := ih (o.shape :: stack)
      rw [levels_opening ho]
      simp only [List.length_cons, List.length_tail] at this ⊢
      omega
    · have := ih stack.tail
      rw [levels_closing hb fits]
      cases stack with
      | nil => simp at fits
      | cons b' stack => exact Nat.succ_le_succ this
    · have := ih stack
      rw [levels_neither ho hc, levels.put, List.length_cons, List.length_tail]
      omega

/-- **The tree of a text has that text.** -/
theorem text_ofText (t : Text) : (ofText t).text = t := by
  have h := textOf_levels [] (lexemes 0 t) fun _ hl _ hb => text_of_closing hl hb
  have short := length_levels_le [] (lexemes 0 t)
  rw [Level.textOf_eq, textOf_lexemes_zero] at h
  have none_left : (levels [] (lexemes 0 t)).tail = [] := by
    rw [← List.length_eq_zero_iff, List.length_tail]
    exact Nat.sub_eq_zero_of_le short
  rw [none_left] at h
  simpa [Level.textOf, Level.closing, ofText, ofLexemes] using h

end Content

end Translucent
