import Translucent.Proofs.Content.Append
import Translucent.Proofs.Token.Swap

/-!
  # Rows and how they are spelled

  A row is *spelled* before a text if each of its tokens is the one that is read there.  The two directions:

  1. **From text to rows** — `spelled_ofText`: the tree of a text is spelled by the text.
  2. **From rows to text** — `levels_of_spelled`: what is read from the text of a spelled row is the row.
  3. **Leaves** — the lexemes of a row from left to right are those that are read from it (`Spelled.lexed`).
  4. **Before other texts** — `Spelled.before`: where texts keep the tokens before them, they keep spelled
     rows.
-/

namespace Translucent

namespace Content

/-- `Spelled stack tail c` = whether the row `c` is read as it stands before the text `tail`, inside the
    open brackets `stack`: each lexeme is the next one of the text, a leaf closes no block, and what is
    left open has nothing behind it. -/
def Spelled : List Bracket → Text → Content → Prop
  | _, _, nil => True
  | stack, tail, leaf l rest =>
    l.Reads (rest.text ++ tail) ∧ (∀ o, l.token ≠ .opening o)
      ∧ (∀ b, l.token = .closing b → stack.head? ≠ some b) ∧ Spelled stack tail rest
  | stack, tail, block o t body closed rest =>
    Lexeme.Reads ⟨.opening o, t⟩ (body.text ++ (closing o closed ++ (rest.text ++ tail)))
      ∧ (closed = false → rest = nil ∧ tail = [])
      ∧ Spelled (o.shape :: stack) (closing o closed ++ (rest.text ++ tail)) body
      ∧ Spelled stack tail rest

/-! ## From text to rows -/

/-- Whether all that is left of the open blocks is spelled, and nothing is left behind a block that is not
    closed. -/
def Level.Spelled : List Bracket → List Level → Prop
  | _, [] => True
  | stack, l :: outer =>
    l.content.Spelled stack (l.closing stack ++ textOf stack.tail outer)
      ∧ (l.closed = false → outer = []) ∧ Spelled stack.tail outer

/-- The innermost level comes first, listed or not. -/
theorem Level.Spelled.innermost {stack : List Bracket} {found : List Level} (h : Spelled stack found) :
    (found.headD .ended).content.Spelled stack
        ((found.headD .ended).closing stack ++ textOf stack.tail found.tail)
      ∧ ((found.headD .ended).closed = false → found.tail = []) ∧ Spelled stack.tail found.tail := by
  cases found with
  | nil => exact ⟨trivial, fun _ => rfl, trivial⟩
  | cons l outer => exact h

/-- What is left of the blocks that are open before a text is spelled by the text. -/
theorem spelled_levels (stack : List Bracket) (ls : List Lexeme) (h : lexemes 0 (Lexeme.textOf ls) = ls) :
    Level.Spelled stack (levels stack ls) := by
  induction ls generalizing stack with
  | nil => trivial
  | cons l ls ih =>
    obtain ⟨reads, behind⟩ := reads_of_lexemes h
    have text (stack : List Bracket) : Level.textOf stack (levels stack ls) = Lexeme.textOf ls :=
      textOf_levels stack ls fun m hm b hb => text_of_closing (behind.symm ▸ hm) hb
    rcases opens_or_closes_or_neither stack l with ⟨o, ho⟩ | ⟨b, hb, fits⟩ | ⟨ho, hc⟩
    · -- the two innermost levels become one
      obtain ⟨body, left, outer⟩ := (ih (o.shape :: stack) behind).innermost
      obtain ⟨rest, left', outer'⟩ := outer.innermost
      rw [levels_opening ho]
      have closer : ((levels (o.shape :: stack) ls).headD .ended).closing (o.shape :: stack)
          = closing o ((levels (o.shape :: stack) ls).headD .ended).closed := rfl
      have whole := text (o.shape :: stack)
      rw [Level.textOf_eq, Level.textOf_eq (List.tail _), closer] at whole
      rw [Level.textOf_eq (List.tail _), closer] at body
      simp only [List.append_assoc, List.tail_cons] at whole body rest left' outer'
      refine ⟨⟨?_, fun unclosed => ?_, body, rest⟩, left', outer'⟩
      · obtain ⟨k, t⟩ := l
        subst ho
        rw [← whole] at reads
        exact reads
      · rw [left unclosed]
        exact ⟨rfl, rfl⟩
    · rw [levels_closing hb fits]
      exact ⟨trivial, by simp, ih stack.tail behind⟩
    · obtain ⟨rest, left, outer⟩ := (ih stack behind).innermost
      have whole := text stack
      rw [Level.textOf_eq, List.append_assoc] at whole
      rw [levels_neither ho hc]
      exact ⟨⟨whole.symm ▸ reads, ho, hc, rest⟩, left, outer⟩

/-- **The tree of a text is spelled by the text.** -/
theorem spelled_ofText (v : Text) : (ofText v).Spelled [] [] := by
  have whole : lexemes 0 (Lexeme.textOf (lexemes 0 v)) = lexemes 0 v := congrArg (lexemes 0) (textOf_lexemes_zero v)
  obtain ⟨spelled, -⟩ := (spelled_levels [] (lexemes 0 v) whole).innermost
  -- nothing is left behind the level outside all blocks
  have short := length_levels_le [] (lexemes 0 v)
  have none_left : (levels [] (lexemes 0 v)).tail = [] := by
    rw [← List.length_eq_zero_iff, List.length_tail]
    exact Nat.sub_eq_zero_of_le short
  have no_closer : ((levels [] (lexemes 0 v)).headD .ended).closing [] = [] := by
    rw [Level.closing]
    exact ite_self _
  rw [none_left, no_closer] at spelled
  exact spelled

/-! ## From rows to text -/

/-- A closing bracket is a token by itself. -/
theorem mark?_closer (b : Bracket) : Token.mark? b.closer = some (.closing b) := by
  cases b <;> rfl

/-- The closing bracket of a block, if it has one, is read as such. -/
theorem levels_closing_text {o : Opener} (stack : List Bracket) (z : Text) :
    levels (o.shape :: stack) (lexemes 0 (closing o true ++ z))
      = ⟨.nil, true⟩ :: levels stack (lexemes 0 z) := by
  show levels (o.shape :: stack) (lexemes 0 (o.shape.closer :: z)) = _
  rw [lexemes_mark (mark?_closer o.shape), levels_closing rfl rfl]
  rfl

/-- A leaf that is read is a row of its own. -/
theorem levels_leaf_of_reads {l : Lexeme} {stack : List Bracket} {z : Text} (h : l.Reads z)
    (ho : ∀ o, l.token ≠ .opening o) (hc : ∀ b, l.token = .closing b → stack.head? ≠ some b) :
    levels stack (lexemes 0 (l.text ++ z)) = prepend (leaf l nil) (levels stack (lexemes 0 z)) := by
  rw [h.2, levels_leaf ho hc]

/-- A block is a row of its own if what opens it is read, and what it holds is a row of its own. -/
theorem levels_block_of_reads {o : Opener} {t inner z : Text} {body : Content} {closed : Bool}
    {stack : List Bracket} (h : Lexeme.Reads ⟨.opening o, t⟩ (inner ++ (closing o closed ++ z)))
    (hb : levels (o.shape :: stack) (lexemes 0 (inner ++ (closing o closed ++ z)))
      = prepend body (levels (o.shape :: stack) (lexemes 0 (closing o closed ++ z))))
    (left : closed = false → z = []) :
    levels stack (lexemes 0 (t ++ (inner ++ (closing o closed ++ z))))
      = prepend (block o t body closed nil) (levels stack (lexemes 0 z)) := by
  rw [h.2]
  cases closed with
  | true =>
    refine levels_block t ?_
    rw [hb, levels_closing_text, prepend_eq, append_nil]
  | false =>
    obtain rfl := left rfl
    exact levels_open t hb

/-- **What is read from the text of a spelled row is the row.** -/
theorem levels_of_spelled {c : Content} {stack : List Bracket} {tail : Text} (h : c.Spelled stack tail) :
    levels stack (lexemes 0 (c.text ++ tail)) = prepend c (levels stack (lexemes 0 tail)) := by
  induction c generalizing stack tail with
  | nil => rfl
  | leaf l rest ih =>
    obtain ⟨reads, ho, hc, spelled⟩ := h
    rw [text_leaf, List.append_assoc, levels_leaf_of_reads reads ho hc, ih spelled]
    rfl
  | block o t body closed rest ihb ihr =>
    obtain ⟨reads, left, inside, spelled⟩ := h
    have nothing (unclosed : closed = false) : rest.text ++ tail = [] := by
      obtain ⟨rfl, rfl⟩ := left unclosed
      rfl
    simp only [text_block, List.append_assoc]
    rw [levels_block_of_reads reads (ihb inside) nothing, ihr spelled]
    rfl

/-- The tree of the text of a spelled row is the row. -/
theorem ofText_of_spelled {c : Content} (h : c.Spelled [] []) : ofText c.text = c := by
  have whole := levels_of_spelled h
  rw [List.append_nil] at whole
  rw [ofText, ofLexemes, whole, content_prepend]
  exact append_nil c

/-! ## Leaves -/

/-- The lexeme of the bracket that closes a block, if it comes. -/
def closer (o : Opener) (closed : Bool) : List Lexeme :=
  if closed then [⟨.closing o.shape, [o.shape.closer]⟩] else []

/-- `leaves c` = the lexemes of the row `c`, from left to right. -/
def leaves : Content → List Lexeme
  | nil => []
  | leaf l rest => l :: leaves rest
  | block o t body closed rest => ⟨.opening o, t⟩ :: (leaves body ++ (closer o closed ++ leaves rest))

theorem textOf_closer (o : Opener) (closed : Bool) : Lexeme.textOf (closer o closed) = closing o closed := by
  cases closed <;> rfl

theorem textOf_leaves (c : Content) : Lexeme.textOf c.leaves = c.text := by
  induction c with
  | nil => rfl
  | leaf l rest ih => rw [leaves, Lexeme.textOf_cons, ih, text_leaf]
  | block o t body closed rest ihb ihr =>
    rw [leaves, Lexeme.textOf_cons, Lexeme.textOf_append, Lexeme.textOf_append, ihb, ihr, textOf_closer, text_block]
    simp only [List.append_assoc]

theorem leaves_append (c d : Content) : (append c d).leaves = c.leaves ++ d.leaves := by
  induction c with
  | nil => rfl
  | leaf l rest ih => rw [leaf_append, leaves, leaves, ih, List.cons_append]
  | block o t body closed rest _ ih =>
    rw [block_append, leaves, leaves, ih]
    simp only [List.append_assoc, List.cons_append]

/-- A closing bracket is read before anything. -/
theorem lexed_closer (o : Opener) (closed : Bool) (s : Text) : Lexed (closer o closed) s := by
  cases closed with
  | false => exact .nil s
  | true => exact lexemes_mark (mark?_closer o.shape) s

/-- **The lexemes of a spelled row** are read from its text. -/
theorem Spelled.lexed {c : Content} {stack : List Bracket} {tail : Text} (h : c.Spelled stack tail) :
    Lexed c.leaves tail := by
  induction c generalizing stack tail with
  | nil => exact .nil tail
  | leaf l rest ih =>
    obtain ⟨reads, -, -, spelled⟩ := h
    rw [← textOf_leaves] at reads
    exact .cons reads (ih spelled)
  | block o t body closed rest ihb ihr =>
    obtain ⟨reads, left, inside, spelled⟩ := h
    have behind : Lexed (closer o closed ++ rest.leaves) tail := .append (lexed_closer o closed _) (ihr spelled)
    have text : Lexeme.textOf (closer o closed ++ rest.leaves) ++ tail
        = closing o closed ++ (rest.text ++ tail) := by
      rw [Lexeme.textOf_append, textOf_closer, textOf_leaves, List.append_assoc]
    refine .cons ?_ (.append ?_ behind)
    · rw [Lexeme.textOf_append, textOf_leaves, List.append_assoc, text]
      exact reads
    · rw [text]
      exact ihb inside

/-- The lexemes of a text are those of its tree. -/
theorem leaves_ofText (v : Text) : (ofText v).leaves = lexemes 0 v := by
  rw [← (spelled_ofText v).lexed.whole, textOf_leaves, text_ofText]

/-! ## Before other texts -/

/-- Whether each token that is read before a text is read before the other, too, and so for the same text
    with more in front. -/
structure Keeps (R : Text → Text → Prop) : Prop where
  behind : ∀ {s s'}, R s s' → ∀ a, R (a ++ s) (a ++ s')
  eq_nil : ∀ {s'}, R [] s' → s' = []
  reads : ∀ {l : Lexeme} {s s'}, R s s' → l.Reads s → l.Reads s'

/-- What is spelled before a text is spelled before the other, too. -/
theorem Spelled.before {R : Text → Text → Prop} (keeps : Keeps R) {c : Content} {stack : List Bracket}
    {tail tail' : Text} (h : c.Spelled stack tail) (r : R tail tail') : c.Spelled stack tail' := by
  induction c generalizing stack tail tail' with
  | nil => trivial
  | leaf l rest ih =>
    obtain ⟨reads, ho, hc, spelled⟩ := h
    exact ⟨keeps.reads (keeps.behind r rest.text) reads, ho, hc, ih spelled r⟩
  | block o t body closed rest ihb ihr =>
    obtain ⟨reads, left, inside, spelled⟩ := h
    have behind := keeps.behind (keeps.behind r rest.text) (closing o closed)
    refine ⟨keeps.reads (keeps.behind behind body.text) reads, fun unclosed => ?_, ihb inside behind, ihr spelled r⟩
    obtain ⟨rest_eq, rfl⟩ := left unclosed
    exact ⟨rest_eq, keeps.eq_nil r⟩

theorem Spelled.alike {c : Content} {stack : List Bracket} {tail tail' : Text} (h : c.Spelled stack tail)
    (alike : Alike False False tail tail') : c.Spelled stack tail' :=
  h.before ⟨fun r a => r.behind a, fun r => r.eq_nil, fun r reads => reads.alike r False.elim False.elim⟩ alike

theorem Spelled.parted {c : Content} {stack : List Bracket} {tail tail' : Text} (h : c.Spelled stack tail)
    (parted : Parted tail tail') : c.Spelled stack tail' :=
  h.before ⟨fun r a => r.behind a, fun r => r.eq_nil, fun r reads => reads.parted r⟩ parted

/-- Both parts of a spelled row are spelled. -/
theorem Spelled.parts {c d : Content} {stack : List Bracket} {tail : Text} (h : (c.append d).Spelled stack tail) :
    c.Spelled stack (d.text ++ tail) ∧ d.Spelled stack tail := by
  induction c with
  | nil => exact ⟨trivial, h⟩
  | leaf l rest ih =>
    obtain ⟨reads, ho, hc, spelled⟩ := h
    rw [text_append, List.append_assoc] at reads
    exact ⟨⟨reads, ho, hc, (ih spelled).1⟩, (ih spelled).2⟩
  | block o t body closed rest _ ih =>
    obtain ⟨reads, left, inside, spelled⟩ := h
    simp only [text_append, List.append_assoc] at reads inside
    refine ⟨⟨reads, fun unclosed => ?_, inside, (ih spelled).1⟩, (ih spelled).2⟩
    obtain ⟨nothing, rfl⟩ := left unclosed
    cases rest with
    | nil =>
      rw [nil_append] at nothing
      rw [nothing]
      exact ⟨rfl, rfl⟩
    | leaf l rest => cases nothing
    | block o t body closed rest => cases nothing

/-- Only the empty row is spelled by the empty text. -/
theorem Spelled.eq_nil {c : Content} {stack : List Bracket} {tail : Text} (h : c.Spelled stack tail)
    (empty : c.text = []) : c = nil := by
  cases c with
  | nil => rfl
  | leaf l rest => exact absurd (List.append_eq_nil_iff.mp empty).1 h.1.1
  | block o t body closed rest =>
    rw [text_block, List.append_assoc, List.append_assoc] at empty
    exact absurd (List.append_eq_nil_iff.mp empty).1 h.1.1

/-- A row is spelled if both of its parts are. -/
theorem Spelled.append {c d : Content} {stack : List Bracket} {tail : Text} (hc : c.Spelled stack (d.text ++ tail))
    (hd : d.Spelled stack tail) : (c.append d).Spelled stack tail := by
  induction c with
  | nil => exact hd
  | leaf l rest ih =>
    obtain ⟨reads, ho, hc, spelled⟩ := hc
    refine ⟨?_, ho, hc, ih spelled⟩
    rw [text_append, List.append_assoc]
    exact reads
  | block o t body closed rest _ ih =>
    obtain ⟨reads, left, inside, spelled⟩ := hc
    have text : (rest.append d).text ++ tail = rest.text ++ (d.text ++ tail) := by
      rw [text_append, List.append_assoc]
    refine ⟨text ▸ reads, fun unclosed => ?_, text ▸ inside, ih spelled⟩
    obtain ⟨rfl, nothing⟩ := left unclosed
    obtain ⟨empty, rfl⟩ := List.append_eq_nil_iff.mp nothing
    exact ⟨hd.eq_nil empty, rfl⟩

/-- The text of a closed call. -/
theorem text_call (f : Text) (r : Content) :
    (block (.call f) (f ++ ['(']) r true nil).text = f ++ '(' :: (r.text ++ [')']) := by
  rw [text_block, text_nil, List.append_nil, List.append_assoc, List.append_assoc]
  rfl

end Content

end Translucent
