import Translucent.Proofs.Content.Closed
import Translucent.Proofs.Token.Open

/-!
  # Trees but for the content of one block

  What a block holds matters to nothing around it: a text that takes the place of another one in a block leaves the
  tree as it is, but for the content of that block.

  1. **Frames** — a `Frame` is a row with a block in it, at any depth, whose content is left out; `fill` puts it back.
     `lead` is the text up to the content, and `trail` the text behind the block.
  2. **Spelled frames** — `Spelled.fill`: what is spelled around a block is spelled around any other content of it.
  3. **Texts** — `Frame.ofText_fill`: the same for the tree of a text, where the contents are texts that may fill a
     block (`FillsBlock`).
  4. **Offsets** — `Text.moved`: where a byte behind the content is once another content takes its place.
-/

namespace Translucent

open Content

/-- Texts with the same start start alike. -/
theorem Text.append_inj {s s' t t' : Text} (h : s ++ t = s' ++ t') (size : byteLength s = byteLength s') :
    s = s' ∧ t = t' := by
  have cut := takeBytes_append s t
  rw [h, size, takeBytes_append] at cut
  obtain rfl := Option.some.inj cut
  exact ⟨rfl, List.append_cancel_left h⟩

namespace Content

/-! ## Frames -/

/-- A row with a block in it, at any depth, but for the content of the block. -/
inductive Frame
  /-- The block itself, whether it is closed, and what follows it. -/
  | here (o : Opener) (text : Text) (closed : Bool) (rest : Content)
  /-- A lexeme before the rest of the row. -/
  | leaf (l : Lexeme) (f : Frame)
  /-- A block before the rest of the row. -/
  | behind (o : Opener) (text : Text) (body : Content) (closed : Bool) (f : Frame)
  /-- A block that the block in question stands in, and what follows it. -/
  | inside (o : Opener) (text : Text) (f : Frame) (closed : Bool) (rest : Content)

namespace Frame

/-- `f.fill c` = the row with the content `c` in its block. -/
def fill (c : Content) : Frame → Content
  | here o t closed rest => .block o t c closed rest
  | leaf l f => .leaf l (f.fill c)
  | behind o t body closed f => .block o t body closed (f.fill c)
  | inside o t f closed rest => .block o t (f.fill c) closed rest

/-- What opens the block. -/
def opener : Frame → Opener
  | here o _ _ _ => o
  | leaf _ f => f.opener
  | behind _ _ _ _ f => f.opener
  | inside _ _ f _ _ => f.opener

/-- Whether the block is closed. -/
def isClosed : Frame → Bool
  | here _ _ closed _ => closed
  | leaf _ f => f.isClosed
  | behind _ _ _ _ f => f.isClosed
  | inside _ _ f _ _ => f.isClosed

/-- The text up to the content. -/
def lead : Frame → Text
  | here _ t _ _ => t
  | leaf l f => l.text ++ f.lead
  | behind o t body closed f => t ++ (body.text ++ (closing o closed ++ f.lead))
  | inside _ t f _ _ => t ++ f.lead

/-- The text behind the block. -/
def trail : Frame → Text
  | here _ _ _ rest => rest.text
  | leaf _ f => f.trail
  | behind _ _ _ _ f => f.trail
  | inside o _ f closed rest => f.trail ++ (closing o closed ++ rest.text)

/-! ### Where the content starts -/

section Place

variable (pos : Nat) (o : Opener) (t : Text) (body : Content) (closed : Bool) (rest : Content) (l : Lexeme) (f : Frame)

theorem place_leaf : pos + Text.byteLength (leaf l f).lead
    = pos + Text.byteLength l.text + Text.byteLength f.lead := by
  rw [lead, Text.byteLength_append, Nat.add_assoc]

theorem place_behind : pos + Text.byteLength (behind o t body closed f).lead
    = pos + Text.byteLength t + body.width + closingWidth closed + Text.byteLength f.lead := by
  simp only [lead, Text.byteLength_append, width_eq, byteLength_closing]
  omega

theorem place_inside : pos + Text.byteLength (inside o t f closed rest).lead
    = pos + Text.byteLength t + Text.byteLength f.lead := by
  rw [lead, Text.byteLength_append, Nat.add_assoc]

end Place

variable (f : Frame) (c : Content)

/-- The text of a row, cut by the content of the block and the bracket that closes it. -/
theorem text_fill : (f.fill c).text = f.lead ++ (c.text ++ (closing f.opener f.isClosed ++ f.trail)) := by
  induction f with
  | here o t closed rest =>
    rw [fill, text_block]
    simp only [List.append_assoc]
    rfl
  | leaf l f ih => rw [fill, text_leaf, ih, lead, List.append_assoc]; rfl
  | behind o t body closed f ih =>
    rw [fill, text_block, ih]
    simp only [lead, List.append_assoc]
    rfl
  | inside o t f closed rest ih =>
    rw [fill, text_block, ih]
    simp only [lead, trail, opener, isClosed, List.append_assoc]

/-- The content adds its width. -/
theorem width_fill : (f.fill c).width = (f.fill .nil).width + c.width := by
  induction f with
  | here o t closed rest => simp only [fill, width]; omega
  | leaf l f ih => rw [fill, fill, width, width, ih, Nat.add_assoc]
  | behind o t body closed f ih => rw [fill, fill, width, width, ih]; omega
  | inside o t f closed rest ih => rw [fill, fill, width, width, ih]; omega

/-- The text up to the content is a part of the row. -/
theorem lead_le_width : Text.byteLength f.lead ≤ (f.fill .nil).width := by
  rw [width_eq, text_fill, Text.byteLength_append]
  exact Nat.le_add_right _ _

/-- A block that is closed has text behind its content, its bracket at least. -/
theorem lead_lt_width (closed : f.isClosed = true) : Text.byteLength f.lead < (f.fill .nil).width := by
  have bracket : Text.byteLength (closing f.opener true) = 1 := byteLength_closing f.opener true
  rw [width_eq, text_fill, closed, Text.byteLength_append, Text.byteLength_append, Text.byteLength_append, bracket]
  omega

end Frame

/-! ## Spelled frames -/

/-- What is read before a text is read before texts that open alike. -/
theorem Spelled.opened {c : Content} {stack : List Bracket} {tail tail' : Text} (h : c.Spelled stack tail)
    (opened : Opened tail tail') : c.Spelled stack tail' :=
  h.before ⟨fun r a => r.behind a, fun r => r.eq_nil, fun r reads => reads.opened r⟩ opened

section Fill

variable {f : Frame} {c : Content} {stack : List Bracket} {tail : Text}

/-- The text up to the content of a block ends in an opening bracket. -/
theorem Spelled.exists_opening (h : (f.fill c).Spelled stack tail) :
    ∃ w m, f.lead = w ++ [m] ∧ Character.isOpening m = true := by
  induction f generalizing stack tail with
  | here o t closed rest => exact h.1.exists_opening
  | leaf l f ih =>
    obtain ⟨w, m, eq, opening⟩ := ih h.2.2.2
    exact ⟨l.text ++ w, m, by rw [Frame.lead, eq, List.append_assoc], opening⟩
  | behind o t body closed f ih =>
    obtain ⟨w, m, eq, opening⟩ := ih h.2.2.2
    exact ⟨t ++ (body.text ++ (closing o closed ++ w)), m, by simp only [Frame.lead, eq, List.append_assoc], opening⟩
  | inside o t f closed rest ih =>
    obtain ⟨w, m, eq, opening⟩ := ih h.2.2.1
    exact ⟨t ++ w, m, by rw [Frame.lead, eq, List.append_assoc], opening⟩

/-- The text of a row opens alike whatever its block holds. -/
theorem Spelled.opened_fill (h : (f.fill c).Spelled stack tail) (c' : Content) (z : Text) :
    Opened ((f.fill c).text ++ z) ((f.fill c').text ++ z) := by
  obtain ⟨w, m, eq, opening⟩ := h.exists_opening
  rw [Frame.text_fill, Frame.text_fill, eq]
  simp only [List.append_assoc, List.singleton_append]
  exact .inr ⟨w, m, _, _, opening, rfl, rfl⟩

/-- The content of the block of a spelled row is spelled before the rest of the text. -/
theorem Spelled.content (h : (f.fill c).Spelled stack tail) :
    (∃ around, c.Spelled (f.opener.shape :: around) (closing f.opener f.isClosed ++ (f.trail ++ tail)))
      ∧ (f.isClosed = false → f.trail ++ tail = []) := by
  induction f generalizing stack tail with
  | here o t closed rest =>
    obtain ⟨-, left, inside, -⟩ := h
    refine ⟨⟨stack, inside⟩, fun unclosed => ?_⟩
    obtain ⟨rfl, rfl⟩ := left unclosed
    rfl
  | leaf l f ih => exact ih h.2.2.2
  | behind o t body closed f ih => exact ih h.2.2.2
  | inside o t f closed rest ih =>
    have within := ih h.2.2.1
    simp only [Frame.trail, List.append_assoc]
    exact within

/-- **What is spelled around a block** is spelled around any other content of it, unless the block may be read as an
    address. -/
theorem Spelled.fill {c' : Content} (h : (f.fill c).Spelled stack tail) (address : f.opener.mayBeAddress = false)
    (hc : c'.Spelled [f.opener.shape] (closing f.opener f.isClosed ++ (f.trail ++ tail))) :
    (f.fill c').Spelled stack tail := by
  induction f generalizing stack tail with
  | here o t closed rest =>
    obtain ⟨reads, left, -, spelled⟩ := h
    rw [Frame.trail] at hc
    exact ⟨reads.opener address _, left, hc.within (.inl rfl), spelled⟩
  | leaf l f ih =>
    obtain ⟨reads, ho, hb, spelled⟩ := h
    exact ⟨reads.opened (spelled.opened_fill c' tail), ho, hb, ih spelled address hc⟩
  | behind o t body closed f ih =>
    obtain ⟨reads, left, inside, spelled⟩ := h
    have opened := (spelled.opened_fill c' tail).behind (closing o closed)
    refine ⟨reads.opened (opened.behind body.text), fun unclosed => ?_, inside.opened opened, ih spelled address hc⟩
    -- the block in question follows, so that this one is closed
    obtain ⟨nothing, -⟩ := left unclosed
    cases f <;> cases nothing
  | inside o t f closed rest ih =>
    obtain ⟨reads, left, inside, spelled⟩ := h
    simp only [Frame.trail, List.append_assoc] at hc
    exact ⟨reads.opened (inside.opened_fill c' _), left, ih inside address hc, spelled⟩

end Fill

end Content

/-! ## Texts -/

/-- Whether a text may be all that a block holds: it stands for itself, and none of its closing brackets stands outside
    its own blocks. -/
structure FillsBlock (v : Text) : Prop extends SelfContained v where
  /-- No closing bracket could close the block around the text. -/
  matched : (ofText v).isMatched = true

/-- What may fill a block is spelled before the bracket that closes the block, or at the end of the text. -/
theorem FillsBlock.spelled_closing {v : Text} (h : FillsBlock v) (stack : List Bracket) (o : Opener) {closed : Bool}
    {z : Text} (left : closed = false → z = []) : (ofText v).Spelled stack (closing o closed ++ z) := by
  refine (h.toSelfContained.spelled ?_).within (.inr h.matched)
  cases closed with
  | false =>
    rw [left rfl]
    exact stop_nil
  | true =>
    have firm : Character.isFirm o.shape.closer = true := by cases o.shape <;> rfl
    exact stop_cons firm z

namespace Content

/-- A row in front of a level leaves it closed or open. -/
theorem closed_prepend (c : Content) (found : List Level) :
    ((prepend c found).headD .ended).closed = (found.headD .ended).closed := by
  induction c with
  | nil => rfl
  | leaf l rest ih => exact ih
  | block o t body closed rest _ ih => exact ih

/-- A row before the end of the block around it is all that the block holds. -/
theorem headD_prepend_closing (c : Content) (stack : List Bracket) (o : Opener) {closed : Bool} {z : Text}
    (left : closed = false → z = []) :
    (prepend c (levels (o.shape :: stack) (lexemes 0 (closing o closed ++ z)))).headD .ended = ⟨c, closed⟩ := by
  have behind : (levels (o.shape :: stack) (lexemes 0 (closing o closed ++ z))).headD .ended = ⟨.nil, closed⟩ := by
    cases closed with
    | false =>
      rw [left rfl]
      rfl
    | true =>
      rw [levels_closing_text]
      rfl
  have content := content_prepend c (levels (o.shape :: stack) (lexemes 0 (closing o closed ++ z)))
  have ends := closed_prepend c (levels (o.shape :: stack) (lexemes 0 (closing o closed ++ z)))
  rw [behind, append_nil] at content
  rw [behind] at ends
  generalize (prepend c _).headD .ended = level at content ends
  obtain ⟨c', ends'⟩ := level
  obtain rfl : c' = c := content
  obtain rfl : ends' = closed := ends
  rfl

/-- The content of a block is what its text holds up to the first bracket that closes the block, or up to the end. -/
theorem Spelled.content_eq {f : Frame} {c : Content} {stack : List Bracket} (h : (f.fill c).Spelled stack [])
    {v z : Text} {closed : Bool} (fills : FillsBlock v) (left : closed = false → z = [])
    (text : c.text ++ (closing f.opener f.isClosed ++ f.trail) = v ++ (closing f.opener closed ++ z)) :
    f.isClosed = closed ∧ c = ofText v ∧ f.trail = z := by
  obtain ⟨⟨around, spelled⟩, left'⟩ := h.content
  have levels := levels_of_spelled spelled
  have levels' := levels_of_spelled (fills.spelled_closing (f.opener.shape :: around) f.opener left)
  rw [List.append_nil] at levels left'
  rw [text_ofText, ← text, levels] at levels'
  -- the level of the content, read from both texts
  have level := congrArg (fun found : List Level => found.headD .ended) levels'
  rw [headD_prepend_closing c around f.opener left', headD_prepend_closing _ around f.opener left] at level
  obtain ⟨rfl, ends⟩ := Level.mk.inj level
  rw [text_ofText, ends] at text
  exact ⟨ends, rfl, List.append_cancel_left (List.append_cancel_left text)⟩

/-- **Another text in a block** changes the tree nowhere but there. -/
theorem Frame.ofText_fill {f : Frame} {c : Content} {p v w z : Text} {closed : Bool}
    (address : f.opener.mayBeAddress = false) (fills : FillsBlock v) (fills' : FillsBlock w)
    (left : closed = false → z = []) (tree : ofText (p ++ (v ++ (closing f.opener closed ++ z))) = f.fill c)
    (lead : Text.byteLength f.lead = Text.byteLength p) :
    f.isClosed = closed ∧ c = ofText v ∧ ofText (p ++ (w ++ (closing f.opener closed ++ z))) = f.fill (ofText w) := by
  have spelled : (f.fill c).Spelled [] [] := tree ▸ spelled_ofText _
  have whole := (f.text_fill c).symm.trans ((congrArg Content.text tree).symm.trans (text_ofText _))
  obtain ⟨rfl, text⟩ := Text.append_inj whole lead
  obtain ⟨ends, rfl, rfl⟩ := spelled.content_eq fills left text
  refine ⟨ends, rfl, ?_⟩
  have row : (f.fill (ofText w)).Spelled [] [] := by
    refine spelled.fill address ?_
    rw [ends, List.append_nil]
    exact fills'.spelled_closing _ _ left
  have whole := ofText_of_spelled row
  rwa [text_fill, ends, text_ofText] at whole

end Content

/-! ## Offsets -/

/-- `moved place old new n` = the offset `n`, moved if it lies behind `place`, where `old` bytes give way to `new`
    ones. -/
def Text.moved (place old new n : Nat) : Nat := if place < n then n + new - old else n

namespace Text

variable {place n : Nat}

theorem moved_of_le (h : n ≤ place) (old new : Nat) : moved place old new n = n := if_neg (Nat.not_lt.mpr h)

theorem moved_of_lt (h : place < n) (old new : Nat) : moved place old new n = n + new - old := if_pos h

/-- What was put in gives way in turn. -/
theorem moved_moved (place old new n : Nat) : moved place old new (moved place 0 old n) = moved place 0 new n := by
  unfold moved
  split
  · rw [if_pos (by omega)]
    omega
  · rfl

/-- Nothing that is moved lies in what was put in. -/
theorem moved_apart (place new n : Nat) : moved place 0 new n ≤ place ∨ place + new < moved place 0 new n := by
  unfold moved
  split
  · right
    omega
  · left
    omega

end Text

end Translucent
