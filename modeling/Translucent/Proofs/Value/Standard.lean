import Translucent.Proofs.Content.Spelled
import Translucent.Proofs.Token.Stick
import Translucent.Proofs.Token.Words

/-!
  # The standard text of a colour, read again

  `rgba(r, g, b, a)` is read as a block of seven words, whatever stands before and behind it.  Only the
  token that opens the block depends on what stands before.

  1. **Numbers** — channels and opacities are written as decimals.
  2. **Arguments** — `Color.row` is the row of the four arguments (`spelled_row`), and no shorthand of any
     call (`call?_row`).
  3. **Blocks** — `levels_arguments` behind any parenthesis that opens a block, and `reads_standard` for the name
     of the standard call itself.
-/

namespace Translucent

open Content

/-! ## Numbers -/

theorem isDecimal_decimal (n : UInt8) : IsDecimal (Color.decimal n) := by
  refine ⟨Color.decimal n, [], (List.append_nil _).symm, ?_, .inl ⟨Nat.toDigits_ne_nil, rfl⟩⟩
  exact List.all_eq_true.mpr fun c hc => Nat.isDigit_of_mem_toDigits (by decide) (by decide) hc

theorem isDecimal_alpha (a : Alpha) : IsDecimal a.text := by
  cases a with
  | transparent => exact ⟨['0'], [], rfl, rfl, .inl ⟨by simp, rfl⟩⟩
  | full => exact ⟨['1'], [], rfl, rfl, .inl ⟨by simp, rfl⟩⟩
  | fraction digits shortest =>
    exact ⟨['0'], '.' :: digits, rfl, rfl, .inr ⟨digits, rfl, shortest.2.1, shortest.1⟩⟩

/-! ## Arguments -/

/-- A single space is read before a decimal. -/
theorem reads_space {u : Text} (h : IsDecimal u) (z : Text) : Lexeme.Reads ⟨.space, [' ']⟩ (u ++ z) := by
  obtain ⟨c, t, rfl, first⟩ := h.first
  refine reads_spaces (w := []) rfl rfl fun m hm => ?_
  obtain rfl : c = m := Option.some.inj hm
  exact Bool.eq_false_iff.mpr (not_space_of_first first)

namespace Color

/-- A channel with its comma in front of other arguments. -/
def channelRow (n : UInt8) (rest : Content) : Content :=
  .leaf ⟨.number, decimal n⟩ (.leaf ⟨.comma, [',']⟩ (.leaf ⟨.space, [' ']⟩ rest))

/-- The arguments of the standard call. -/
def row (c : Color) : Content :=
  channelRow c.rgb.red (channelRow c.rgb.green (channelRow c.rgb.blue
    (.leaf ⟨.number, c.alpha.text⟩ .nil)))

theorem text_append (c : Color) (z : Text) :
    c.text ++ z = CallName.rgba ++ '(' :: (c.row.text ++ ')' :: z) := by
  simp [text, row, channelRow, CallName.rgba]

/-- Where a row starts with a decimal, a channel can stand in front of it. -/
theorem spelled_channelRow (n : UInt8) {stack : List Bracket} {tail u z : Text} {rest : Content}
    (h : rest.Spelled stack tail) (hu : IsDecimal u) (start : rest.text ++ tail = u ++ z) :
    (channelRow n rest).Spelled stack tail := by
  refine ⟨(isDecimal_decimal n).reads (delimited_cons rfl _), by simp, by simp, reads_mark rfl _, by simp, by simp,
    ?_, by simp, by simp, h⟩
  rw [start]
  exact reads_space hu z

/-- **The arguments are spelled** before a closing parenthesis. -/
theorem spelled_row (c : Color) (stack : List Bracket) (z : Text) : c.row.Spelled stack (')' :: z) := by
  have alpha : (Content.leaf ⟨.number, c.alpha.text⟩ .nil).Spelled stack (')' :: z) :=
    ⟨(isDecimal_alpha c.alpha).reads (delimited_cons rfl z), by simp, by simp, trivial⟩
  have blue := spelled_channelRow c.rgb.blue alpha (isDecimal_alpha c.alpha) (z := ')' :: z)
    (by rw [text_leaf, text_nil, List.append_nil])
  have green := spelled_channelRow c.rgb.green blue (isDecimal_decimal c.rgb.blue)
    (List.append_assoc (decimal c.rgb.blue) _ _)
  exact spelled_channelRow c.rgb.red green (isDecimal_decimal c.rgb.green)
    (List.append_assoc (decimal c.rgb.green) _ _)

/-- The arguments are those of no shorthand. -/
theorem call?_row (c : Color) (name : Text) : call? name c.row = none := by
  unfold call?
  split
  · rfl
  split
  · rfl
  split
  · rfl
  · rfl

/-! ## Blocks -/

/-- **The arguments are read as a block of their own** behind any opening parenthesis. -/
theorem levels_arguments (c : Color) {o : Opener} (round : o.shape = .round) {t z : Text}
    (h : Lexeme.Reads ⟨.opening o, t⟩ (c.row.text ++ ')' :: z)) (stack : List Bracket) :
    levels stack (lexemes 0 (t ++ (c.row.text ++ ')' :: z)))
      = prepend (.block o t c.row true .nil) (levels stack (lexemes 0 z)) := by
  have closer : closing o true ++ z = ')' :: z := by
    rw [closing, round]
    rfl
  rw [← closer] at h ⊢
  refine levels_block_of_reads h ?_ (by simp)
  rw [closer]
  exact levels_of_spelled (c.spelled_row _ z)

/-- The standard call is read wherever a token starts. -/
theorem reads_standard (z : Text) : Lexeme.Reads ⟨.opening (.call CallName.rgba), CallName.rgba ++ ['(']⟩ z :=
  reads_call (by decide) (by decide) (by decide) z

end Color

end Translucent
