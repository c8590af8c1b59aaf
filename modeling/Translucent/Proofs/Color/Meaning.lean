import Translucent.Proofs.Color.Alpha
import Translucent.Proofs.Value.Grown

/-!
  # What a standard text means

  A standard text is read as style sheets are read: it is cut into words, and numbers are taken at their value.  So
  nothing of a colour is lost when it is written.

  1. **Channels** — `IsChannel d n`: the digits `d` write the channel `n`; so do those of `Color.decimal`.
  2. **Meaning** — `Means t c q`: by its words the text `t` is a colour of the channels `c` and the opacity `q`.
     A text means one colour at most (`Means.unique`).
  3. **Two forms** — `IsShortHex` and `IsRgbaCall`; a standard text is digits only for black and white of
     opacity 1 (`isShortHex_standard_iff`).
  4. **Standard texts** — each means the colour that its shorthand stands for (`means_standard`).

  **Main statement** — `standard_exact`.
-/

namespace Translucent

open Content

/-! ## Channels -/

/-- Whether decimal digits write a channel. -/
def IsChannel (digits : Text) (n : UInt8) : Prop := IsDigits digits ∧ decimalValue digits = n.toNat

/-- The decimal digits of a channel write it. -/
theorem isChannel_decimal (n : UInt8) : IsChannel (Color.decimal n) n := by
  refine ⟨⟨Nat.toDigits_ne_nil, ?_⟩, ?_⟩
  · exact List.all_eq_true.mpr fun c hc => Nat.isDigit_of_mem_toDigits (by decide) (by decide) hc
  · rw [decimalValue, Color.decimal, ← Nat.ofDigitChars_eq_foldl]
    exact Nat.ofDigitChars_ten_toDigits

/-! ## Meaning -/

/-- The words of four numbers with commas between. -/
def numberWords (r g b a : Text) : Content :=
  .leaf ⟨.number, r⟩ (.leaf ⟨.comma, [',']⟩ (.leaf ⟨.number, g⟩ (.leaf ⟨.comma, [',']⟩
    (.leaf ⟨.number, b⟩ (.leaf ⟨.comma, [',']⟩ (.leaf ⟨.number, a⟩ .nil))))))

/-- `Means t c q`: the text `t` is a colour of the channels `c` and the opacity `q`, in a form that browsers know.
    White space and comments may stand between its words. -/
inductive Means : Text → Rgb → ℚ → Prop
  /-- The call `rgba(r, g, b, a)`, with channels and opacity in decimals. -/
  | call {t u : Text} {body : Content} {r g b a : Text} {c : Rgb} {q : ℚ}
      (tree : (ofText t).significant = .block (.call CallName.rgba) u body true .nil)
      (arguments : body.significant = numberWords r g b a) (red : IsChannel r c.red) (green : IsChannel g c.green)
      (blue : IsChannel b c.blue) (alpha : Alpha.Writes a q) : Means t c q
  /-- Three hexadecimal digits behind a `#`, which count 17 times each.  There is no opacity but 1. -/
  | digits {t u : Text} {x y z : Char} {r g b : Nat} (tree : (ofText t).significant = .leaf ⟨.hash [x, y, z], u⟩ .nil)
      (red : hexDigit? x = some r) (green : hexDigit? y = some g) (blue : hexDigit? z = some b) :
      Means t ⟨.ofNat (17 * r), .ofNat (17 * g), .ofNat (17 * b)⟩ 1

/-- **A text means one colour at most.** -/
theorem Means.unique {t : Text} {c c' : Rgb} {q q' : ℚ} (h : Means t c q) (h' : Means t c' q') :
    c = c' ∧ q = q' := by
  have channel {d : Text} {m n : UInt8} (hm : IsChannel d m) (hn : IsChannel d n) : m = n :=
    UInt8.toNat_inj.mp (hm.2.symm.trans hn.2)
  cases h with
  | call tree arguments red green blue alpha =>
    cases h' with
    | call tree' arguments' red' green' blue' alpha' =>
      rw [tree] at tree'
      injection tree' with _ _ body
      rw [← body, arguments] at arguments'
      simp only [numberWords, Content.leaf.injEq, Lexeme.mk.injEq, true_and, and_true] at arguments'
      obtain ⟨rfl, rfl, rfl, rfl⟩ := arguments'
      obtain ⟨r, g, b⟩ := c
      obtain ⟨r', g', b'⟩ := c'
      obtain rfl : r = r' := channel red red'
      obtain rfl : g = g' := channel green green'
      obtain rfl : b = b' := channel blue blue'
      exact ⟨rfl, alpha.unique alpha'⟩
    | digits tree' =>
      rw [tree] at tree'
      cases tree'
  | digits tree red green blue =>
    cases h' with
    | call tree' =>
      rw [tree] at tree'
      cases tree'
    | digits tree' red' green' blue' =>
      rw [tree] at tree'
      simp only [Content.leaf.injEq, Lexeme.mk.injEq, Token.hash.injEq, List.cons.injEq, and_true] at tree'
      obtain ⟨⟨rfl, rfl, rfl⟩, -⟩ := tree'
      obtain rfl := Option.some.inj (red.symm.trans red')
      obtain rfl := Option.some.inj (green.symm.trans green')
      obtain rfl := Option.some.inj (blue.symm.trans blue')
      exact ⟨rfl, rfl⟩

/-! ## Two forms -/

/-- Whether a text is three hexadecimal digits behind a `#`. -/
def IsShortHex (t : Text) : Prop := ∃ digits, t = '#' :: digits ∧ digits.length = 3 ∧ digits.all isHexDigit = true

/-- Whether a text is a call of `rgba`. -/
def IsRgbaCall (t : Text) : Prop := ∃ arguments, t = CallName.rgba ++ '(' :: (arguments ++ [')'])

/-- No text has both forms. -/
theorem not_isShortHex_of_isRgbaCall {t : Text} (h : IsRgbaCall t) : ¬IsShortHex t := by
  rintro ⟨digits, hash, -⟩
  obtain ⟨arguments, rfl⟩ := h
  injection hash with first
  exact absurd first (by decide)

theorem isRgbaCall_text (c : Color) : IsRgbaCall c.text := by
  have whole := c.text_append []
  rw [List.append_nil] at whole
  exact ⟨c.row.text, whole⟩

namespace Shorthand

/-- The digits of black and of white are three. -/
theorem isShortHex_solid {s : Shorthand} {t : Text} (h : s.solid? = some t) : IsShortHex t := by
  rcases solid_eq h with rfl | rfl
  · exact ⟨['0', '0', '0'], rfl, rfl, rfl⟩
  · exact ⟨['F', 'F', 'F'], rfl, rfl, rfl⟩

/-- A standard text is a call unless there are digits for it. -/
theorem isRgbaCall_standard_iff (s : Shorthand) : IsRgbaCall s.standard ↔ s.solid? = none := by
  cases solid : s.solid? with
  | none =>
    rw [standard_of_none solid]
    exact iff_of_true (isRgbaCall_text _) rfl
  | some t =>
    rw [standard, solid, Option.getD_some]
    refine iff_of_false (fun call => ?_) (by simp)
    exact not_isShortHex_of_isRgbaCall call (isShortHex_solid solid)

/-- A standard text has one of the two forms. -/
theorem isRgbaCall_standard_iff_not_isShortHex (s : Shorthand) : IsRgbaCall s.standard ↔ ¬IsShortHex s.standard := by
  refine ⟨not_isShortHex_of_isRgbaCall, fun long => ?_⟩
  rw [isRgbaCall_standard_iff]
  cases solid : s.solid? with
  | none => rfl
  | some t =>
    rw [standard, solid, Option.getD_some] at long
    exact absurd (isShortHex_solid solid) long

/-- **Digits are for black and white** of opacity 1 only. -/
theorem isShortHex_standard_iff (s : Shorthand) :
    IsShortHex s.standard ↔ ∃ a : Alpha, a.value = 1 ∧ (s = .black a ∨ s = .white a) := by
  constructor
  · intro short
    have solid : s.solid? ≠ none := fun none =>
      not_isShortHex_of_isRgbaCall ((isRgbaCall_standard_iff s).mpr none) short
    unfold solid? at solid
    split at solid
    · exact ⟨.full, rfl, .inl rfl⟩
    · exact ⟨.full, rfl, .inr rfl⟩
    · exact absurd rfl solid
  · rintro ⟨a, one, shape⟩
    obtain rfl : a = .full := Alpha.value_injective one
    rcases shape with rfl | rfl
    · exact isShortHex_solid (s := .black .full) rfl
    · exact isShortHex_solid (s := .white .full) rfl

end Shorthand

/-! ## Standard texts -/

/-- The text of a colour is read as one call. -/
theorem ofText_color (c : Color) :
    ofText c.text = .block (.call CallName.rgba) (CallName.rgba ++ ['(']) c.row true .nil := by
  have spelled : (block (.call CallName.rgba) (CallName.rgba ++ ['(']) c.row true nil).Spelled [] [] :=
    ⟨Color.reads_standard _, by simp, c.spelled_row _ [], trivial⟩
  have whole := ofText_of_spelled spelled
  have text := c.text_append []
  rw [List.append_nil] at text
  rwa [text_call, ← text] at whole

/-- **A standard text means the colour** that its shorthand stands for. -/
theorem means_standard (s : Shorthand) : Means s.standard s.color.rgb s.color.alpha.value := by
  cases solid : s.solid? with
  | none =>
    rw [Shorthand.standard_of_none solid]
    exact .call (congrArg significant (ofText_color s.color)) rfl (isChannel_decimal _) (isChannel_decimal _)
      (isChannel_decimal _) s.color.alpha.writes_text
  | some t =>
    unfold Shorthand.solid? at solid
    split at solid
    · exact .digits (x := '0') (y := '0') (z := '0') (r := 0) (g := 0) (b := 0) rfl rfl rfl rfl
    · exact .digits (x := 'F') (y := 'F') (z := 'F') (r := 15) (g := 15) (b := 15) rfl rfl rfl rfl
    · cases solid

/-- **Nothing of a colour is lost when it is written.**  Read again, a standard text means the channels and the exact
    opacity of the colour that its shorthand stands for, and no others.  It is three digits for black and white of
    opacity 1, and a call of `rgba` for all other shorthands.  So two of those have the same text exactly if they stand
    for the same colour. -/
theorem standard_exact (s : Shorthand) :
    (∀ c q, Means s.standard c q ↔ c = s.color.rgb ∧ q = s.color.alpha.value)
      ∧ (IsShortHex s.standard ↔ ∃ a : Alpha, a.value = 1 ∧ (s = .black a ∨ s = .white a))
      ∧ (IsRgbaCall s.standard ↔ ¬IsShortHex s.standard)
      ∧ ∀ s' : Shorthand, IsRgbaCall s.standard → IsRgbaCall s'.standard →
        (s.standard = s'.standard ↔ s.color = s'.color) := by
  refine ⟨fun c q => ?_, s.isShortHex_standard_iff, s.isRgbaCall_standard_iff_not_isShortHex, fun s' call call' => ?_⟩
  · constructor
    · exact fun means => means.unique (means_standard s)
    · rintro ⟨rfl, rfl⟩
      exact means_standard s
  · rw [Shorthand.isRgbaCall_standard_iff] at call call'
    constructor
    · intro same
      have means := means_standard s
      rw [same] at means
      obtain ⟨channels, opacity⟩ := means.unique (means_standard s')
      have alpha := Alpha.value_injective opacity
      calc s.color = ⟨s.color.rgb, s.color.alpha⟩ := rfl
        _ = ⟨s'.color.rgb, s'.color.alpha⟩ := by rw [channels, alpha]
    · intro same
      rw [Shorthand.standard_of_none call, Shorthand.standard_of_none call', same]

/-- Black of one half, by its name and by its digits. -/
theorem standard_exact_half :
    let a := Alpha.fraction ['5'] (by decide)
    IsRgbaCall (Shorthand.black a).standard ∧ IsRgbaCall (Shorthand.rgbaHex .black a).standard
      ∧ (Shorthand.black a).standard = (Shorthand.rgbaHex .black a).standard
      ∧ ∀ c q, Means (Shorthand.black a).standard c q ↔ c = ⟨0, 0, 0⟩ ∧ q = 1 / 2 := by
  intro a
  obtain ⟨means, -, -, same⟩ := standard_exact (.black a)
  have call : IsRgbaCall (Shorthand.black a).standard := (Shorthand.isRgbaCall_standard_iff _).mpr rfl
  have call' : IsRgbaCall (Shorthand.rgbaHex .black a).standard := (Shorthand.isRgbaCall_standard_iff _).mpr rfl
  have half : a.value = 1 / 2 := by
    show fractionValue ['5'] = 1 / 2
    rw [fractionValue_cons, fractionValue_nil, show digitValue '5' = 5 from rfl]
    norm_num
  refine ⟨call, call', (same _ call call').mpr rfl, fun c q => ?_⟩
  rw [← half]
  exact means c q

end Translucent
