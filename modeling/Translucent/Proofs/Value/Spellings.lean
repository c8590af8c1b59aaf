import Translucent.Proofs.Color.Alpha
import Translucent.Proofs.Color.Hex
import Translucent.Proofs.Content.Gap
import Translucent.Proofs.Value.Spans

/-!
  # Every spelling of a shorthand is expanded

  A shorthand that makes up a whole value is found whole and expanded to the colour that it names, whatever white space
  and comments stand between its words, however many digits its numbers have, and in whatever case its hexadecimal
  digits are.

  1. **Spellings** — `Spells v t`: by its text the value `v` is a shorthand, and by the values of its digits `t` is the
     text of its colour.
  2. **Whole values** — a shorthand that is all of a value is the one thing found in it (`found_of_whole`,
     `found_of_digits`), and is expanded to its standard text (`expand_of_found`).
  3. **Colours** — the channels of digits, and the standard texts of black and white (`standard_black`, …).
  4. **The arguments of calls** — the shorthand of a call by the words that its arguments signify
     (`blackCall?_number`, …, `rgbaCall?_call`).
  5. **Found whole** — every spelling, by its kind, is found as a shorthand of its colour (`found_of_spells`).

  **Main statement** — `expand_of_spells`.
-/

namespace Translucent

open Content

/-! ## Spellings -/

/-- `rgbaText r g b a` = `rgba(r, g, b, a)`, with the channels in decimal digits. -/
def rgbaText (r g b : Nat) (a : Text) : Text :=
  ['r', 'g', 'b', 'a', '('] ++ Nat.toDigits 10 r ++ [',', ' '] ++ Nat.toDigits 10 g ++ [',', ' ']
    ++ Nat.toDigits 10 b ++ [',', ' '] ++ a ++ [')']

/-- `Components d₁ d₂ d₃ l v`: the value `v` is `rgba(rgb(d₁, d₂, d₃), l)` with gaps around all arguments. -/
def Components (d₁ d₂ d₃ l v : Text) : Prop :=
  ∃ p₁ p₂ p₃ inner p, Padded d₁ p₁ ∧ Padded d₂ p₂ ∧ Padded d₃ p₃
    ∧ Padded (callText CallName.rgb (p₁ ++ ',' :: (p₂ ++ ',' :: p₃))) inner ∧ Padded l p
    ∧ v = callText CallName.rgba (inner ++ ',' :: p)

/-- `Spells v t`: the value `v` is one of the spellings of a shorthand, and `t` is the text of the colour that it
    names. -/
inductive Spells : Text → Text → Prop
  /-- Black with an opacity. -/
  | black {l p : Text} {a : Alpha} {q : ℚ} (hl : Alpha.ofLiteral? l = some a) (hq : Alpha.Writes l q)
      (hp : Padded l p) :
      Spells (callText CallName.black p) (if q = 1 then ['#', '0', '0', '0'] else rgbaText 0 0 0 a.text)
  /-- White with an opacity. -/
  | white {l p : Text} {a : Alpha} {q : ℚ} (hl : Alpha.ofLiteral? l = some a) (hq : Alpha.Writes l q)
      (hp : Padded l p) :
      Spells (callText CallName.white p) (if q = 1 then ['#', 'F', 'F', 'F'] else rgbaText 255 255 255 a.text)
  /-- White without an opacity. -/
  | clear {w : Text} (hw : Gap w) : Spells (callText CallName.white w) (rgbaText 255 255 255 ['0'])
  /-- Digits with an opacity right behind them. -/
  | digits {h l : Text} {a : Alpha} {r g b : Nat} (hh : HexChannels h r g b) (hl : Alpha.ofLiteral? l = some a)
      (point : l.head? = some '.') : Spells ('#' :: (h ++ l)) (rgbaText r g b a.text)
  /-- Digits and an opacity as arguments. -/
  | hex {h l ph p : Text} {a : Alpha} {r g b : Nat} (hh : HexChannels h r g b) (hl : Alpha.ofLiteral? l = some a)
      (hp : Padded ('#' :: h) ph) (hp' : Padded l p) :
      Spells (callText CallName.rgba (ph ++ ',' :: p)) (rgbaText r g b a.text)
  /-- The call of `rgb` and an opacity as arguments. -/
  | components {d₁ d₂ d₃ l v : Text} {a : Alpha} (h₁ : IsDigits d₁) (h₂ : IsDigits d₂) (h₃ : IsDigits d₃)
      (hl : Alpha.ofLiteral? l = some a) (hv : Components d₁ d₂ d₃ l v)
      (fit : decimalValue d₁ ≤ 255 ∧ decimalValue d₂ ≤ 255 ∧ decimalValue d₃ ≤ 255) :
      Spells v (rgbaText (decimalValue d₁) (decimalValue d₂) (decimalValue d₃) a.text)

/-! ## Whole values -/

/-- A block that is all of a value and a shorthand is the one thing found. -/
theorem found_of_whole {v t : Text} {o : Opener} {r : Content} {closed : Bool} {s : Shorthand}
    (tree : ofText v = .block o t r closed .nil) (whole : whole? o r closed = some s) :
    occurrencesIn v = [⟨0, Text.byteLength v, s⟩] := by
  have width : 0 + Text.byteLength t + r.width + closingWidth closed = Text.byteLength v := by
    rw [← text_ofText v, ← width_eq, tree, Content.width, Content.width]
    omega
  rw [occurrencesIn_eq, tree, occurrences_shallow (by decide), whole]
  dsimp only
  rw [width]
  rfl

/-- A closed call that is all of a value and a shorthand is the one thing found. -/
theorem found_of_call {v f t : Text} {r : Content} {s : Shorthand}
    (tree : ofText v = .block (.call f) t r true .nil) (found : call? f r = some s) :
    occurrencesIn v = [⟨0, Text.byteLength v, s⟩] := by
  refine found_of_whole tree ?_
  rw [whole?]
  exact (if_pos rfl).trans found

/-- A call of the name of a colour that is no shorthand is not searched: where it is all of a value, nothing is found. -/
theorem nothing_of_color {v f t : Text} {r : Content} (tree : ofText v = .block (.call f) t r true .nil)
    (color : CallName.colors.contains f = true) (nothing : call? f r = none) : occurrencesIn v = [] := by
  have whole : whole? (.call f) r true = none := by rw [whole?, nothing, ite_self]
  have passed : isSearched (.call f) r = false := by
    rw [isSearched, color]
    exact Bool.and_false _
  rw [occurrencesIn_eq, tree, occurrences_shallow (by decide), whole, passed]
  rfl

/-- Digits and a number that are all of a value are the one thing found. -/
theorem found_of_digits {v : Text} {l n : Lexeme} {s : Shorthand} (tree : ofText v = .leaf l (.leaf n .nil))
    (found : hexShorthand? l (.leaf n .nil) = some (s, n)) : occurrencesIn v = [⟨0, Text.byteLength v, s⟩] := by
  obtain ⟨-, number, -⟩ := parts_of_hexShorthand? found
  have no_hash := hexShorthand?_of_ne (l := n) (by rw [number]; simp) .nil
  have width : 0 + Text.byteLength l.text + Text.byteLength n.text = Text.byteLength v := by
    rw [← text_ofText v, ← width_eq, tree, Content.width, Content.width, Content.width]
    omega
  rw [occurrencesIn_eq, tree, occurrences, found]
  dsimp only
  rw [occurrences, no_hash, width]
  rfl

/-- A shorthand that is all of a value gives way to its standard text. -/
theorem expand_of_found {v : Text} {s : Shorthand} (h : occurrencesIn v = [⟨0, Text.byteLength v, s⟩]) :
    expand v = some s.standard := by
  have some_text : v ≠ [] := by
    rintro rfl
    have nothing : occurrencesIn [] = [] := by rw [occurrencesIn_eq]; rfl
    exact List.cons_ne_nil _ _ (h.symm.trans nothing)
  have cut := @Respelled.shorthand 0 [] v [] [] ⟨0, Text.byteLength v, s⟩ [] rfl
    (Nat.zero_add _).symm some_text (.rest _ [])
  rw [List.nil_append, List.append_nil, List.nil_append, List.append_nil, ← h] at cut
  exact cut.expand_eq (by rw [h]; exact List.cons_ne_nil _ _)

/-! ## Colours -/

/-- A literal that writes a number is a decimal. -/
theorem Alpha.Writes.isDecimal {l : Text} {q : ℚ} (h : Alpha.Writes l q) : IsDecimal l := by
  cases h with
  | whole hd => exact ⟨l, [], (List.append_nil l).symm, hd.2, .inl ⟨hd.1, rfl⟩⟩
  | @decimal d e hd he => exact ⟨d, '.' :: e, rfl, hd.2, .inr ⟨e, rfl, he.1, he.2⟩⟩
  | @fraction e he => exact ⟨[], '.' :: e, rfl, rfl, .inr ⟨e, rfl, he.1, he.2⟩⟩

/-- What is read as an opacity is a decimal. -/
theorem isDecimal_of_ofLiteral? {l : Text} {a : Alpha} (h : Alpha.ofLiteral? l = some a) : IsDecimal l :=
  (Alpha.writes_of_ofLiteral? h).isDecimal

theorem isDecimal_of_isDigits {d : Text} (h : IsDigits d) : IsDecimal d :=
  ⟨d, [], (List.append_nil d).symm, h.2, .inl ⟨h.1, rfl⟩⟩

/-- The number of an opacity is read as that opacity. -/
theorem alpha?_number {l : Text} {a : Alpha} (h : Alpha.ofLiteral? l = some a) :
    Lexeme.alpha? ⟨.number, l⟩ = some a := (if_pos rfl).trans h

/-- Digits are a channel exactly if their value is at most 255. -/
theorem channel?_digits {d : Text} (h : IsDigits d) : Lexeme.channel? ⟨.number, d⟩
    = if decimalValue d ≤ 255 then some (UInt8.ofNat (decimalValue d)) else none := by
  by_cases fits : decimalValue d ≤ 255
  · rw [if_pos fits]
    exact if_pos ⟨rfl, h.2, fits⟩
  · rw [if_neg fits]
    exact if_neg fun h => fits h.2.2

/-- The text of a colour, by its channels. -/
theorem Color.text_eq (c : Color) :
    c.text = rgbaText c.rgb.red.toNat c.rgb.green.toNat c.rgb.blue.toNat c.alpha.text := rfl

section Standard

variable {l : Text} {a : Alpha} {q : ℚ} (hl : Alpha.ofLiteral? l = some a) (hq : Alpha.Writes l q)
include hl hq

/-- An opacity is the full one exactly if the literal writes 1. -/
theorem eq_full_iff : a = .full ↔ q = 1 := by
  rw [← (Alpha.writes_of_ofLiteral? hl).unique hq]
  constructor
  · rintro rfl
    rfl
  · exact fun h => Alpha.value_injective (b := .full) h

theorem standard_black :
    (Shorthand.black a).standard = if q = 1 then ['#', '0', '0', '0'] else rgbaText 0 0 0 a.text := by
  have full := eq_full_iff hl hq
  cases a with
  | full => rw [if_pos (full.mp rfl)]; rfl
  | transparent => rw [if_neg (mt full.mpr (by simp))]; rfl
  | fraction digits shortest => rw [if_neg (mt full.mpr (by simp))]; rfl

theorem standard_white :
    (Shorthand.white a).standard = if q = 1 then ['#', 'F', 'F', 'F'] else rgbaText 255 255 255 a.text := by
  have full := eq_full_iff hl hq
  cases a with
  | full => rw [if_pos (full.mp rfl)]; rfl
  | transparent => rw [if_neg (mt full.mpr (by simp))]; rfl
  | fraction digits shortest => rw [if_neg (mt full.mpr (by simp))]; rfl

end Standard

/-! ## The arguments of calls -/

section Arguments

variable {l : Text} {a : Alpha} (hl : Alpha.ofLiteral? l = some a)
include hl

theorem blackCall?_number {c : Content} (h : c.significant = numberWord l) : blackCall? c = some (.black a) := by
  rw [blackCall?, h]
  exact congrArg (Option.map Shorthand.black) (alpha?_number hl)

theorem whiteCall?_number {c : Content} (h : c.significant = numberWord l) : whiteCall? c = some (.white a) := by
  rw [whiteCall?, h]
  exact congrArg (Option.map Shorthand.white) (alpha?_number hl)

theorem rgbaCall?_hash {c : Content} {h : Text} {rgb : Rgb} (hh : Rgb.ofHex? h = some rgb)
    (hc : c.significant = (hashWord h).append (.leaf ⟨.comma, [',']⟩ (numberWord l))) :
    rgbaCall? c = some (.rgbaHex rgb a) := by
  have color : Lexeme.rgb? ⟨.hash h, '#' :: h⟩ = some rgb := hh
  rw [rgbaCall?, hc]
  simp only [hashWord, numberWord, leaf_append, nil_append, color, alpha?_number hl]
  rfl

end Arguments

/-- Digits are the channels of `rgb` exactly if all of their values are at most 255. -/
theorem rgbCall?_digits {d₁ d₂ d₃ : Text} (h₁ : IsDigits d₁) (h₂ : IsDigits d₂) (h₃ : IsDigits d₃) {c : Content}
    (hc : c.significant = (numberWord d₁).append (.leaf ⟨.comma, [',']⟩
      ((numberWord d₂).append (.leaf ⟨.comma, [',']⟩ (numberWord d₃))))) :
    rgbCall? c = if decimalValue d₁ ≤ 255 ∧ decimalValue d₂ ≤ 255 ∧ decimalValue d₃ ≤ 255 then
      some ⟨.ofNat (decimalValue d₁), .ofNat (decimalValue d₂), .ofNat (decimalValue d₃)⟩ else none := by
  rw [rgbCall?, hc]
  simp only [numberWord, leaf_append, nil_append, and_self, if_true, channel?_digits h₁, channel?_digits h₂,
    channel?_digits h₃]
  by_cases fit₁ : decimalValue d₁ ≤ 255
  · by_cases fit₂ : decimalValue d₂ ≤ 255
    · by_cases fit₃ : decimalValue d₃ ≤ 255
      · simp [fit₁, fit₂, fit₃]
      · simp [fit₁, fit₂, fit₃]
    · simp [fit₁, fit₂]
  · simp [fit₁]

/-- A call of `rgb` and an opacity are a shorthand of `rgba` exactly if the call has a colour. -/
theorem rgbaCall?_call {l : Text} {a : Alpha} (hl : Alpha.ofLiteral? l = some a) {c inner : Content} {t : Text}
    (hc : c.significant = (Content.block (.call CallName.rgb) t inner true .nil).append
      (.leaf ⟨.comma, [',']⟩ (numberWord l))) :
    rgbaCall? c = (rgbCall? inner).map (.rgbaRgb · a) := by
  rw [rgbaCall?, hc]
  simp only [numberWord, block_append, nil_append, and_self, if_true, alpha?_number hl]
  cases rgbCall? inner <;> rfl

/-! ## Found whole -/

/-- A number with gaps around it, before a comma or a closing parenthesis. -/
theorem signifies_number (stack : List Bracket) {u p : Text} (h : IsDecimal u) (hp : Padded u p) {m : Char}
    (hm : m = ',' ∨ m = ')') (z : Text) : Signifies stack (m :: z) p (numberWord u) :=
  (isWord_number stack h).signifies (by rwa [text_numberWord]) hm z

/-- A call is found whole if its name and what its arguments signify make a shorthand. -/
theorem found_of_signifies {f p : Text} {c : Content} {s : Shorthand} (h : Signifies [.round] [')'] p c)
    (letters : f.all Char.isAlpha = true) (some_letter : f ≠ []) (url : Token.isUrlName f = false)
    (found : ∀ r : Content, r.significant = c → call? f r = some s) :
    occurrencesIn (callText f p) = [⟨0, Text.byteLength (callText f p), s⟩] := by
  obtain ⟨r, significant, tree⟩ := h.ofText_call letters some_letter url
  exact found_of_call tree (found r significant)

/-- A number that starts with its point, right behind hexadecimal digits. -/
theorem found_hex {h l : Text} {a : Alpha} {rgb : Rgb} (digits : h.all isHexDigit = true) (some_digit : h ≠ [])
    (hh : Rgb.ofHex? h = some rgb) (hl : Alpha.ofLiteral? l = some a) (point : l.head? = some '.') :
    ∃ s : Shorthand, occurrencesIn ('#' :: (h ++ l)) = [⟨0, Text.byteLength ('#' :: (h ++ l)), s⟩]
      ∧ s.standard = Color.text ⟨rgb, a⟩ := by
  have tree : ofText ('#' :: (h ++ l)) = .leaf ⟨.hash h, '#' :: h⟩ (numberWord l) := by
    have text : (Content.leaf ⟨.hash h, '#' :: h⟩ (numberWord l)).text = '#' :: (h ++ l) :=
      (text_leaf _ _).trans (congrArg (('#' :: h) ++ ·) (text_numberWord l))
    rw [← text]
    refine ofText_of_spelled ⟨?_, by simp, by simp, (isDecimal_of_ofLiteral? hl).reads delimited_nil, by simp, by simp,
      trivial⟩
    obtain ⟨e, rfl⟩ := List.head?_eq_some_iff.mp point
    exact reads_hash digits some_digit rfl (by decide) _
  refine ⟨if h.length = 3 then .shortHex rgb a else .longHex rgb a, found_of_digits tree ?_, ?_⟩
  · simp only [hexShorthand?, point, mayEndColor, and_self, if_true, hh, alpha?_number hl]
    rfl
  · split <;> rfl

/-- A call of `rgb` with digits and an opacity, as the tree of its text. -/
theorem Components.exists_tree {d₁ d₂ d₃ l v : Text} {a : Alpha} (h₁ : IsDigits d₁) (h₂ : IsDigits d₂)
    (h₃ : IsDigits d₃) (hl : Alpha.ofLiteral? l = some a) (hv : Components d₁ d₂ d₃ l v) :
    ∃ (r : Content) (t : Text), ofText v = .block (.call CallName.rgba) t r true .nil
      ∧ rgbaCall? r = if decimalValue d₁ ≤ 255 ∧ decimalValue d₂ ≤ 255 ∧ decimalValue d₃ ≤ 255 then
        some (.rgbaRgb ⟨.ofNat (decimalValue d₁), .ofNat (decimalValue d₂), .ofNat (decimalValue d₃)⟩ a) else none := by
  obtain ⟨p₁, p₂, p₃, inner, p, hp₁, hp₂, hp₃, hinner, hp, rfl⟩ := hv
  have number {d p : Text} (hd : IsDigits d) (hp : Padded d p) {m : Char} (hm : m = ',' ∨ m = ')') (z : Text) :=
    signifies_number [.round, .round] (isDecimal_of_isDigits hd) hp hm z
  have channels := (number h₁ hp₁ (.inl rfl) _).comma ((number h₂ hp₂ (.inl rfl) _).comma (number h₃ hp₃ (.inr rfl) []))
  obtain ⟨c, significant, word, text⟩ := channels.isWord_call (f := CallName.rgb) (by decide) (by decide) (by decide)
  have arguments := (word.signifies (by rwa [text]) (.inl rfl) _).comma
    (signifies_number [.round] (isDecimal_of_ofLiteral? hl) hp (.inr rfl) [])
  obtain ⟨r, significant', tree⟩ := arguments.ofText_call (f := CallName.rgba) (by decide) (by decide) (by decide)
  refine ⟨r, _, tree, ?_⟩
  rw [rgbaCall?_call hl significant', rgbCall?_digits h₁ h₂ h₃ significant]
  split <;> rfl

/-- Every spelling is found whole, as a shorthand of the colour that it names. -/
theorem found_of_spells {v t : Text} (h : Spells v t) :
    ∃ s : Shorthand, occurrencesIn v = [⟨0, Text.byteLength v, s⟩] ∧ s.standard = t := by
  cases h with
  | @black l p a q hl hq hp =>
    refine ⟨.black a, ?_, standard_black hl hq⟩
    exact found_of_signifies (signifies_number _ (isDecimal_of_ofLiteral? hl) hp (.inr rfl) []) (by decide)
      (by decide) (by decide) fun r hr => blackCall?_number hl hr
  | @white l p a q hl hq hp =>
    refine ⟨.white a, ?_, standard_white hl hq⟩
    exact found_of_signifies (signifies_number _ (isDecimal_of_ofLiteral? hl) hp (.inr rfl) []) (by decide)
      (by decide) (by decide) fun r hr => whiteCall?_number hl hr
  | @clear w hw =>
    refine ⟨.white .transparent, ?_, rfl⟩
    refine found_of_signifies (hw.signifies (by simp [Character.isSpace, Character.isNewline]) [.round]) (by decide)
      (by decide) (by decide) fun r hr => ?_
    rw [call?, if_neg (by decide), if_pos rfl, whiteCall?, hr]
  | @digits h l a r g b hh hl point =>
    obtain ⟨digits, some_digit, rgb, color, rfl, rfl, rfl⟩ := hh.exists_rgb
    exact found_hex digits some_digit color hl point
  | @hex h l ph p a r g b hh hl hp hp' =>
    obtain ⟨digits, some_digit, rgb, color, rfl, rfl, rfl⟩ := hh.exists_rgb
    have arguments := ((isWord_hash [.round] digits some_digit).signifies (by rwa [text_hashWord]) (.inl rfl) _).comma
      (signifies_number [.round] (isDecimal_of_ofLiteral? hl) hp' (.inr rfl) [])
    refine ⟨.rgbaHex rgb a, ?_, rfl⟩
    exact found_of_signifies arguments (by decide) (by decide) (by decide) fun r hr => rgbaCall?_hash hl color hr
  | @components d₁ d₂ d₃ l v a h₁ h₂ h₃ hl hv fit =>
    obtain ⟨r, t, tree, found⟩ := hv.exists_tree h₁ h₂ h₃ hl
    rw [if_pos fit] at found
    refine ⟨_, found_of_call tree found, ?_⟩
    refine (Color.text_eq _).trans ?_
    simp only [Shorthand.color, toNat_channel fit.1, toNat_channel fit.2.1, toNat_channel fit.2.2]

/-- **Every spelling of a shorthand** that makes up a value is found whole and expanded to the text of the colour that
    it names.  Only `rgb` with a channel above 255 is no shorthand, and nothing is found then. -/
theorem expand_of_spells :
    (∀ v t, Spells v t → (∃ s : Shorthand, occurrencesIn v = [⟨0, Text.byteLength v, s⟩]) ∧ expand v = some t)
      ∧ ∀ d₁ d₂ d₃ l a v, IsDigits d₁ → IsDigits d₂ → IsDigits d₃ → Alpha.ofLiteral? l = some a →
        Components d₁ d₂ d₃ l v →
        ¬(decimalValue d₁ ≤ 255 ∧ decimalValue d₂ ≤ 255 ∧ decimalValue d₃ ≤ 255) →
        occurrencesIn v = [] ∧ expand v = none := by
  constructor
  · intro v t h
    obtain ⟨s, found, rfl⟩ := found_of_spells h
    exact ⟨⟨s, found⟩, expand_of_found found⟩
  · intro d₁ d₂ d₃ l a v h₁ h₂ h₃ hl hv large
    obtain ⟨r, t, tree, nothing⟩ := hv.exists_tree h₁ h₂ h₃ hl
    rw [if_neg large] at nothing
    have none_found := nothing_of_color tree (by decide) nothing
    exact ⟨none_found, by rw [expand, none_found]⟩

/-- Black behind a space and before a comment, and a channel of 256. -/
theorem expand_of_spells_black_and_large :
    let v := CallName.black ++ ['(', ' ', '.', '5', '/', '*', '*', '/', ')']
    let w := CallName.rgba ++ '(' :: (CallName.rgb ++ ['(', '2', '5', '6', ',', '0', ',', '0', ')', ',', '1', ')'])
    expand v = some (rgbaText 0 0 0 ['0', '.', '5']) ∧ occurrencesIn w = [] ∧ expand w = none := by
  intro v w
  have around {x : Text} : Padded x x := ⟨[], [], .nil, .nil, (List.append_nil x).symm⟩
  constructor
  · have nothing : ¬['*', '/'] <:+: [] := by decide
    have padded : Padded ['.', '5'] [' ', '.', '5', '/', '*', '*', '/'] :=
      ⟨[' '], ['/', '*', '*', '/'], .space rfl .nil, .comment nothing .nil, rfl⟩
    have half : Alpha.Writes ['.', '5'] (fractionValue ['5']) := .fraction ⟨by simp, rfl⟩
    have spells : Spells v _ := .black (a := .fraction ['5'] (by decide)) rfl half padded
    rw [if_neg (ne_of_lt (fractionValue_bounds rfl).2)] at spells
    exact (expand_of_spells.1 v _ spells).2
  · have components : Components ['2', '5', '6'] ['0'] ['0'] ['1'] w :=
      ⟨_, _, _, _, _, around, around, around, around, around, rfl⟩
    exact expand_of_spells.2 ['2', '5', '6'] ['0'] ['0'] ['1'] .full w ⟨by simp, rfl⟩ ⟨by simp, rfl⟩ ⟨by simp, rfl⟩ rfl
      components (by decide)

end Translucent
