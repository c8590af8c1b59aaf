import Translucent.Proofs.Color.Alpha
import Translucent.Proofs.Color.Hex
import Translucent.Proofs.Stylesheet.Steps
import Translucent.Proofs.Value.Scan

/-!
  # What is found in a value

  Which shorthands a value holds is told by its tree alone, without regard to how it is scanned.

  1. **Words** — which numbers write an opacity or a channel, and which names behind a `#` write a colour.
  2. **Shorthands** — `Calls`: calls, by the words of their arguments.  `Digits`: digits, by the number right behind
     them and what comes next.
  3. **Rows** — `Finds`: the shorthands of a row with their spans, by how the row starts.
  4. **Attempts** — what the scanner tries succeeds exactly on these words and shorthands (`call?_eq_some_iff`,
     `hexShorthand?_eq_some_iff`).
  5. **Finding** — the shorthands of a tree are found in it (`finds_shorthands`), and nothing else is (`Finds.eq`).

  **Main statement** — `occurrencesIn_iff_finds`.
-/

namespace Translucent

open Content

/-! ## Words -/

namespace Lexeme

/-- Whether a number writes an opacity: digits, with or without a point, that come to 1 at most. -/
def WritesAlpha (l : Lexeme) (a : Alpha) : Prop :=
  l.token = .number ∧ ∃ q ≤ 1, Alpha.Writes l.text q ∧ a.value = q

/-- Whether a number writes an opacity with a point and the digits behind it. -/
def WritesFraction (l : Lexeme) (a : Alpha) : Prop :=
  l.token = .number ∧ ∃ places, l.text = '.' :: places ∧ IsDigits places ∧ a.value = fractionValue places

/-- Whether a number writes a channel: digits alone, that come to 255 at most. -/
def WritesChannel (l : Lexeme) (n : UInt8) : Prop :=
  l.token = .number ∧ IsDigits l.text ∧ decimalValue l.text ≤ 255 ∧ decimalValue l.text = n.toNat

/-- Whether three or six hexadecimal digits behind a `#` write a colour. -/
def WritesRgb (l : Lexeme) (c : Rgb) : Prop :=
  ∃ digits, l.token = .hash digits ∧ HexChannels digits c.red.toNat c.green.toNat c.blue.toNat

end Lexeme

/-! ## Shorthands -/

/-- `Calls name arguments s`: with these arguments, the call of `name` is the shorthand `s`. -/
inductive Calls : Text → Content → Shorthand → Prop
  /-- `black(a)` -/
  | black {arguments : Content} {l : Lexeme} {a : Alpha} (words : arguments.significant = .leaf l .nil)
      (opacity : l.WritesAlpha a) : Calls ['b', 'l', 'a', 'c', 'k'] arguments (.black a)
  /-- `white(a)` -/
  | white {arguments : Content} {l : Lexeme} {a : Alpha} (words : arguments.significant = .leaf l .nil)
      (opacity : l.WritesAlpha a) : Calls ['w', 'h', 'i', 't', 'e'] arguments (.white a)
  /-- `white()` -/
  | clear {arguments : Content} {a : Alpha} (words : arguments.significant = .nil) (opacity : a.value = 0) :
      Calls ['w', 'h', 'i', 't', 'e'] arguments (.white a)
  /-- `rgba(#hex, a)` -/
  | hex {arguments : Content} {h m l : Lexeme} {c : Rgb} {a : Alpha}
      (words : arguments.significant = .leaf h (.leaf m (.leaf l .nil))) (color : h.WritesRgb c)
      (comma : m.token = .comma) (opacity : l.WritesAlpha a) : Calls ['r', 'g', 'b', 'a'] arguments (.rgbaHex c a)
  /-- `rgba(rgb(r, g, b), a)` -/
  | components {arguments inner : Content} {t : Text} {closed : Bool} {r m₁ g m₂ b m l : Lexeme} {c : Rgb} {a : Alpha}
      (words : arguments.significant = .block (.call ['r', 'g', 'b']) t inner closed (.leaf m (.leaf l .nil)))
      (channels : inner.significant = .leaf r (.leaf m₁ (.leaf g (.leaf m₂ (.leaf b .nil)))))
      (red : r.WritesChannel c.red) (comma₁ : m₁.token = .comma) (green : g.WritesChannel c.green)
      (comma₂ : m₂.token = .comma) (blue : b.WritesChannel c.blue) (comma : m.token = .comma)
      (opacity : l.WritesAlpha a) : Calls ['r', 'g', 'b', 'a'] arguments (.rgbaRgb c a)

/-- Whether a call is a colour, with an opacity or without. -/
def IsColorName (name : Text) : Prop :=
  name = ['r', 'g', 'b'] ∨ name = ['r', 'g', 'b', 'a'] ∨ name = ['h', 's', 'l'] ∨ name = ['h', 's', 'l', 'a']

/-- Whether a colour may end before a row: nothing is left of the level, or white space, a comma or a closing
    parenthesis comes next. -/
inductive EndsColor : Content → Prop
  | level : EndsColor .nil
  | space {l : Lexeme} (rest : Content) (h : l.token = .space) : EndsColor (.leaf l rest)
  | comma {l : Lexeme} (rest : Content) (h : l.token = .comma) : EndsColor (.leaf l rest)
  | parenthesis {l : Lexeme} (rest : Content) (h : l.token = .closing .round) : EndsColor (.leaf l rest)

/-- `Digits l n after s`: the digits `l` with the number `n` right behind them, before the row `after`, are the
    shorthand `s`. -/
inductive Digits (l n : Lexeme) (after : Content) : Shorthand → Prop
  /-- Three digits. -/
  | short {digits : Text} {c : Rgb} {a : Alpha} (hash : l.token = .hash digits) (three : digits.length = 3)
      (color : HexChannels digits c.red.toNat c.green.toNat c.blue.toNat) (opacity : n.WritesFraction a)
      (ends : EndsColor after) : Digits l n after (.shortHex c a)
  /-- Six digits. -/
  | long {digits : Text} {c : Rgb} {a : Alpha} (hash : l.token = .hash digits) (six : digits.length = 6)
      (color : HexChannels digits c.red.toNat c.green.toNat c.blue.toNat) (opacity : n.WritesFraction a)
      (ends : EndsColor after) : Digits l n after (.longHex c a)

/-! ## Rows -/

/-- The text of a block, with what opens and what closes it. -/
def blockText (o : Opener) (t : Text) (body : Content) (closed : Bool) : Text := t ++ (body.text ++ closing o closed)

/-- `Finds pos c os`: the row `c` at the byte `pos` holds the shorthands `os`. -/
inductive Finds : Nat → Content → List Occurrence → Prop
  /-- Nothing is left. -/
  | nil (pos : Nat) : Finds pos .nil []
  /-- Digits with an opacity. -/
  | digits {pos : Nat} {l n : Lexeme} {after : Content} {s : Shorthand} {os : List Occurrence}
      (found : Digits l n after s) (behind : Finds (pos + Text.byteLength (l.text ++ n.text)) after os) :
      Finds pos (.leaf l (.leaf n after)) (⟨pos, pos + Text.byteLength (l.text ++ n.text), s⟩ :: os)
  /-- Any other lexeme. -/
  | leaf {pos : Nat} {l : Lexeme} {rest : Content} {os : List Occurrence}
      (nothing : ∀ n after s, rest = .leaf n after → ¬Digits l n after s)
      (behind : Finds (pos + Text.byteLength l.text) rest os) : Finds pos (.leaf l rest) os
  /-- A block in brackets. -/
  | bracket {pos : Nat} {b : Bracket} {t : Text} {body rest : Content} {closed : Bool} {os ps : List Occurrence}
      (inside : Finds (pos + Text.byteLength t) body os)
      (behind : Finds (pos + Text.byteLength (blockText (.bracket b) t body closed)) rest ps) :
      Finds pos (.block (.bracket b) t body closed rest) (os ++ ps)
  /-- A call that is a shorthand. -/
  | call {pos : Nat} {name t : Text} {body rest : Content} {closed : Bool} {s : Shorthand} {os : List Occurrence}
      (found : Calls name body s) (ends : (blockText (.call name) t body closed).getLast? = some ')')
      (behind : Finds (pos + Text.byteLength (blockText (.call name) t body closed)) rest os) :
      Finds pos (.block (.call name) t body closed rest)
        (⟨pos, pos + Text.byteLength (blockText (.call name) t body closed), s⟩ :: os)
  /-- A call that would be one, but does not end in a parenthesis. -/
  | unended {pos : Nat} {name t : Text} {body rest : Content} {closed : Bool} {s : Shorthand} {os : List Occurrence}
      (found : Calls name body s) (ends : (blockText (.call name) t body closed).getLast? ≠ some ')')
      (behind : Finds (pos + Text.byteLength (blockText (.call name) t body closed)) rest os) :
      Finds pos (.block (.call name) t body closed rest) os
  /-- A call that is another colour. -/
  | color {pos : Nat} {name t : Text} {body rest : Content} {closed : Bool} {os : List Occurrence}
      (nothing : ∀ s, ¬Calls name body s) (color : IsColorName name)
      (behind : Finds (pos + Text.byteLength (blockText (.call name) t body closed)) rest os) :
      Finds pos (.block (.call name) t body closed rest) os
  /-- Any other call. -/
  | other {pos : Nat} {name t : Text} {body rest : Content} {closed : Bool} {os ps : List Occurrence}
      (nothing : ∀ s, ¬Calls name body s) (other : ¬IsColorName name) (inside : Finds (pos + Text.byteLength t) body os)
      (behind : Finds (pos + Text.byteLength (blockText (.call name) t body closed)) rest ps) :
      Finds pos (.block (.call name) t body closed rest) (os ++ ps)

/-! ## Attempts -/

namespace Lexeme

variable {l : Lexeme}

theorem alpha?_eq_some_iff {a : Alpha} : l.alpha? = some a ↔ l.WritesAlpha a := by
  rw [alpha?, WritesAlpha, ← Alpha.ofLiteral?_eq_some_iff]
  by_cases number : l.token = .number
  · rw [if_pos number]
    exact (and_iff_right number).symm
  · rw [if_neg number]
    exact iff_of_false (Option.some_ne_none a).symm fun h => number h.1

/-- A number that starts with its point writes an opacity by the digits behind it. -/
theorem alpha?_point_iff {a : Alpha} : (l.text.head? = some '.' ∧ l.alpha? = some a) ↔ l.WritesFraction a := by
  rw [alpha?_eq_some_iff]
  constructor
  · rintro ⟨point, number, q, -, writes, value⟩
    obtain ⟨places, text⟩ := List.head?_eq_some_iff.mp point
    have no_digit (s : Text) : ¬IsDigits ('.' :: s) := fun digits => absurd digits.2 (by simp)
    refine ⟨number, places, text, ?_⟩
    rw [text] at writes
    generalize eq : '.' :: places = t at writes
    cases writes with
    | whole digits => exact absurd (eq ▸ digits) (no_digit places)
    | @decimal d e digits _ =>
      obtain ⟨c, d, rfl⟩ := List.exists_cons_of_ne_nil digits.1
      injection eq with first
      exact absurd (first ▸ digits) (no_digit d)
    | fraction digits =>
      injection eq with _ same
      subst same
      exact ⟨digits, value⟩
  · rintro ⟨number, places, text, digits, value⟩
    refine ⟨by rw [text]; rfl, number, fractionValue places, value ▸ a.value_le_one, ?_, value⟩
    rw [text]
    exact .fraction digits

theorem channel?_eq_some_iff {n : UInt8} (some_text : l.text ≠ []) : l.channel? = some n ↔ l.WritesChannel n := by
  by_cases fits : l.token = .number ∧ l.text.all Char.isDigit ∧ decimalValue l.text ≤ 255
  · rw [channel?, if_pos fits, Option.some.injEq, ← UInt8.toNat_inj, toNat_channel fits.2.2]
    exact ⟨fun value => ⟨fits.1, ⟨some_text, fits.2.1⟩, fits.2.2, value⟩, fun h => h.2.2.2⟩
  · rw [channel?, if_neg fits]
    exact iff_of_false (Option.some_ne_none n).symm fun h => fits ⟨h.1, h.2.1.2, h.2.2.1⟩

theorem rgb?_eq_some_iff {c : Rgb} : l.rgb? = some c ↔ l.WritesRgb c := by
  unfold rgb?
  split
  · next digits hash =>
    rw [Rgb.ofHex?_eq_some_iff]
    constructor
    · exact fun writes => ⟨digits, hash, writes⟩
    · rintro ⟨digits', hash', writes⟩
      rw [hash] at hash'
      obtain rfl := Token.hash.inj hash'
      exact writes
  · next no_hash =>
    refine iff_of_false (Option.some_ne_none c).symm ?_
    rintro ⟨digits, hash, -⟩
    exact no_hash digits hash

/-- What every lexeme of a text has: some text, which ends with the parenthesis if a call is opened. -/
def IsSpelled (l : Lexeme) : Prop :=
  l.text ≠ [] ∧ ∀ name, l.token = .opening (.call name) → l.text.getLast? = some '('

end Lexeme

theorem mayEndColor_iff {c : Content} : c.mayEndColor = true ↔ EndsColor c := by
  cases c with
  | nil => exact iff_of_true rfl .level
  | leaf l rest =>
    simp only [mayEndColor, Bool.or_eq_true, beq_iff_eq]
    constructor
    · rintro ((space | comma) | parenthesis)
      · exact .space rest space
      · exact .comma rest comma
      · exact .parenthesis rest parenthesis
    · intro ends
      cases ends with
      | space _ h => exact .inl (.inl h)
      | comma _ h => exact .inl (.inr h)
      | parenthesis _ h => exact .inr h
  | block o t body closed rest =>
    refine iff_of_false Bool.false_ne_true fun ends => ?_
    cases ends

/-- **Digits with an opacity** are tried with success exactly where they are a shorthand. -/
theorem hexShorthand?_eq_some_iff {l n : Lexeme} {rest : Content} {s : Shorthand} :
    hexShorthand? l rest = some (s, n) ↔ ∃ after, rest = .leaf n after ∧ Digits l n after s := by
  constructor
  · intro found
    unfold hexShorthand? at found
    split at found
    · next digits number after hash =>
      split at found
      · next shape =>
        obtain ⟨c, color, found⟩ := Option.bind_eq_some_iff.mp found
        obtain ⟨a, opacity, found⟩ := Option.bind_eq_some_iff.mp found
        obtain ⟨rfl, rfl⟩ := Prod.mk.inj (Option.some.inj found)
        have color := Rgb.ofHex?_eq_some_iff.mp color
        have fraction := Lexeme.alpha?_point_iff.mp ⟨shape.1, opacity⟩
        have ends := mayEndColor_iff.mp shape.2
        refine ⟨after, rfl, ?_⟩
        by_cases three : digits.length = 3
        · rw [if_pos three]
          exact .short hash three color fraction ends
        · rw [if_neg three]
          exact .long hash (color.length.resolve_left three) color fraction ends
      · cases found
    · cases found
  · rintro ⟨after, rfl, digits⟩
    have found {h : Text} {c : Rgb} {a : Alpha} (hash : l.token = .hash h)
        (color : HexChannels h c.red.toNat c.green.toNat c.blue.toNat) (fraction : n.WritesFraction a)
        (ends : EndsColor after) :
        hexShorthand? l (.leaf n after) = some (if h.length = 3 then .shortHex c a else .longHex c a, n) := by
      obtain ⟨point, opacity⟩ := Lexeme.alpha?_point_iff.mpr fraction
      unfold hexShorthand?
      simp only [hash, point, mayEndColor_iff.mpr ends, Rgb.ofHex?_eq_some_iff.mpr color, opacity]
      rfl
    cases digits with
    | short hash three color fraction ends => rw [found hash color fraction ends, if_pos three]
    | long hash six color fraction ends => rw [found hash color fraction ends, if_neg (by omega)]

theorem hexShorthand?_eq_none_iff {l : Lexeme} {rest : Content} :
    hexShorthand? l rest = none ↔ ∀ n after s, rest = .leaf n after → ¬Digits l n after s := by
  rw [Option.eq_none_iff_forall_ne_some]
  constructor
  · intro failed n after s eq digits
    exact failed (s, n) (hexShorthand?_eq_some_iff.mpr ⟨after, eq, digits⟩)
  · rintro nothing ⟨s, n⟩ found
    obtain ⟨after, eq, digits⟩ := hexShorthand?_eq_some_iff.mp found
    exact nothing n after s eq digits

/-- What holds of all lexemes holds of those that count. -/
theorem Content.All.significant {p : Lexeme → Prop} {c : Content} (h : c.All p) : c.significant.All p := by
  induction c with
  | nil => trivial
  | leaf l rest ih =>
    rw [significant_leaf]
    split
    · exact ih h.2
    · exact ⟨h.1, ih h.2⟩
  | block o t body closed rest _ ih => exact ⟨h.1, h.2.1, ih h.2.2⟩

/-- Channels are tried with success exactly where they are written. -/
theorem rgbCall?_eq_some_iff {arguments : Content} {c : Rgb} (spelled : arguments.All Lexeme.IsSpelled) :
    rgbCall? arguments = some c ↔ ∃ r m₁ g m₂ b,
      arguments.significant = .leaf r (.leaf m₁ (.leaf g (.leaf m₂ (.leaf b .nil))))
        ∧ r.WritesChannel c.red ∧ m₁.token = .comma ∧ g.WritesChannel c.green ∧ m₂.token = .comma
        ∧ b.WritesChannel c.blue := by
  have words := spelled.significant
  unfold rgbCall?
  split
  · next r m₁ g m₂ b eq =>
    rw [eq] at words
    obtain ⟨⟨hr, -⟩, -, ⟨hg, -⟩, -, ⟨hb, -⟩, -⟩ := words
    constructor
    · intro found
      split at found
      · next commas =>
        obtain ⟨red, green, blue⟩ := Rgb.bind_channels.mp found
        exact ⟨r, m₁, g, m₂, b, eq, (Lexeme.channel?_eq_some_iff hr).mp red, commas.1,
          (Lexeme.channel?_eq_some_iff hg).mp green, commas.2, (Lexeme.channel?_eq_some_iff hb).mp blue⟩
      · cases found
    · rintro ⟨r', m₁', g', m₂', b', eq', red, comma₁, green, comma₂, blue⟩
      rw [eq] at eq'
      simp only [Content.leaf.injEq, and_true] at eq'
      obtain ⟨rfl, rfl, rfl, rfl, rfl⟩ := eq'
      rw [if_pos ⟨comma₁, comma₂⟩]
      exact Rgb.bind_channels.mpr ⟨(Lexeme.channel?_eq_some_iff hr).mpr red, (Lexeme.channel?_eq_some_iff hg).mpr green,
        (Lexeme.channel?_eq_some_iff hb).mpr blue⟩
  · next other =>
    refine iff_of_false (Option.some_ne_none c).symm ?_
    rintro ⟨r, m₁, g, m₂, b, eq, -⟩
    exact other r m₁ g m₂ b eq

/-- What the scanner makes of a call is a shorthand. -/
theorem calls_of_call? {name : Text} {arguments : Content} {s : Shorthand} (spelled : arguments.All Lexeme.IsSpelled)
    (found : call? name arguments = some s) : Calls name arguments s := by
  unfold call? at found
  split at found
  · next black =>
    subst black
    unfold blackCall? at found
    split at found
    · next l words =>
      obtain ⟨a, opacity, rfl⟩ := Option.map_eq_some_iff.mp found
      exact .black words (Lexeme.alpha?_eq_some_iff.mp opacity)
    · cases found
  split at found
  · next white =>
    subst white
    unfold whiteCall? at found
    split at found
    · next words =>
      obtain rfl := Option.some.inj found
      exact .clear words rfl
    · next l words =>
      obtain ⟨a, opacity, rfl⟩ := Option.map_eq_some_iff.mp found
      exact .white words (Lexeme.alpha?_eq_some_iff.mp opacity)
    · cases found
  split at found
  · next rgba =>
    subst rgba
    unfold rgbaCall? at found
    split at found
    · next h m l words =>
      split at found
      · next comma =>
        obtain ⟨c, color, found⟩ := Option.bind_eq_some_iff.mp found
        obtain ⟨a, opacity, found⟩ := Option.bind_eq_some_iff.mp found
        obtain rfl := Option.some.inj found
        exact .hex words (Lexeme.rgb?_eq_some_iff.mp color) comma (Lexeme.alpha?_eq_some_iff.mp opacity)
      · cases found
    · next inner_name t inner closed m l words =>
      split at found
      · next shape =>
        obtain ⟨rfl, comma⟩ := shape
        obtain ⟨c, color, found⟩ := Option.bind_eq_some_iff.mp found
        obtain ⟨a, opacity, found⟩ := Option.bind_eq_some_iff.mp found
        obtain rfl := Option.some.inj found
        have inside := spelled.significant
        rw [words] at inside
        obtain ⟨r, m₁, g, m₂, b, channels, red, comma₁, green, comma₂, blue⟩ :=
          (rgbCall?_eq_some_iff inside.2.1).mp color
        exact .components words channels red comma₁ green comma₂ blue comma (Lexeme.alpha?_eq_some_iff.mp opacity)
      · cases found
    · cases found
  · cases found

/-- **A call is tried** with success exactly where it is a shorthand. -/
theorem call?_eq_some_iff {name : Text} {arguments : Content} {s : Shorthand}
    (spelled : arguments.All Lexeme.IsSpelled) : call? name arguments = some s ↔ Calls name arguments s := by
  refine ⟨calls_of_call? spelled, fun calls => ?_⟩
  cases calls with
  | black words opacity =>
    show blackCall? arguments = _
    rw [blackCall?, words]
    simp only [Lexeme.alpha?_eq_some_iff.mpr opacity, Option.map_some]
  | white words opacity =>
    show whiteCall? arguments = _
    rw [whiteCall?, words]
    simp only [Lexeme.alpha?_eq_some_iff.mpr opacity, Option.map_some]
  | clear words opacity =>
    show whiteCall? arguments = _
    rw [whiteCall?, words, Alpha.value_injective (b := .transparent) opacity]
  | hex words color comma opacity =>
    show rgbaCall? arguments = _
    rw [rgbaCall?, words]
    simp only [comma, Lexeme.rgb?_eq_some_iff.mpr color, Lexeme.alpha?_eq_some_iff.mpr opacity]
    rfl
  | components words channels red comma₁ green comma₂ blue comma opacity =>
    have inside := spelled.significant
    rw [words] at inside
    have color := (rgbCall?_eq_some_iff inside.2.1).mpr ⟨_, _, _, _, _, channels, red, comma₁, green, comma₂, blue⟩
    show rgbaCall? arguments = _
    rw [rgbaCall?, words]
    simp only [comma, color, Lexeme.alpha?_eq_some_iff.mpr opacity]
    rfl

theorem call?_eq_none_iff {name : Text} {arguments : Content} (spelled : arguments.All Lexeme.IsSpelled) :
    call? name arguments = none ↔ ∀ s, ¬Calls name arguments s := by
  rw [Option.eq_none_iff_forall_ne_some]
  exact forall_congr' fun s => not_congr (call?_eq_some_iff spelled)

/-! ## Finding -/

theorem contains_colors_iff (name : Text) : CallName.colors.contains name = true ↔ IsColorName name := by
  simp only [CallName.colors, CallName.rgb, CallName.rgba, List.contains_iff_mem, List.mem_cons, List.not_mem_nil,
    or_false, IsColorName]

/-- Behind a block, its text has been passed. -/
theorem next_block (pos : Nat) (o : Opener) (t : Text) (body : Content) (closed : Bool) :
    pos + Text.byteLength t + body.width + closingWidth closed
      = pos + Text.byteLength (blockText o t body closed) := by
  rw [blockText, Text.byteLength_append, Text.byteLength_append, byteLength_closing, width_eq]
  omega

/-- The parenthesis that opens a call is none that ends it. -/
theorem getLast?_blockText (name t : Text) (opens : t.getLast? = some '(') (body : Content) (closed : Bool) :
    (blockText (.call name) t body closed).getLast? = some ')' ↔ endsInParenthesis body closed = true := by
  rw [blockText, endsInParenthesis, closing]
  simp only [List.getLast?_append, opens]
  cases closed with
  | true => exact iff_of_true rfl rfl
  | false => cases body.text.getLast? <;> simp

theorem isSpelled_ofText (v : Text) : (ofText v).All Lexeme.IsSpelled :=
  all_ofText v fun l hl => ⟨text_ne_nil l hl, fun _ opens => text_of_call hl opens⟩

theorem Digits.number {l n : Lexeme} {after : Content} {s : Shorthand} (h : Digits l n after s) :
    n.token = .number := by
  cases h with
  | short _ _ _ opacity => exact opacity.1
  | long _ _ _ opacity => exact opacity.1

/-- A number is no shorthand by itself. -/
theorem Finds.behind_number {pos : Nat} {n : Lexeme} {after : Content} {os : List Occurrence}
    (h : Finds pos (.leaf n after) os) (number : n.token = .number) :
    Finds (pos + Text.byteLength n.text) after os := by
  cases h with
  | digits found _ =>
    cases found with
    | short hash => rw [number] at hash; cases hash
    | long hash => rw [number] at hash; cases hash
  | leaf _ behind => exact behind

/-- **The shorthands of a tree are found in it.** -/
theorem finds_shorthands {c : Content} (spelled : c.All Lexeme.IsSpelled) (pos : Nat) :
    Finds pos c (c.shorthands pos) := by
  induction c generalizing pos with
  | nil => exact .nil pos
  | leaf l rest ih =>
    have tail := ih spelled.2 (pos + Text.byteLength l.text)
    rw [shorthands]
    cases found : hexShorthand? l rest with
    | none => exact .leaf (hexShorthand?_eq_none_iff.mp found) tail
    | some r =>
      obtain ⟨s, n⟩ := r
      obtain ⟨after, rfl, digits⟩ := hexShorthand?_eq_some_iff.mp found
      have behind := tail.behind_number digits.number
      dsimp only
      rw [Nat.add_assoc, ← Text.byteLength_append] at behind ⊢
      exact .digits digits behind
  | block o t body closed rest ihb ihr =>
    have inside := ihb spelled.2.1 (pos + Text.byteLength t)
    have behind := ihr spelled.2.2 (pos + Text.byteLength (blockText o t body closed))
    cases o with
    | bracket b =>
      rw [shorthands, next_block pos (.bracket b)]
      exact .bracket inside behind
    | call name =>
      rw [shorthands, next_block pos (.call name)]
      have ends := getLast?_blockText name t (spelled.1.2 name rfl) body closed
      cases found : call? name body with
      | some s =>
        have calls := (call?_eq_some_iff spelled.2.1).mp found
        dsimp only
        split
        · next whole => exact .call calls (ends.mpr whole) behind
        · next unended => exact .unended calls (mt ends.mp unended) behind
      | none =>
        have nothing := (call?_eq_none_iff spelled.2.1).mp found
        dsimp only
        split
        · next color => exact .color nothing ((contains_colors_iff name).mp color) behind
        · next other => exact .other nothing (mt (contains_colors_iff name).mpr other) inside behind

/-- **Nothing else is found in it.** -/
theorem Finds.eq {pos : Nat} {c : Content} {os : List Occurrence} (h : Finds pos c os)
    (spelled : c.All Lexeme.IsSpelled) : os = c.shorthands pos := by
  induction h with
  | nil => rfl
  | @digits pos l n after s os found behind ih =>
    have tried : hexShorthand? l (.leaf n after) = some (s, n) := hexShorthand?_eq_some_iff.mpr ⟨after, rfl, found⟩
    have none_left : hexShorthand? n after = none := by
      unfold hexShorthand?
      rw [found.number]
    rw [shorthands, tried, ih spelled.2.2]
    dsimp only
    rw [shorthands, none_left, Text.byteLength_append, Nat.add_assoc]
  | @leaf pos l rest os nothing behind ih =>
    rw [shorthands, hexShorthand?_eq_none_iff.mpr nothing, ih spelled.2]
  | @bracket pos b t body rest closed os ps inside behind ihb ihr =>
    rw [ihb spelled.2.1, ihr spelled.2.2, shorthands, next_block pos (.bracket b)]
  | @call pos name t body rest closed s os found ends behind ih =>
    have tried := (call?_eq_some_iff spelled.2.1).mpr found
    have whole := (getLast?_blockText name t (spelled.1.2 name rfl) body closed).mp ends
    rw [ih spelled.2.2, shorthands, next_block pos (.call name)]
    simp only [tried, if_pos whole]
  | @unended pos name t body rest closed s os found ends behind ih =>
    have tried := (call?_eq_some_iff spelled.2.1).mpr found
    have unended := mt (getLast?_blockText name t (spelled.1.2 name rfl) body closed).mpr ends
    rw [ih spelled.2.2, shorthands, next_block pos (.call name)]
    simp only [tried, if_neg unended]
  | @color pos name t body rest closed os nothing color behind ih =>
    rw [ih spelled.2.2, shorthands, next_block pos (.call name)]
    simp only [(call?_eq_none_iff spelled.2.1).mpr nothing, if_pos ((contains_colors_iff name).mpr color)]
  | @other pos name t body rest closed os ps nothing other inside behind ihb ihr =>
    rw [ihb spelled.2.1, ihr spelled.2.2, shorthands, next_block pos (.call name)]
    simp only [(call?_eq_none_iff spelled.2.1).mpr nothing, if_neg (mt (contains_colors_iff name).mp other)]

/-- **The scanner refines the tree**: in a value with no block deeper than 128 levels, what is found by reading,
    trying and going back are the shorthands that the rows of its tree hold, with their spans. -/
theorem occurrencesIn_iff_finds (v : Text) (h : (ofText v).depth ≤ 128) (os : List Occurrence) :
    occurrencesIn v = os ↔ Finds 0 (ofText v) os := by
  have spelled := isSpelled_ofText v
  have found : occurrencesIn v = (ofText v).shorthands 0 := (occurrencesIn_eq v).trans (occurrences_outside h)
  rw [found]
  constructor
  · rintro rfl
    exact finds_shorthands spelled 0
  · exact fun finds => (finds.eq spelled).symm

/-- Digits within a call that is no colour, both kinds of `rgba()`, one within brackets, and the calls of names:
    `f(#0A0B0c.5)rgba( rgb(1,2 , 255),/*a*/.5)[rgba(#fff,1)]black(1)white()`. -/
theorem occurrencesIn_iff_finds_arguments :
    let v := ['f', '(', '#', '0', 'A', '0', 'B', '0', 'c', '.', '5', ')', 'r', 'g', 'b', 'a', '(', ' ', 'r', 'g', 'b',
      '(', '1', ',', '2', ' ', ',', ' ', '2', '5', '5', ')', ',', '/', '*', 'a', '*', '/', '.', '5', ')', '[', 'r', 'g',
      'b', 'a', '(', '#', 'f', 'f', 'f', ',', '1', ')', ']', 'b', 'l', 'a', 'c', 'k', '(', '1', ')', 'w', 'h', 'i', 't',
      'e', '(', ')']
    let half := Alpha.fraction ['5'] (by decide)
    let os := [⟨2, 11, .longHex ⟨10, 11, 12⟩ half⟩, ⟨12, 41, .rgbaRgb ⟨1, 2, 255⟩ half⟩,
      ⟨42, 54, .rgbaHex ⟨255, 255, 255⟩ .full⟩, ⟨55, 63, .black .full⟩, ⟨63, 70, .white .transparent⟩]
    (ofText v).depth ≤ 128 ∧ occurrencesIn v = os ∧ Finds 0 (ofText v) os := by
  intro v half os
  have shallow : (ofText v).depth ≤ 128 := by decide
  have found : occurrencesIn v = os := (occurrencesIn_eq v).trans ((occurrences_outside shallow).trans (by decide))
  exact ⟨shallow, found, (occurrencesIn_iff_finds v shallow os).mp found⟩

end Translucent
