import Mathlib.Data.List.Basic
import Mathlib.Tactic.IntervalCases
import Translucent.Color.Rgb

/-!
  # Hexadecimal colours, there and back

  A colour is written as six hexadecimal digits, and read from three or six of them.

  1. **Digits** — a digit and its value determine each other up to case (`hexDigit?_digitChar`,
     `digitChar_of_hexDigit?`).
  2. **Bytes** — whether a text is made of digits can be judged by its bytes alone, since no byte of a longer
     character is a digit (`Rgb.isHex_iff`).
  3. **Channels** — `Rgb.channelHex`, the two digits of a channel, against `Rgb.channel?`; and `HexChannels`, the
     digits of a whole colour, against `Rgb.ofHex?` (`Rgb.ofHex?_eq_some_iff`).
  4. **Outside readers** — the digits may be left to a reader of colours of any kind, which is asked only for what
     `Rgb.isHex` accepts.  All that has to be known of it is `ReadsHex`; then it reads what `Rgb.ofHex?` reads
     (`Rgb.ofHexBy?_eq`).

  **Main statement** — `Rgb.ofHexBy?_hex`.
-/

namespace Translucent

/-- `HexChannels h r g b`: three or six hexadecimal digits write the channels `r`, `g` and `b`. -/
inductive HexChannels : Text → Nat → Nat → Nat → Prop
  /-- Three digits count twice each. -/
  | short {x y z : Char} {r g b : Nat} (hx : hexDigit? x = some r) (hy : hexDigit? y = some g)
      (hz : hexDigit? z = some b) : HexChannels [x, y, z] (16 * r + r) (16 * g + g) (16 * b + b)
  /-- Six digits are two for each channel. -/
  | long {x x' y y' z z' : Char} {r r' g g' b b' : Nat} (hx : hexDigit? x = some r) (hx' : hexDigit? x' = some r')
      (hy : hexDigit? y = some g) (hy' : hexDigit? y' = some g') (hz : hexDigit? z = some b)
      (hz' : hexDigit? z' = some b') :
      HexChannels [x, x', y, y', z, z'] (16 * r + r') (16 * g + g') (16 * b + b')

/-! ## Digits -/

theorem toNat_channel {n : Nat} (h : n ≤ 255) : (UInt8.ofNat n).toNat = n := by
  rw [UInt8.toNat_ofNat']
  exact Nat.mod_eq_of_lt (by omega)

/-- The digit of a value has that value. -/
theorem hexDigit?_digitChar {n : Nat} (h : n < 16) : hexDigit? (Nat.digitChar n) = some n := by
  interval_cases n <;> rfl

/-- **A digit is known by its value**, up to case. -/
theorem digitChar_of_hexDigit? {c : Char} {n : Nat} (h : hexDigit? c = some n) : Nat.digitChar n = c.toLower := by
  have same : c = Char.ofNat c.toNat := (Char.ofNat_toNat c).symm
  have codes := hexDigit?_eq_some_iff.mp h
  generalize c.toNat = k at codes same
  rcases codes with ⟨low, high, rfl⟩ | ⟨low, high, rfl⟩ | ⟨low, high, rfl⟩
  · rw [same]
    interval_cases k <;> rfl
  · rw [same]
    interval_cases k <;> rfl
  · rw [same]
    interval_cases k <;> rfl

/-! ## Bytes -/

namespace Text

/-- The bytes of the UTF-8 form of a text. -/
def bytes (t : Text) : List UInt8 := t.flatMap String.utf8EncodeChar

theorem length_bytes (t : Text) : t.bytes.length = byteLength t := by
  induction t with
  | nil => rfl
  | cons c t ih =>
    rw [bytes, List.flatMap_cons, List.length_append, String.length_utf8EncodeChar, byteLength_cons]
    exact congrArg (c.utf8Size + ·) ih

end Text

/-- The codes of the hexadecimal digits. -/
def IsHexCode (n : Nat) : Prop := (48 ≤ n ∧ n ≤ 57) ∨ (97 ≤ n ∧ n ≤ 102) ∨ (65 ≤ n ∧ n ≤ 70)

theorem isHexDigit_iff {c : Char} : isHexDigit c = true ↔ IsHexCode c.toNat := by
  rw [isHexDigit, Option.isSome_iff_exists]
  constructor
  · rintro ⟨n, value⟩
    have := hexDigit?_eq_some_iff.mp value
    unfold IsHexCode
    omega
  · rintro (codes | codes | codes)
    · exact ⟨c.toNat - 48, hexDigit?_eq_some_iff.mpr (.inl ⟨codes.1, codes.2, rfl⟩)⟩
    · exact ⟨c.toNat - 87, hexDigit?_eq_some_iff.mpr (.inr (.inl ⟨codes.1, codes.2, rfl⟩))⟩
    · exact ⟨c.toNat - 55, hexDigit?_eq_some_iff.mpr (.inr (.inr ⟨codes.1, codes.2, rfl⟩))⟩

/-- A character of several bytes starts with one that is the code of no ASCII character. -/
theorem exists_first_byte {c : Char} (h : 127 < c.toNat) :
    ∃ b rest, String.utf8EncodeChar c = b :: rest ∧ 192 ≤ b.toNat := by
  have first {n : Nat} (low : 192 ≤ n) (high : n < 256) : 192 ≤ (UInt8.ofNat n).toNat := by
    rw [UInt8.toNat_ofNat', Nat.mod_eq_of_lt high]
    exact low
  rw [String.utf8EncodeChar.eq_def]
  dsimp only
  change 127 < c.val.toNat at h
  rw [if_neg (by omega)]
  split
  · exact ⟨_, _, rfl, first (by omega) (by omega)⟩
  split
  · exact ⟨_, _, rfl, first (by omega) (by omega)⟩
  · exact ⟨_, _, rfl, first (by omega) (by omega)⟩

/-- **A character is a digit exactly if all of its bytes are**: it has one byte then. -/
theorem bytes_isHexCode (c : Char) :
    (∀ b ∈ String.utf8EncodeChar c, IsHexCode b.toNat) ↔ isHexDigit c = true := by
  rw [isHexDigit_iff]
  by_cases ascii : c.toNat ≤ 127
  · have single : String.utf8EncodeChar c = [UInt8.ofNat c.toNat] := by
      rw [String.utf8EncodeChar.eq_def]
      exact if_pos ascii
    have code : (UInt8.ofNat c.toNat).toNat = c.toNat := by
      rw [UInt8.toNat_ofNat']
      exact Nat.mod_eq_of_lt (by omega)
    rw [single, List.forall_mem_singleton, code]
  · obtain ⟨b, rest, cut, high⟩ := exists_first_byte (Nat.not_le.mp ascii)
    rw [cut]
    unfold IsHexCode
    constructor
    · intro all
      have := all b List.mem_cons_self
      omega
    · intro codes
      omega

namespace Rgb

/-- **The digits of a colour, by bytes**: the number of bytes is three or six, and each is the code of a digit. -/
theorem isHex_iff (digits : Text) : isHex digits = true ↔
    (digits.bytes.length = 3 ∨ digits.bytes.length = 6) ∧ ∀ b ∈ digits.bytes, IsHexCode b.toNat := by
  have all : (∀ b ∈ digits.bytes, IsHexCode b.toNat) ↔ digits.all isHexDigit = true := by
    rw [List.all_eq_true, Text.bytes]
    simp only [← bytes_isHexCode, List.forall_mem_flatMap]
  rw [all, isHex, Bool.and_eq_true, Bool.or_eq_true, beq_iff_eq, beq_iff_eq]
  refine and_congr_left fun hex => ?_
  -- digits have one byte each
  have short : digits.bytes.length = digits.length := by
    rw [Text.length_bytes]
    clear all
    induction digits with
    | nil => rfl
    | cons c digits ih =>
      rw [List.all_cons, Bool.and_eq_true] at hex
      have codes := isHexDigit_iff.mp hex.1
      have ascii : c.toNat ≤ 127 := by
        unfold IsHexCode at codes
        omega
      rw [Text.byteLength_cons, Text.utf8Size_of_ascii ascii, ih hex.2, List.length_cons, Nat.add_comm]
  rw [short]

/-! ## Channels -/

/-- `channelHex n` = the two small hexadecimal digits of the channel `n`. -/
def channelHex (n : UInt8) : Text := [Nat.digitChar (n.toNat / 16), Nat.digitChar (n.toNat % 16)]

/-- `hex c` = the six small hexadecimal digits of the colour `c`. -/
def hex (c : Rgb) : Text := channelHex c.red ++ channelHex c.green ++ channelHex c.blue

/-- The digits of a channel are read as that channel. -/
theorem channel?_channelHex (n : UInt8) :
    channel? (Nat.digitChar (n.toNat / 16)) (Nat.digitChar (n.toNat % 16)) = some n := by
  have bound : n.toNat < 256 := n.toNat_lt
  have value : 16 * (n.toNat / 16) + n.toNat % 16 = n.toNat := by omega
  rw [channel?, hexDigit?_digitChar (by omega), hexDigit?_digitChar (by omega)]
  show some (UInt8.ofNat (16 * (n.toNat / 16) + n.toNat % 16)) = some n
  rw [value, UInt8.ofNat_toNat]

theorem channel?_of_values {x y : Char} {high low : Nat} (hx : hexDigit? x = some high)
    (hy : hexDigit? y = some low) : channel? x y = some (UInt8.ofNat (16 * high + low)) := by
  rw [channel?, hx, hy]
  rfl

/-- Two digits make the channel of 16 times the value of the first, and that of the second. -/
theorem channel?_eq_some_iff {x y : Char} {n : UInt8} : channel? x y = some n ↔
    ∃ high low, hexDigit? x = some high ∧ hexDigit? y = some low ∧ n.toNat = 16 * high + low := by
  have value {high low : Nat} (hx : hexDigit? x = some high) (hy : hexDigit? y = some low) :
      (UInt8.ofNat (16 * high + low)).toNat = 16 * high + low := by
    have bound := hexDigit?_lt hx
    have bound' := hexDigit?_lt hy
    exact toNat_channel (by omega)
  constructor
  · intro h
    obtain ⟨high, hx, h⟩ := Option.bind_eq_some_iff.mp h
    obtain ⟨low, hy, h⟩ := Option.bind_eq_some_iff.mp h
    obtain rfl := Option.some.inj h
    exact ⟨high, low, hx, hy, value hx hy⟩
  · rintro ⟨high, low, hx, hy, channel⟩
    rw [channel?_of_values hx hy, Option.some.injEq, ← UInt8.toNat_inj, value hx hy, channel]

/-- What two digits are read as is written with the same digits, in small letters. -/
theorem channelHex_of_channel? {x y : Char} {n : UInt8} (h : channel? x y = some n) :
    channelHex n = [x.toLower, y.toLower] := by
  obtain ⟨high, low, hx, hy, value⟩ := channel?_eq_some_iff.mp h
  have bound' := hexDigit?_lt hy
  have quotient : (16 * high + low) / 16 = high := by omega
  have remainder : (16 * high + low) % 16 = low := by omega
  rw [channelHex, value, quotient, remainder, digitChar_of_hexDigit? hx, digitChar_of_hexDigit? hy]

/-- **What is written is read again.** -/
theorem ofHex?_hex (c : Rgb) : ofHex? c.hex = some c := by
  show (do return ⟨← channel? _ _, ← channel? _ _, ← channel? _ _⟩ : Option Rgb) = some c
  rw [channel?_channelHex, channel?_channelHex, channel?_channelHex]
  rfl

theorem six_digits {digits : Text} (six : digits.length = 6) :
    ∃ x x' y y' z z', digits = [x, x', y, y', z, z'] := by
  match digits, six with
  | [x, x', y, y', z, z'], _ => exact ⟨x, x', y, y', z, z', rfl⟩

/-- **What six digits are read as** is written with the same digits, in small letters. -/
theorem hex_of_ofHex? {digits : Text} {c : Rgb} (six : digits.length = 6) (h : ofHex? digits = some c) :
    c.hex = Text.lower digits := by
  obtain ⟨r, r', g, g', b, b', rfl⟩ := six_digits six
  obtain ⟨red, hr, h⟩ := Option.bind_eq_some_iff.mp h
  obtain ⟨green, hg, h⟩ := Option.bind_eq_some_iff.mp h
  obtain ⟨blue, hb, h⟩ := Option.bind_eq_some_iff.mp h
  obtain rfl := Option.some.inj h
  rw [hex, channelHex_of_channel? hr, channelHex_of_channel? hg, channelHex_of_channel? hb]
  rfl

/-- Three channels that are read are the colour. -/
theorem bind_channels {x y z : Option UInt8} {c : Rgb} :
    (do return ⟨← x, ← y, ← z⟩ : Option Rgb) = some c ↔ x = some c.red ∧ y = some c.green ∧ z = some c.blue := by
  obtain ⟨r, g, b⟩ := c
  cases x <;> cases y <;> cases z <;> simp

/-- **Digits are read as a colour** exactly if they write its channels. -/
theorem ofHex?_eq_some_iff {h : Text} {c : Rgb} :
    ofHex? h = some c ↔ HexChannels h c.red.toNat c.green.toNat c.blue.toNat := by
  constructor
  · intro read
    unfold ofHex? at read
    split at read
    · obtain ⟨red, green, blue⟩ := bind_channels.mp read
      obtain ⟨r, r', hr, hr', er⟩ := channel?_eq_some_iff.mp red
      obtain ⟨g, g', hg, hg', eg⟩ := channel?_eq_some_iff.mp green
      obtain ⟨b, b', hb, hb', eb⟩ := channel?_eq_some_iff.mp blue
      obtain rfl := Option.some.inj (hr.symm.trans hr')
      obtain rfl := Option.some.inj (hg.symm.trans hg')
      obtain rfl := Option.some.inj (hb.symm.trans hb')
      rw [er, eg, eb]
      exact .short hr hg hb
    · obtain ⟨red, green, blue⟩ := bind_channels.mp read
      obtain ⟨r, r', hr, hr', er⟩ := channel?_eq_some_iff.mp red
      obtain ⟨g, g', hg, hg', eg⟩ := channel?_eq_some_iff.mp green
      obtain ⟨b, b', hb, hb', eb⟩ := channel?_eq_some_iff.mp blue
      rw [er, eg, eb]
      exact .long hr hr' hg hg' hb hb'
    · cases read
  · intro writes
    generalize er : c.red.toNat = r at writes
    generalize eg : c.green.toNat = g at writes
    generalize eb : c.blue.toNat = b at writes
    cases writes with
    | short hx hy hz =>
      exact bind_channels.mpr ⟨channel?_eq_some_iff.mpr ⟨_, _, hx, hx, er⟩, channel?_eq_some_iff.mpr ⟨_, _, hy, hy, eg⟩,
        channel?_eq_some_iff.mpr ⟨_, _, hz, hz, eb⟩⟩
    | long hx hx' hy hy' hz hz' =>
      exact bind_channels.mpr ⟨channel?_eq_some_iff.mpr ⟨_, _, hx, hx', er⟩,
        channel?_eq_some_iff.mpr ⟨_, _, hy, hy', eg⟩, channel?_eq_some_iff.mpr ⟨_, _, hz, hz', eb⟩⟩

end Rgb

theorem HexChannels.length {h : Text} {r g b : Nat} (hh : HexChannels h r g b) : h.length = 3 ∨ h.length = 6 := by
  cases hh with
  | short => exact .inl rfl
  | long => exact .inr rfl

/-- Digits that write channels are hexadecimal, and those channels make a colour. -/
theorem HexChannels.exists_rgb {h : Text} {r g b : Nat} (hh : HexChannels h r g b) :
    h.all isHexDigit = true ∧ h ≠ [] ∧ ∃ c, Rgb.ofHex? h = some c ∧ c.red.toNat = r ∧ c.green.toNat = g
      ∧ c.blue.toNat = b := by
  have fits {x y : Char} {high low : Nat} (hx : hexDigit? x = some high) (hy : hexDigit? y = some low) :
      ∃ n : UInt8, n.toNat = 16 * high + low := by
    obtain ⟨high', low', hx', hy', value⟩ := Rgb.channel?_eq_some_iff.mp (Rgb.channel?_of_values hx hy)
    obtain rfl := Option.some.inj (hx.symm.trans hx')
    obtain rfl := Option.some.inj (hy.symm.trans hy')
    exact ⟨_, value⟩
  obtain ⟨digits, some_digit, ⟨red, er⟩, ⟨green, eg⟩, ⟨blue, eb⟩⟩ : h.all isHexDigit = true ∧ h ≠ []
      ∧ (∃ n : UInt8, n.toNat = r) ∧ (∃ n : UInt8, n.toNat = g) ∧ ∃ n : UInt8, n.toNat = b := by
    cases hh with
    | short hx hy hz => exact ⟨by simp [isHexDigit, hx, hy, hz], by simp, fits hx hx, fits hy hy, fits hz hz⟩
    | long hx hx' hy hy' hz hz' =>
      exact ⟨by simp [isHexDigit, hx, hx', hy, hy', hz, hz'], by simp, fits hx hx', fits hy hy', fits hz hz'⟩
  refine ⟨digits, some_digit, ⟨red, green, blue⟩, Rgb.ofHex?_eq_some_iff.mpr ?_, er, eg, eb⟩
  rw [er, eg, eb]
  exact hh

namespace Rgb

/-! ## Outside readers -/

/-- A reader of colours gives the channels of a colour and its opacity, out of 255. -/
abbrev Reader : Type := Text → Option (Rgb × UInt8)

/-- What is asked of a reader of colours: a digit of three stands for 17 times its value, and two digits of six for
    16 times the value of the first, and that of the second.  Colours in digits are opaque. -/
structure ReadsHex (read : Reader) : Prop where
  /-- Three digits. -/
  short : ∀ x y z r g b, hexDigit? x = some r → hexDigit? y = some g → hexDigit? z = some b →
    read ['#', x, y, z] = some (⟨.ofNat (17 * r), .ofNat (17 * g), .ofNat (17 * b)⟩, 255)
  /-- Six digits. -/
  long : ∀ x x' y y' z z' r r' g g' b b', hexDigit? x = some r → hexDigit? x' = some r' → hexDigit? y = some g →
    hexDigit? y' = some g' → hexDigit? z = some b → hexDigit? z' = some b' →
    read ['#', x, x', y, y', z, z']
      = some (⟨.ofNat (16 * r + r'), .ofNat (16 * g + g'), .ofNat (16 * b + b')⟩, 255)

/-- `ofHexBy? read digits` = the colour that `read` gives for `digits` behind a `#`, whatever its opacity.  The
    reader is asked only for digits that name a colour. -/
def ofHexBy? (read : Reader) (digits : Text) : Option Rgb :=
  if isHex digits then (read ('#' :: digits)).map Prod.fst else none

/-- A digit that counts twice. -/
theorem channel?_double {x : Char} {n : Nat} (hx : hexDigit? x = some n) :
    channel? x x = some (UInt8.ofNat (17 * n)) := by
  have double : 17 * n = 16 * n + n := by omega
  rw [channel?_of_values hx hx, double]

/-- **Whoever reads digits exactly** reads what `ofHex?` reads. -/
theorem ofHexBy?_eq {read : Reader} (exact : ReadsHex read) (digits : Text) :
    ofHexBy? read digits = ofHex? digits := by
  by_cases accepted : isHex digits = true
  · rw [ofHexBy?, if_pos accepted]
    rw [isHex, Bool.and_eq_true, Bool.or_eq_true, beq_iff_eq, beq_iff_eq, List.all_eq_true] at accepted
    obtain ⟨length, hex⟩ := accepted
    replace hex : ∀ c ∈ digits, ∃ n, hexDigit? c = some n := fun c hc => Option.isSome_iff_exists.mp (hex c hc)
    rcases length with three | six
    · obtain ⟨x, y, z, rfl⟩ := List.length_eq_three.mp three
      obtain ⟨r, hx⟩ := hex x (by simp)
      obtain ⟨g, hy⟩ := hex y (by simp)
      obtain ⟨b, hz⟩ := hex z (by simp)
      rw [exact.short x y z r g b hx hy hz, ofHex?, channel?_double hx, channel?_double hy, channel?_double hz]
      rfl
    · obtain ⟨x, x', y, y', z, z', rfl⟩ := six_digits six
      obtain ⟨r, hx⟩ := hex x (by simp)
      obtain ⟨r', hx'⟩ := hex x' (by simp)
      obtain ⟨g, hy⟩ := hex y (by simp)
      obtain ⟨g', hy'⟩ := hex y' (by simp)
      obtain ⟨b, hz⟩ := hex z (by simp)
      obtain ⟨b', hz'⟩ := hex z' (by simp)
      rw [exact.long x x' y y' z z' r r' g g' b b' hx hx' hy hy' hz hz', ofHex?, channel?_of_values hx hx',
        channel?_of_values hy hy', channel?_of_values hz hz']
      rfl
  · rw [ofHexBy?, if_neg accepted]
    symm
    rw [← Option.not_isSome_iff_eq_none, isSome_ofHex?]
    exact accepted

/-- A reader that knows nothing but digits. -/
def readDigits : Reader
  | '#' :: digits => (ofHex? digits).map (·, 255)
  | _ => none

theorem readsHex_readDigits : ReadsHex readDigits := by
  constructor
  · intro x y z r g b hx hy hz
    rw [readDigits, ofHex?, channel?_double hx, channel?_double hy, channel?_double hz]
    rfl
  · intro x x' y y' z z' r r' g g' b b' hx hx' hy hy' hz hz'
    rw [readDigits, ofHex?, channel?_of_values hx hx', channel?_of_values hy hy', channel?_of_values hz hz']
    rfl

/-- **Hexadecimal colours, read by any exact reader.**  Exactly the texts that `isHex` accepts name a colour, and
    whether it accepts one can be told from its bytes.  The six small digits of a colour are read as that colour.
    What six digits name is written with the same digits, in small letters; three digits name what they name
    doubled.  All this is what `ofHex?` reads. -/
theorem ofHexBy?_hex (read : Reader) (exact : ReadsHex read) :
    (∀ digits, (ofHexBy? read digits).isSome = true ↔ isHex digits = true)
      ∧ (∀ digits, isHex digits = true ↔ (digits.bytes.length = 3 ∨ digits.bytes.length = 6)
        ∧ ∀ b ∈ digits.bytes, IsHexCode b.toNat)
      ∧ (∀ c, c.hex.length = 6 ∧ Text.lower c.hex = c.hex ∧ ofHexBy? read c.hex = some c)
      ∧ (∀ digits, isHex digits = true → digits.length = 6 →
        ∃ c, ofHexBy? read digits = some c ∧ c.hex = Text.lower digits)
      ∧ (∀ x y z, isHex [x, y, z] = true →
        ∃ c, ofHexBy? read [x, y, z] = some c ∧ ofHexBy? read [x, x, y, y, z, z] = some c)
      ∧ ∀ digits, ofHexBy? read digits = ofHex? digits := by
  rw [show ofHexBy? read = ofHex? from funext (ofHexBy?_eq exact)]
  have named {digits : Text} (accepted : isHex digits = true) : ∃ c, ofHex? digits = some c := by
    rw [← isSome_ofHex?] at accepted
    exact Option.isSome_iff_exists.mp accepted
  refine ⟨fun digits => ?_, isHex_iff, fun c => ?_, fun digits accepted six => ?_, fun x y z accepted => ?_,
    fun _ => rfl⟩
  · rw [isSome_ofHex?]
  · exact ⟨rfl, (hex_of_ofHex? rfl (ofHex?_hex c)).symm, ofHex?_hex c⟩
  · obtain ⟨c, read_as⟩ := named accepted
    exact ⟨c, read_as, hex_of_ofHex? six read_as⟩
  · obtain ⟨c, read_as⟩ := named accepted
    exact ⟨c, read_as, read_as⟩

/-- Turquoise, read from six digits in both cases and from three. -/
theorem ofHexBy?_hex_turquoise : ReadsHex readDigits
    ∧ ofHexBy? readDigits ['0', '0', 'f', 'f', 'c', 'c'] = some ⟨0, 255, 204⟩
    ∧ (∃ c, ofHexBy? readDigits ['0', '0', 'F', 'f', 'c', 'C'] = some c ∧ c.hex = ['0', '0', 'f', 'f', 'c', 'c'])
    ∧ (∃ c, ofHexBy? readDigits ['0', 'F', 'c'] = some c
      ∧ ofHexBy? readDigits ['0', '0', 'F', 'F', 'c', 'c'] = some c)
    ∧ ¬(ofHexBy? readDigits ['é', 'f']).isSome = true := by
  obtain ⟨accepts, -, written, six, three, -⟩ := ofHexBy?_hex readDigits readsHex_readDigits
  refine ⟨readsHex_readDigits, (written ⟨0, 255, 204⟩).2.2, six _ (by decide) rfl, three _ _ _ (by decide), ?_⟩
  rw [accepts]
  decide

end Rgb

end Translucent
