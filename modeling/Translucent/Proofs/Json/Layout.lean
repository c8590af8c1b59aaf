import Translucent.Json.Check

/-!
  # JSON values and their layouts

  A JSON value is a tree.  A *layout* of it is any text that writes it: white space may stand around all tokens, and
  each character of a string may be spelled in several ways.

  1. **Strings** — `Symbol.Spelled`, the spellings of what a string is made of, and `Quoted` for whole strings.
  2. **Numbers** — `IsNumber`; a number is kept as it is written, since JSON sets no bound to its digits.
  3. **Values** — `Value` and, with one constructor for each form, `Layout`.
-/

namespace Translucent.Json

/-- Whether a text is white space, or empty. -/
def IsGap (t : Text) : Prop := ∀ c ∈ t, isSpace c = true

instance (t : Text) : Decidable (IsGap t) := List.decidableBAll (isSpace · = true) t

theorem isGap_nil : IsGap [] := fun _ hc => absurd hc List.not_mem_nil

/-! ## Strings -/

/-- What a string is made of. -/
inductive Symbol
  /-- A character. -/
  | char (c : Char)
  /-- Half of a surrogate pair without its other half.  It is no character, but there is a spelling for it. -/
  | half (code : Nat)

/-- `IsCode n t`: the four hexadecimal digits `t`, in any case, write the number `n`. -/
inductive IsCode : Nat → Text → Prop
  /-- Four digits with their values. -/
  | digits {a b c d : Char} {x y z w : Nat} (ha : hexDigit? a = some x) (hb : hexDigit? b = some y)
      (hc : hexDigit? c = some z) (hd : hexDigit? d = some w) :
      IsCode (16 * (16 * (16 * x + y) + z) + w) [a, b, c, d]

/-- The characters with a letter or mark of their own, which stands for them behind a backslash. -/
def escapes : List (Char × Char) :=
  [('\x22', '\x22'), ('\\', '\\'), ('/', '/'), ('b', '\x08'), ('f', '\x0c'), ('n', '\n'), ('r', '\r'), ('t', '\t')]

/-- The first half of the pair for a code above those of four digits. -/
def firstHalf (n : Nat) : Nat := 0xD800 + (n - 0x10000) / 0x400

/-- The second half of that pair. -/
def secondHalf (n : Nat) : Nat := 0xDC00 + (n - 0x10000) % 0x400

/-- `x.Spelled t`: within a string the text `t` is a spelling of the symbol `x`. -/
inductive Symbol.Spelled : Symbol → Text → Prop
  /-- A character stands for itself, but for quotation marks, backslashes and the controls below the space. -/
  | plain {c : Char} (quote : c ≠ '\x22') (backslash : c ≠ '\\') (control : 0x20 ≤ c.toNat) : Spelled (char c) [c]
  /-- A letter or mark behind a backslash. -/
  | escape {e c : Char} (h : (e, c) ∈ escapes) : Spelled (char c) ['\\', e]
  /-- The code of a character. -/
  | code {c : Char} {t : Text} (h : IsCode c.toNat t) : Spelled (char c) ('\\' :: 'u' :: t)
  /-- The pair of codes of a character whose own code has more than four digits. -/
  | pair {c : Char} {t u : Text} (large : 0x10000 ≤ c.toNat) (ht : IsCode (firstHalf c.toNat) t)
      (hu : IsCode (secondHalf c.toNat) u) : Spelled (char c) ('\\' :: 'u' :: (t ++ '\\' :: 'u' :: u))
  /-- The code of half a pair. -/
  | half {n : Nat} {t : Text} (surrogate : 0xD800 ≤ n ∧ n ≤ 0xDFFF) (h : IsCode n t) :
      Spelled (half n) ('\\' :: 'u' :: t)

/-- Symbols in a row, each in a spelling of its own. -/
inductive SpelledAll : List Symbol → Text → Prop
  /-- No symbol. -/
  | nil : SpelledAll [] []
  /-- A symbol before others. -/
  | cons {x : Symbol} {s : List Symbol} {t u : Text} (first : x.Spelled t) (rest : SpelledAll s u) :
      SpelledAll (x :: s) (t ++ u)

/-- `Quoted s t`: the text `t` is a string of the symbols `s` in its quotation marks. -/
def Quoted (s : List Symbol) (t : Text) : Prop := ∃ u, SpelledAll s u ∧ t = '\x22' :: (u ++ ['\x22'])

/-! ## Numbers -/

/-- Digits that do not start with a zero, or a lone zero. -/
def IsWhole (t : Text) : Prop := t = ['0'] ∨ IsDigits t ∧ t.head? ≠ some '0'

/-- A point with digits behind it, or nothing. -/
def IsPlaces (t : Text) : Prop := t = [] ∨ ∃ d, IsDigits d ∧ t = '.' :: d

/-- The letter of an exponent with digits behind it, with or without a sign, or nothing. -/
def IsExponent (t : Text) : Prop :=
  t = [] ∨ ∃ (e : Char) (sign d : Text), (e = 'e' ∨ e = 'E') ∧ (sign = [] ∨ sign = ['+'] ∨ sign = ['-'])
    ∧ IsDigits d ∧ t = e :: (sign ++ d)

/-- Whether a text is a number. -/
def IsNumber (t : Text) : Prop :=
  ∃ sign whole places exponent : Text, (sign = [] ∨ sign = ['-']) ∧ IsWhole whole ∧ IsPlaces places
    ∧ IsExponent exponent ∧ t = sign ++ (whole ++ (places ++ exponent))

/-! ## Values -/

/-- A JSON value. -/
inductive Value
  /-- The word `null`. -/
  | null
  /-- One of the words `true` and `false`. -/
  | bool (b : Bool)
  /-- A number, as it is written. -/
  | number (literal : Text) (valid : IsNumber literal)
  /-- A string. -/
  | string (s : List Symbol)
  /-- Values in a row. -/
  | array (elements : List Value)
  /-- Values with names, which are texts.  A name may come more than once. -/
  | object (members : List (Text × Value))

/-- `NameLayout n t`: the text `t` is the name `n` in quotation marks, with white space around. -/
def NameLayout (n t : Text) : Prop :=
  ∃ g q g' : Text, IsGap g ∧ Quoted (n.map .char) q ∧ IsGap g' ∧ t = g ++ (q ++ g')

mutual

/-- `Written v t`: the text `t` writes the value `v`, from its first character to its last. -/
inductive Written : Value → Text → Prop
  /-- The word for nothing. -/
  | null : Written .null ['n', 'u', 'l', 'l']
  /-- The word for yes. -/
  | yes : Written (.bool true) ['t', 'r', 'u', 'e']
  /-- The word for no. -/
  | no : Written (.bool false) ['f', 'a', 'l', 's', 'e']
  /-- A number. -/
  | number (literal : Text) (valid : IsNumber literal) : Written (.number literal valid) literal
  /-- A string. -/
  | string {s : List Symbol} {t : Text} (h : Quoted s t) : Written (.string s) t
  /-- An array of nothing. -/
  | emptyArray {g : Text} (hg : IsGap g) : Written (.array []) ('[' :: (g ++ [']']))
  /-- An array of something. -/
  | array {vs : List Value} {t : Text} (h : Elements vs t) : Written (.array vs) ('[' :: (t ++ [']']))
  /-- An object of nothing. -/
  | emptyObject {g : Text} (hg : IsGap g) : Written (.object []) ('\x7b' :: (g ++ ['\x7d']))
  /-- An object of something. -/
  | object {ms : List (Text × Value)} {t : Text} (h : Members ms t) : Written (.object ms) ('\x7b' :: (t ++ ['\x7d']))

/-- `Layout v t`: the text `t` writes the value `v`, with white space around. -/
inductive Layout : Value → Text → Prop
  /-- What is written, between gaps. -/
  | mk {v : Value} {g t g' : Text} (hg : IsGap g) (h : Written v t) (hg' : IsGap g') : Layout v (g ++ (t ++ g'))

/-- The elements of an array, of which there is one at least, with commas between. -/
inductive Elements : List Value → Text → Prop
  /-- The last element. -/
  | last {v : Value} {t : Text} (h : Layout v t) : Elements [v] t
  /-- An element before others. -/
  | more {v : Value} {vs : List Value} {t u : Text} (h : Layout v t) (rest : Elements vs u) :
      Elements (v :: vs) (t ++ ',' :: u)

/-- The members of an object, of which there is one at least, with commas between. -/
inductive Members : List (Text × Value) → Text → Prop
  /-- The last member. -/
  | last {n : Text} {v : Value} {t u : Text} (name : NameLayout n t) (h : Layout v u) : Members [(n, v)] (t ++ ':' :: u)
  /-- A member before others. -/
  | more {n : Text} {v : Value} {ms : List (Text × Value)} {t u w : Text} (name : NameLayout n t) (h : Layout v u)
      (rest : Members ms w) : Members ((n, v) :: ms) (t ++ ':' :: (u ++ ',' :: w))

end

end Translucent.Json
