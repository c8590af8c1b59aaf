import Translucent.Proofs.Token.Plain
import Translucent.Stylesheet.Items

/-!
  # Drafts of style sheets

  A `Draft` is a tree of items that is written down without ambiguities.

  1. **Drafts** — names, values and preludes over plain characters; `print` writes a draft, `declarations` and `rules`
     say what should be read from its text, with all spans, and `items` the same in one row (`declarations_items`,
     `rules_items`).
  2. **Characters** — what may stand in a name, a value or a prelude is plain.
  3. **Trimming** — nothing but the mark of importance and the space before it is taken off a value
     (`splitImportant_mark`).
-/

namespace Translucent

/-! ## Drafts -/

namespace Draft

/-- A letter, and then letters, digits and hyphens. -/
def isName : Text → Bool
  | [] => false
  | c :: s => c.isAlpha && s.all fun d => d.isAlphanum || d == '-'

/-- A name, or one behind two hyphens. -/
def isProperty (t : Text) : Bool :=
  isName t || (t.take 2 == ['-', '-'] && isName (t.drop 2))

/-- Some text without a space at either end. -/
def isTrimmed (t : Text) : Bool := t ≠ [] && t.head? ≠ some ' ' && t.getLast? ≠ some ' '

/-- What drafts are written with, but for curly brackets and semicolons. -/
def isChar (c : Char) : Bool :=
  c.isAlphanum || [' ', '#', '.', ',', '%', '-', '!', '>', '&', ':', '(', ')'].contains c

/-- What may be printed as a value: its parentheses are balanced. -/
def isValue (t : Text) : Bool :=
  isTrimmed t && parens 0 t == some 0
    && t.all fun c => c.isAlphanum || [' ', '#', '.', ',', '%', '-', '(', ')'].contains c

/-- What may be printed before a block or behind an at-keyword. -/
def isPrelude (t : Text) : Bool :=
  isTrimmed t && t.take 2 ≠ ['-', '-']
    && t.all fun c => c.isAlphanum || [' ', '.', '#', ':', '>', '&', ',', '-'].contains c

/-- A name behind an `@`. -/
abbrev Name := { t : Text // isName t = true }

/-- The name of a property. -/
abbrev Property := { t : Text // isProperty t = true }

/-- A value. -/
abbrev Value := { t : Text // isValue t = true }

/-- What stands before a block or behind an at-keyword. -/
abbrev Prelude := { t : Text // isPrelude t = true }

end Draft

/-- A tree of items in the order of their text. -/
inductive Draft
  /-- Nothing more. -/
  | nil
  /-- `name:value;` or `name:value !important;` -/
  | declaration (name : Draft.Property) (value : Draft.Value) (important : Bool) (rest : Draft)
  /-- A prelude and a block of items. -/
  | style (prelude : Draft.Prelude) (inner rest : Draft)
  /-- `@name prelude` and a block of items. -/
  | atRule (name : Draft.Name) (prelude : Draft.Prelude) (inner rest : Draft)
  /-- `@name prelude;` -/
  | statement (name : Draft.Name) (prelude : Draft.Prelude) (rest : Draft)

namespace Draft

/-- What is printed behind an important value. -/
def importantMark (important : Bool) : Text :=
  if important then [' ', '!', 'i', 'm', 'p', 'o', 'r', 't', 'a', 'n', 't'] else []

/-- The text of a draft. -/
def print : Draft → Text
  | nil => []
  | declaration n v important rest =>
    n.1 ++ ':' :: ((v.1 ++ importantMark important) ++ ';' :: print rest)
  | style p inner rest => p.1 ++ '\x7b' :: (print inner ++ '\x7d' :: print rest)
  | atRule n p inner rest =>
    '@' :: (n.1 ++ ' ' :: (p.1 ++ '\x7b' :: (print inner ++ '\x7d' :: print rest)))
  | statement n p rest => '@' :: (n.1 ++ ' ' :: (p.1 ++ ';' :: print rest))

/-- `declarations pos T` = the declarations of the draft `T` itself, printed at the byte `pos`: the letters of a name
    are small unless it starts with two hyphens, and the span is where the value is printed. -/
def declarations (pos : Nat) : Draft → List Declaration
  | nil => []
  | declaration n v important rest =>
    let start := pos + Text.byteLength n.1 + 1
    let stop := start + Text.byteLength v.1
    ⟨if n.1.take 2 = ['-', '-'] then n.1 else n.1.map Char.toLower, v.1, important, start, stop⟩
      :: declarations (stop + Text.byteLength (importantMark important) + 1) rest
  | style p inner rest =>
    declarations (pos + Text.byteLength p.1 + 1 + Text.byteLength (print inner) + 1) rest
  | atRule n p inner rest =>
    declarations (pos + Text.byteLength n.1 + Text.byteLength p.1 + 3 + Text.byteLength (print inner) + 1) rest
  | statement n p rest => declarations (pos + Text.byteLength n.1 + Text.byteLength p.1 + 3) rest

/-- `rules pos T` = the rules of the draft `T` itself, printed at the byte `pos`, each with what is printed in its
    block.  The letters of an at-keyword are small. -/
def rules (pos : Nat) : Draft → List Rule
  | nil => []
  | declaration n v important rest =>
    rules (pos + Text.byteLength n.1 + 1 + Text.byteLength v.1 + Text.byteLength (importantMark important) + 1) rest
  | style p inner rest =>
    let body := pos + Text.byteLength p.1 + 1
    .mk (.style p.1) (declarations body inner) (rules body inner)
      :: rules (body + Text.byteLength (print inner) + 1) rest
  | atRule n p inner rest =>
    let body := pos + Text.byteLength n.1 + Text.byteLength p.1 + 3
    .mk (.atRule (n.1.map Char.toLower) p.1) (declarations body inner) (rules body inner)
      :: rules (body + Text.byteLength (print inner) + 1) rest
  | statement n p rest =>
    .mk (.atRule (n.1.map Char.toLower) p.1) [] []
      :: rules (pos + Text.byteLength n.1 + Text.byteLength p.1 + 3) rest

/-- `items pos T` = the declarations and rules of the draft `T`, printed at the byte `pos`, as one row. -/
def items (pos : Nat) : Draft → Items
  | nil => .nil
  | declaration n v important rest =>
    let start := pos + Text.byteLength n.1 + 1
    let stop := start + Text.byteLength v.1
    .declaration ⟨propertyName n.1, v.1, important, start, stop⟩
      (items (stop + Text.byteLength (importantMark important) + 1) rest)
  | style p inner rest =>
    let body := pos + Text.byteLength p.1 + 1
    .rule (.style p.1) (items body inner) (items (body + Text.byteLength (print inner) + 1) rest)
  | atRule n p inner rest =>
    let body := pos + Text.byteLength n.1 + Text.byteLength p.1 + 3
    .rule (.atRule (Text.lower n.1) p.1) (items body inner)
      (items (body + Text.byteLength (print inner) + 1) rest)
  | statement n p rest =>
    .rule (.atRule (Text.lower n.1) p.1) .nil
      (items (pos + Text.byteLength n.1 + Text.byteLength p.1 + 3) rest)

/-- `nesting T` = how many blocks inside one another there are in `T`, at most. -/
def nesting : Draft → Nat
  | nil => 0
  | declaration _ _ _ rest => nesting rest
  | style _ inner rest => max (nesting inner + 1) (nesting rest)
  | atRule _ _ inner rest => max (nesting inner + 1) (nesting rest)
  | statement _ _ rest => nesting rest

/-! ## Reading in one row -/

/-- Two hyphens make a name that of a custom property. -/
theorem isCustomName_iff (t : Text) : isCustomName t = true ↔ t.take 2 = ['-', '-'] := by
  constructor
  · intro custom
    unfold isCustomName at custom
    split at custom
    · rfl
    · cases custom
  · intro hyphens
    rw [← List.take_append_drop 2 t, hyphens]
    rfl

theorem propertyName_eq (t : Text) :
    propertyName t = if t.take 2 = ['-', '-'] then t else t.map Char.toLower := by
  by_cases custom : t.take 2 = ['-', '-']
  · rw [propertyName, if_pos ((isCustomName_iff t).mpr custom), if_pos custom]
  · rw [propertyName, if_neg (mt (isCustomName_iff t).mp custom), if_neg custom]
    rfl

/-- The row of a draft holds its declarations. -/
theorem declarations_items (T : Draft) (pos : Nat) : (T.items pos).declarations = T.declarations pos := by
  induction T generalizing pos with
  | nil => rfl
  | declaration n v important rest ih => rw [items, declarations, Items.declarations, ih, propertyName_eq]
  | style p inner rest _ ih => exact ih _
  | atRule n p inner rest _ ih => exact ih _
  | statement n p rest ih => exact ih _

/-- It holds its rules. -/
theorem rules_items (T : Draft) (pos : Nat) : (T.items pos).rules = T.rules pos := by
  induction T generalizing pos with
  | nil => rfl
  | declaration n v important rest ih => exact ih _
  | style p inner rest ihInner ih => rw [items, rules, Items.rules, declarations_items, ihInner, ih]
  | atRule n p inner rest ihInner ih =>
    rw [items, rules, Items.rules, declarations_items, ihInner, ih]
    rfl
  | statement n p rest ih =>
    rw [items, rules, Items.rules, ih]
    rfl

/-! ## Characters of the pieces -/

/-- Letters, digits and hyphens may stand in any name, and mean themselves. -/
theorem nameChar_of {c : Char} (h : (c.isAlphanum || c == '-') = true) :
    Character.isNameChar c = true ∧ c ≠ '\\' ∧ c ≠ '\x00' := by
  refine ⟨?_, ?_, ?_⟩
  · unfold Char.isAlphanum at h
    simp only [Bool.or_eq_true, beq_iff_eq] at h
    simp only [Character.isNameChar, Character.isNameStart, Bool.or_eq_true, beq_iff_eq]
    rcases h with (h | h) | h
    · exact .inl (.inl (.inl (.inl (.inl h))))
    · exact .inl (.inr h)
    · exact .inr h
  · rintro rfl; exact absurd h (by decide)
  · rintro rfl; exact absurd h (by decide)

theorem chars_of_isName {t : Text} (h : isName t = true) :
    ∀ c ∈ t, (c.isAlphanum || c == '-') = true := by
  cases t with
  | nil => cases h
  | cons c s =>
    simp only [isName, Bool.and_eq_true, List.all_eq_true] at h
    intro d hd
    rcases List.mem_cons.mp hd with rfl | hd
    · unfold Char.isAlphanum
      rw [h.1]
      rfl
    · exact h.2 d hd

theorem chars_of_isProperty {t : Text} (h : isProperty t = true) :
    ∀ c ∈ t, (c.isAlphanum || c == '-') = true := by
  simp only [isProperty, Bool.or_eq_true, Bool.and_eq_true, beq_iff_eq] at h
  rcases h with h | ⟨hyphens, h⟩
  · exact chars_of_isName h
  · intro c hc
    rw [← List.take_append_drop 2 t, hyphens] at hc
    rcases List.mem_append.mp hc with hc | hc
    · simp only [List.mem_cons, List.not_mem_nil, or_false, or_self] at hc
      subst hc
      rfl
    · exact chars_of_isName h c hc

/-- What drafts are written with is plain. -/
theorem isPlain_of_isChar {c : Char} (h : isChar c = true) : Character.isPlain c = true := by
  have alone : Character.wild.any isChar = false := by decide
  rw [Character.isPlain, Bool.not_eq_true']
  refine Bool.eq_false_iff.mpr fun wild => ?_
  exact List.any_eq_false.mp alone c (List.contains_iff_mem.mp wild) h

/-- A value is plain, balanced and trimmed. -/
theorem plain_of_isValue {t : Text} (h : isValue t = true) :
    (∀ c ∈ t, isChar c = true) ∧ parens 0 t = some 0 ∧ isTrimmed t = true := by
  simp only [isValue, Bool.and_eq_true, beq_iff_eq, List.all_eq_true, Bool.or_eq_true,
    List.contains_iff_mem] at h
  obtain ⟨⟨trimmed, balanced⟩, chars⟩ := h
  refine ⟨fun c hc => ?_, balanced, trimmed⟩
  rcases chars c hc with h | h
  · rw [isChar, h]; rfl
  · exact (List.all_eq_true (p := isChar)).mp rfl c h

/-- A value holds no exclamation mark. -/
theorem noMark_of_isValue {t : Text} (h : isValue t = true) : '!' ∉ t := by
  simp only [isValue, Bool.and_eq_true, List.all_eq_true] at h
  exact fun mem => absurd (h.2 _ mem) (by decide)

/-- A prelude is plain, has no parentheses, and is trimmed. -/
theorem plain_of_isPrelude {t : Text} (h : isPrelude t = true) :
    (∀ c ∈ t, isChar c = true ∧ c ≠ '(' ∧ c ≠ ')') ∧ isTrimmed t = true
      ∧ t.take 2 ≠ ['-', '-'] := by
  simp only [isPrelude, Bool.and_eq_true, decide_eq_true_eq, List.all_eq_true, Bool.or_eq_true,
    List.contains_iff_mem] at h
  obtain ⟨⟨trimmed, single⟩, chars⟩ := h
  refine ⟨fun c hc => ?_, trimmed, single⟩
  rcases chars c hc with h | h
  · refine ⟨by rw [isChar, h]; rfl, ?_, ?_⟩ <;> rintro rfl <;> exact absurd h (by decide)
  · refine ⟨(List.all_eq_true (p := isChar)).mp rfl c h, ?_, ?_⟩ <;> rintro rfl <;>
      exact absurd h (by decide)

/-- With its mark of importance, a value is still plain and balanced. -/
theorem plain_of_marked (v : Value) (important : Bool) :
    (∀ c ∈ v.1 ++ importantMark important, isChar c = true)
      ∧ parens 0 (v.1 ++ importantMark important) = some 0 := by
  obtain ⟨plain, balanced, -⟩ := plain_of_isValue v.2
  have mark : ∀ c ∈ importantMark important, isChar c = true ∧ c ≠ '(' ∧ c ≠ ')' := by
    intro c hc
    have all : (importantMark important).all (fun c => isChar c && c != '(' && c != ')')
        = true := by
      cases important <;> rfl
    have h := List.all_eq_true.mp all c hc
    simp only [Bool.and_eq_true, bne_iff_ne] at h
    exact ⟨h.1.1, h.1.2, h.2⟩
  constructor
  · intro c hc
    rcases List.mem_append.mp hc with hc | hc
    · exact plain c hc
    · exact (mark c hc).1
  · rw [parens_append, balanced]
    exact parens_of_none (fun c hc => (mark c hc).2) 0

/-- Behind a space, a prelude is plain and balanced. -/
theorem plain_of_spaced (p : Prelude) :
    (∀ c ∈ ' ' :: p.1, isChar c = true) ∧ parens 0 (' ' :: p.1) = some 0 := by
  obtain ⟨plain, -, -⟩ := plain_of_isPrelude p.2
  constructor
  · intro c hc
    rcases List.mem_cons.mp hc with rfl | hc
    · rfl
    · exact (plain c hc).1
  · exact parens_of_none (fun c hc => (plain c hc).2) 0

/-- The only blank in plain text is the space. -/
theorem eq_space_of_isBlank {c : Char} (plain : isChar c = true)
    (blank : Text.isBlank c = true) : c = ' ' := by
  simp only [isChar, Bool.or_eq_true, List.contains_iff_mem, List.mem_cons,
    List.not_mem_nil, or_false] at plain
  rcases plain with alpha | rfl | rfl | rfl | rfl | rfl | rfl | rfl | rfl | rfl | rfl | rfl | rfl
  · exfalso
    unfold Char.isAlphanum Char.isAlpha Char.isUpper Char.isLower Char.isDigit at alpha
    unfold Text.isBlank Char.toNat at blank
    simp only [Bool.or_eq_true, Bool.and_eq_true, decide_eq_true_eq, UInt32.le_iff_toNat_le,
      ge_iff_le, Char.reduceVal, UInt32.reduceToNat] at alpha
    simp only [Bool.or_eq_true, Bool.and_eq_true, decide_eq_true_eq, beq_iff_eq] at blank
    omega
  · rfl
  all_goals exact absurd blank (by decide)

/-! ## Trimming -/

/-- What does not start with a blank is not trimmed there. -/
theorem trimStart_of_head {t : Text} (h : ∀ c ∈ t.head?, Text.isBlank c = false) :
    Text.trimStart t = t := by
  cases t with
  | nil => rfl
  | cons c t => rw [Text.trimStart, List.dropWhile_cons_of_neg (by rw [h c rfl]; exact Bool.false_ne_true)]

/-- What does not end with a blank is not trimmed there. -/
theorem trimEnd_of_last {t : Text} (h : ∀ c ∈ t.getLast?, Text.isBlank c = false) :
    Text.trimEnd t = t := by
  have first : Text.trimStart t.reverse = t.reverse :=
    trimStart_of_head fun c hc => h c (by rw [← List.head?_reverse]; exact hc)
  rw [Text.trimEnd, show t.reverse.dropWhile Text.isBlank = t.reverse from first, List.reverse_reverse]

/-- A blank behind a text is trimmed away. -/
theorem trimEnd_concat {b : Char} (hb : Text.isBlank b = true) {t : Text}
    (h : ∀ c ∈ t.getLast?, Text.isBlank c = false) : Text.trimEnd (t ++ [b]) = t := by
  rw [Text.trimEnd, List.reverse_append, List.reverse_singleton, List.singleton_append,
    List.dropWhile_cons_of_pos hb]
  exact trimEnd_of_last h

variable {t : Text}

/-- The first character of a trimmed text is not blank, if the text is plain. -/
theorem head_of_isTrimmed (trimmed : isTrimmed t = true)
    (plain : ∀ c ∈ t, isChar c = true) : ∀ c ∈ t.head?, Text.isBlank c = false := by
  simp only [isTrimmed, Bool.and_eq_true, decide_eq_true_eq] at trimmed
  intro c hc
  refine Bool.eq_false_iff.mpr fun blank => trimmed.1.2 ?_
  rw [← eq_space_of_isBlank (plain c (List.mem_of_mem_head? hc)) blank]
  exact hc

/-- Neither is the last one. -/
theorem last_of_isTrimmed (trimmed : isTrimmed t = true)
    (plain : ∀ c ∈ t, isChar c = true) : ∀ c ∈ t.getLast?, Text.isBlank c = false := by
  simp only [isTrimmed, Bool.and_eq_true, decide_eq_true_eq] at trimmed
  intro c hc
  refine Bool.eq_false_iff.mpr fun blank => trimmed.2 ?_
  rw [← eq_space_of_isBlank (plain c (List.mem_of_mem_getLast? hc)) blank]
  exact hc

theorem ne_nil_of_isTrimmed (trimmed : isTrimmed t = true) : t ≠ [] := by
  simp only [isTrimmed, Bool.and_eq_true, decide_eq_true_eq] at trimmed
  exact trimmed.1.1

/-- Trimmed text stays as it is, and a space before it goes. -/
theorem trim_of_isTrimmed (trimmed : isTrimmed t = true)
    (plain : ∀ c ∈ t, isChar c = true) :
    Text.trim t = t ∧ Text.trim (' ' :: t) = t := by
  have start := trimStart_of_head (head_of_isTrimmed trimmed plain)
  have stop := trimEnd_of_last (last_of_isTrimmed trimmed plain)
  have space : Text.trimStart (' ' :: t) = Text.trimStart t :=
    List.dropWhile_cons_of_pos (by decide)
  rw [Text.trim, Text.trim, space, start, stop]
  exact ⟨rfl, rfl⟩

/-- The mark behind a value is taken off, and nothing else. -/
theorem splitImportant_mark (trimmed : isTrimmed t = true)
    (plain : ∀ c ∈ t, isChar c = true) (noMark : '!' ∉ t) (important : Bool) :
    splitImportant (t ++ importantMark important) = (t, important) := by
  have head := head_of_isTrimmed trimmed plain
  have last := last_of_isTrimmed trimmed plain
  cases important with
  | false =>
    rw [importantMark, if_neg Bool.false_ne_true, List.append_nil]
    simp only [splitImportant, (trim_of_isTrimmed trimmed plain).1]
    -- no exclamation mark can be found
    refine if_neg fun found => noMark ?_
    have mem := List.mem_of_getLast? found.2
    have inside : ∀ s : Text, ∀ c ∈ Text.trimEnd s, c ∈ s := by
      intro s c hc
      rw [← Text.trimEnd_append_blanks s]
      exact List.mem_append_left _ hc
    exact List.mem_of_mem_take (inside _ _ mem)
  | true =>
    have eq : t ++ importantMark true = (t ++ [' ', '!']) ++ importantWord := by
      rw [importantMark, if_pos rfl, List.append_assoc]; rfl
    have start : Text.trimStart (t ++ [' ', '!'] ++ importantWord) = t ++ [' ', '!'] ++ importantWord := by
      refine trimStart_of_head fun c hc => head c ?_
      obtain ⟨d, s, rfl⟩ := List.exists_cons_of_ne_nil (ne_nil_of_isTrimmed trimmed)
      exact hc
    have stop : Text.trimEnd (t ++ [' ', '!'] ++ importantWord) = t ++ [' ', '!'] ++ importantWord := by
      apply trimEnd_of_last
      intro c hc
      rw [List.getLast?_append] at hc
      obtain rfl : 't' = c := Option.some.inj hc
      rfl
    have cut : (t ++ [' ', '!'] ++ importantWord).length - importantWord.length
        = (t ++ [' ', '!']).length := by
      rw [List.length_append, Nat.add_sub_cancel]
    have before : Text.trimEnd (t ++ [' ', '!']) = t ++ [' ', '!'] := by
      apply trimEnd_of_last
      intro c hc
      rw [List.getLast?_append] at hc
      obtain rfl : '!' = c := Option.some.inj hc
      rfl
    have mark : (t ++ [' ', '!']).getLast? = some '!' := by rw [List.getLast?_append]; rfl
    have space : (t ++ [' ', '!']).dropLast = t ++ [' '] := by
      rw [show [' ', '!'] = [' '] ++ ['!'] from rfl, ← List.append_assoc, List.dropLast_concat]
    rw [eq]
    simp only [splitImportant, Text.trim, start, stop, cut, List.take_left, List.drop_left, before]
    rw [if_pos ⟨rfl, mark⟩, space, trimEnd_concat (by decide) last]

/-- The declaration of a printed value is that value, where it was printed. -/
theorem ofParts_value (name : Text) (pos : Nat) (v : Value) (important : Bool) :
    Declaration.ofParts name pos (v.1 ++ importantMark important)
      = ⟨propertyName name, v.1, important, pos, pos + Text.byteLength v.1⟩ := by
  obtain ⟨v, hv⟩ := v
  obtain ⟨plain, -, trimmed⟩ := plain_of_isValue hv
  have blanks : (v ++ importantMark important).takeWhile Text.isBlank = [] := by
    have head := head_of_isTrimmed trimmed plain
    obtain ⟨c, s, rfl⟩ := List.exists_cons_of_ne_nil (ne_nil_of_isTrimmed trimmed)
    exact List.takeWhile_cons_of_neg (by rw [head c rfl]; exact Bool.false_ne_true)
  rw [Declaration.ofParts, splitImportant_mark trimmed plain (noMark_of_isValue hv) important, blanks]
  rfl

end Draft

end Translucent
