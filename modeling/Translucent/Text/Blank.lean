import Translucent.Text

/-!
  # Blank characters and trimming

  `isBlank` is the Unicode property `White_Space`.  It is wider than the white space of style
  sheets, which is only what separates tokens: a no-break space is blank at the end of a value, yet
  part of a name inside it.  `trim` removes blanks at both ends of a text, and so all of a text that has
  nothing else (`trim_eq_nil_iff`).
-/

namespace Translucent.Text

/-- The Unicode property `White_Space`: 25 characters, in ten ranges. -/
def isBlank (c : Char) : Bool :=
  let n := c.toNat
  (0x9 ≤ n && n ≤ 0xD) || n == 0x20 || n == 0x85 || n == 0xA0 || n == 0x1680
    || (0x2000 ≤ n && n ≤ 0x200A) || n == 0x2028 || n == 0x2029 || n == 0x202F || n == 0x205F
    || n == 0x3000

/-- Whether all characters of a text are blank. -/
def Blank (t : Text) : Prop := ∀ c ∈ t, isBlank c = true

instance (t : Text) : Decidable (Blank t) := List.decidableBAll (isBlank · = true) t

/-- `trimStart t` = `t` without the blanks at its start. -/
def trimStart (t : Text) : Text := t.dropWhile isBlank

/-- `trimEnd t` = `t` without the blanks at its end. -/
def trimEnd (t : Text) : Text := (t.reverse.dropWhile isBlank).reverse

/-- `trim t` = `t` without the blanks at its two ends. -/
def trim (t : Text) : Text := trimEnd (trimStart t)

/-- What is trimmed away at the start is blank, and nothing else is lost. -/
theorem blanks_append_trimStart (t : Text) : t.takeWhile isBlank ++ trimStart t = t :=
  List.takeWhile_append_dropWhile

/-- What is trimmed away at the end is blank, and nothing else is lost. -/
theorem trimEnd_append_blanks (t : Text) :
    trimEnd t ++ (t.reverse.takeWhile isBlank).reverse = t := by
  rw [trimEnd, ← List.reverse_append, List.takeWhile_append_dropWhile, List.reverse_reverse]

/-- Nothing is left of a text exactly if all of it is blank. -/
theorem trim_eq_nil_iff {t : Text} : trim t = [] ↔ Blank t := by
  constructor
  · intro nothing
    have behind := trimEnd_append_blanks (trimStart t)
    rw [show trimEnd (trimStart t) = [] from nothing, List.nil_append] at behind
    rw [← blanks_append_trimStart t, ← behind]
    intro c hc
    rcases List.mem_append.mp hc with hc | hc
    · exact List.all_eq_true.mp List.all_takeWhile c hc
    · exact List.all_eq_true.mp List.all_takeWhile c (List.mem_reverse.mp hc)
  · intro blank
    have nothing : trimStart t = [] := by
      have first := List.head?_dropWhile_not isBlank t
      rw [trimStart]
      cases rest : t.dropWhile isBlank with
      | nil => rfl
      | cons c u =>
        rw [rest] at first
        replace first : isBlank c = false := first
        have mem : c ∈ t := (List.dropWhile_suffix isBlank).subset (rest ▸ List.mem_cons_self)
        rw [blank c mem] at first
        cases first
    rw [trim, nothing]
    rfl

end Translucent.Text
