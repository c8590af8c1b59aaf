import Translucent.Proofs.Content.Spelled
import Translucent.Proofs.Token.Words

/-!
  # White space and comments between words

  Around a word any white space and any closed comments may stand, in any order.  They are tokens of their own, which
  the significant content of a row leaves out.

  1. **Gaps** — `Gap`, and `Padded x t` for a text with gaps around it.
  2. **Rows** — `Signifies`: a text is a row with the given significant content.  White space and comments are one
     without any (`Gap.signifies`), and a comma joins two (`Signifies.comma`).
  3. **Words** — `IsWord`, what is read as it stands before any delimiter: a number (`isWord_number`), the digits behind
     a `#` (`isWord_hash`).  With gaps around it, it is all that counts in its row (`IsWord.signifies`).
  4. **Calls** — a call with such a row for its arguments is a word (`Signifies.isWord_call`), and is the tree of its
     text (`Signifies.ofText_call`).
-/

namespace Translucent

open Content

/-! ## Gaps -/

/-- Whether a text is a sequence of white space and closed comments. -/
inductive Gap : Text → Prop
  /-- Nothing at all. -/
  | nil : Gap []
  /-- White space first. -/
  | space {c : Char} {w : Text} (hc : Character.isSpace c = true) (hw : Gap w) : Gap (c :: w)
  /-- A comment first: it ends with the first end mark behind its start. -/
  | comment {body w : Text} (hb : ¬['*', '/'] <:+: body) (hw : Gap w) : Gap ('/' :: '*' :: (body ++ ['*', '/']) ++ w)

/-- `Padded x t`: the text `t` is `x` with white space and comments around it. -/
def Padded (x t : Text) : Prop := ∃ w w', Gap w ∧ Gap w' ∧ t = w ++ (x ++ w')

/-- White space and comments may stand behind a word. -/
theorem Gap.delimited {w z : Text} (h : Gap w) (hz : Delimited z) : Delimited (w ++ z) := by
  cases h with
  | nil => exact hz
  | space hc hw => exact delimited_cons (by simp [Character.isDelimiter, hc]) _
  | comment hb hw => exact delimited_cons rfl _

namespace Content

theorem significant_append (c d : Content) : (c.append d).significant = c.significant.append d.significant := by
  induction c with
  | nil => rfl
  | leaf l rest ih =>
    rw [leaf_append, significant_leaf, significant_leaf, ih]
    split <;> rfl
  | block o t body closed rest _ ih => rw [block_append, significant, significant, ih, block_append]

end Content

/-! ## Rows -/

/-- `Signifies stack z p c`: inside the brackets `stack`, the text `p` is read before `z` as a row with the significant
    content `c`. -/
def Signifies (stack : List Bracket) (z p : Text) (c : Content) : Prop :=
  ∃ r : Content, r.text = p ∧ r.Spelled stack z ∧ r.significant = c

/-- **White space and comments** before another character are a row without significant content. -/
theorem Gap.signifies {w z : Text} (h : Gap w) (hz : ∀ m ∈ z.head?, Character.isSpace m = false)
    (stack : List Bracket) : Signifies stack z w .nil := by
  -- a token takes all the white space there is, so the row behind it is one of what is left then
  suffices both : Signifies stack z w .nil ∧ Signifies stack z (w.dropWhile Character.isSpace) .nil from both.1
  induction h with
  | nil => exact ⟨⟨.nil, rfl, trivial, rfl⟩, ⟨.nil, rfl, trivial, rfl⟩⟩
  | @space c w hc _ ih =>
    obtain ⟨-, g, text, spelled, nothing⟩ := ih
    have stop : ∀ m ∈ (g.text ++ z).head?, Character.isSpace m = false := by
      intro m hm
      have first := List.head?_dropWhile_not Character.isSpace w
      rw [text] at hm
      cases left : w.dropWhile Character.isSpace with
      | nil =>
        rw [left] at hm
        exact hz m hm
      | cons d w' =>
        rw [left] at hm first
        obtain rfl : d = m := Option.some.inj hm
        exact first
    have whole : c :: w.takeWhile Character.isSpace ++ w.dropWhile Character.isSpace = c :: w :=
      congrArg (c :: ·) List.takeWhile_append_dropWhile
    constructor
    · refine ⟨.leaf ⟨.space, c :: w.takeWhile Character.isSpace⟩ g, ?_, ?_, nothing⟩
      · rw [text_leaf, text, whole]
      · exact ⟨reads_spaces hc List.all_takeWhile stop, by simp, by simp, spelled⟩
    · rw [List.dropWhile_cons_of_pos hc]
      exact ⟨g, text, spelled, nothing⟩
  | @comment body w hb _ ih =>
    obtain ⟨⟨g, text, spelled, nothing⟩, -⟩ := ih
    have row : Signifies stack z ('/' :: '*' :: (body ++ ['*', '/']) ++ w) .nil := by
      refine ⟨.leaf ⟨.comment true, '/' :: '*' :: (body ++ ['*', '/'])⟩ g, ?_, ?_, nothing⟩
      · rw [text_leaf, text]
      · exact ⟨reads_comment hb _, by simp, by simp, spelled⟩
    exact ⟨row, row⟩

/-- Arguments in front of others. -/
theorem Signifies.comma {stack : List Bracket} {z p p' : Text} {c c' : Content}
    (h : Signifies stack (',' :: (p' ++ z)) p c) (h' : Signifies stack z p' c') :
    Signifies stack z (p ++ ',' :: p') (c.append (.leaf ⟨.comma, [',']⟩ c')) := by
  obtain ⟨r, rfl, spelled, rfl⟩ := h
  obtain ⟨r', rfl, spelled', rfl⟩ := h'
  refine ⟨r.append (.leaf ⟨.comma, [',']⟩ r'), ?_, .append spelled ⟨reads_mark rfl _, by simp, by simp, spelled'⟩, ?_⟩
  · rw [text_append, text_leaf]
    rfl
  · rw [significant_append]
    rfl

/-! ## Words -/

/-- Whether a row without gaps is read as it stands before any delimiter, and starts with no white space. -/
structure IsWord (stack : List Bracket) (c : Content) : Prop where
  spelled : ∀ z, Delimited z → c.Spelled stack z
  significant : c.significant = c
  first : ∃ m t, c.text = m :: t ∧ Character.isSpace m = false

/-- **With gaps around it** a word is all that counts in its row, before a comma or a closing parenthesis. -/
theorem IsWord.signifies {stack : List Bracket} {c : Content} (word : IsWord stack c) {p : Text}
    (hp : Padded c.text p) {m : Char} (hm : m = ',' ∨ m = ')') (z : Text) : Signifies stack (m :: z) p c := by
  obtain ⟨w, w', gap, gap', rfl⟩ := hp
  have mark : Character.isSpace m = false ∧ Character.isDelimiter m = true := by
    rcases hm with rfl | rfl <;> exact ⟨rfl, rfl⟩
  obtain ⟨a, t, first, space⟩ := word.first
  obtain ⟨behind, text', spelled', nothing'⟩ := gap'.signifies (z := m :: z)
    (fun d hd => Option.some.inj hd ▸ mark.1) stack
  have middle := word.spelled (behind.text ++ m :: z) (text' ▸ gap'.delimited (delimited_cons mark.2 z))
  obtain ⟨before, text, spelled, nothing⟩ := gap.signifies (z := (c.append behind).text ++ m :: z)
    (fun d hd => by
      rw [text_append, first] at hd
      exact Option.some.inj hd ▸ space) stack
  refine ⟨before.append (c.append behind), ?_, .append spelled (.append middle spelled'), ?_⟩
  · rw [text_append, text_append, text, text']
  · rw [significant_append, significant_append, nothing, nothing', word.significant, append_nil]
    rfl

/-- The word of a number. -/
def numberWord (u : Text) : Content := .leaf ⟨.number, u⟩ .nil

/-- The word of the digits behind a `#`. -/
def hashWord (h : Text) : Content := .leaf ⟨.hash h, '#' :: h⟩ .nil

@[simp] theorem text_numberWord (u : Text) : (numberWord u).text = u := List.append_nil u

@[simp] theorem text_hashWord (h : Text) : (hashWord h).text = '#' :: h := List.append_nil ('#' :: h)

theorem isWord_number (stack : List Bracket) {u : Text} (h : IsDecimal u) : IsWord stack (numberWord u) := by
  refine ⟨fun z hz => ⟨h.reads hz, by simp, by simp, trivial⟩, rfl, ?_⟩
  obtain ⟨c, t, rfl, first⟩ := h.first
  exact ⟨c, t ++ [], rfl, Bool.eq_false_iff.mpr (not_space_of_first first)⟩

theorem isWord_hash (stack : List Bracket) {h : Text} (digits : h.all isHexDigit = true) (some_digit : h ≠ []) :
    IsWord stack (hashWord h) := by
  refine ⟨fun z hz => ⟨?_, by simp, by simp, trivial⟩, rfl, '#', h ++ [], rfl, rfl⟩
  have before {m : Char} (hm : Character.isNameChar m = false) (hm' : m ≠ '\\') (z : Text) :
      Lexeme.Reads ⟨.hash h, '#' :: h⟩ (m :: z) := reads_hash digits some_digit hm hm' z
  cases z with
  | nil => exact (before (m := ';') rfl (by decide) []).stop (x := []) (.inl rfl) stop_nil
  | cons m z =>
    have apart : Character.isNameChar m = false ∧ m ≠ '\\' :=
      Character.delimiter_char (p := fun m => Character.isNameChar m = false ∧ m ≠ '\\') (hz m rfl) (by decide)
    exact before apart.1 apart.2 z

/-! ## Calls -/

/-- `callText f p` = the call `f(p)`. -/
def callText (f p : Text) : Text := f ++ '(' :: (p ++ [')'])

/-- A call whose arguments are such a row is a word. -/
theorem Signifies.isWord_call {stack : List Bracket} {p : Text} {c : Content}
    (h : Signifies (.round :: stack) [')'] p c) {f : Text} (letters : f.all Char.isAlpha = true) (some_letter : f ≠ [])
    (url : Token.isUrlName f = false) :
    ∃ r : Content, r.significant = c ∧ IsWord stack (.block (.call f) (f ++ ['(']) r true .nil)
      ∧ (Content.block (.call f) (f ++ ['(']) r true .nil).text = callText f p := by
  obtain ⟨r, rfl, spelled, rfl⟩ := h
  have text := text_call f r
  refine ⟨r, rfl, ⟨fun z _ => ⟨reads_call letters some_letter url _, by simp, ?_, trivial⟩, rfl, ?_⟩, text⟩
  · exact spelled.parted (.cons (m := ')') rfl [] z)
  · obtain ⟨m, t, rfl⟩ := List.exists_cons_of_ne_nil some_letter
    refine ⟨m, t ++ '(' :: (r.text ++ [')']), text, ?_⟩
    have letter : m.isAlpha = true := List.all_eq_true.mp letters m List.mem_cons_self
    exact Character.not_space (p := fun m => m.isAlpha = true) letter (by decide)

/-- A call whose arguments are such a row is the tree of its text. -/
theorem Signifies.ofText_call {p : Text} {c : Content} (h : Signifies [.round] [')'] p c) {f : Text}
    (letters : f.all Char.isAlpha = true) (some_letter : f ≠ []) (url : Token.isUrlName f = false) :
    ∃ r : Content, r.significant = c ∧ ofText (callText f p) = .block (.call f) (f ++ ['(']) r true .nil := by
  obtain ⟨r, significant, word, text⟩ := h.isWord_call letters some_letter url
  have whole := ofText_of_spelled (word.spelled [] delimited_nil)
  rw [text] at whole
  exact ⟨r, significant, whole⟩

end Translucent
