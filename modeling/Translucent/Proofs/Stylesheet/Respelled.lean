import Translucent.Proofs.Stylesheet.Draft
import Translucent.Proofs.Stylesheet.Edit

/-!
  # Texts behind a colon

  What stands behind the colon of a declaration are blanks, the value, and then more blanks, among which there
  may be a mark of importance.

  1. **Respelling** — `respelled raw w` is the text `raw` behind a colon with `w` as its value.
  2. **Behind a value** — `Behind` says what may stand there (`behind_value`); it is plain and has no parentheses.
  3. **Trimmed texts** — what has no blanks at its ends.
  4. **Splitting again** — `splitImportant_respelled`: the value that was put there is found there, if it is
     trimmed and has no mark of importance of its own.
-/

namespace Translucent

/-! ## Respelling -/

/-- `respelled raw w` = the text `raw` behind a colon, with `w` in the place of the value. -/
def respelled (raw w : Text) : Text :=
  raw.takeWhile Text.isBlank ++ (w ++ (Text.trimStart raw).drop (splitImportant raw).1.length)

theorem trimStart_eq (raw : Text) : Text.trimStart raw
    = (splitImportant raw).1 ++ (Text.trimStart raw).drop (splitImportant raw).1.length := by
  obtain ⟨after, h⟩ := splitImportant_prefix raw
  rw [← h, List.drop_left]

/-- With the value that it has, the text stays. -/
theorem respelled_self (raw : Text) : respelled raw (splitImportant raw).1 = raw := by
  rw [respelled, ← trimStart_eq, Text.blanks_append_trimStart]

/-- The text behind a colon is patched by respelling it. -/
theorem patched_ofParts {pos : Nat} {rest out : Text} {ds : List Declaration} (lead raw name w : Text)
    (behind : Stylesheet.Patched (pos + Text.byteLength lead + Text.byteLength raw) rest ds out) :
    Stylesheet.Patched pos (lead ++ (raw ++ rest))
      ({ Declaration.ofParts name (pos + Text.byteLength lead) raw with value := w } :: ds)
      (lead ++ (respelled raw w ++ out)) := by
  have whole := respelled_self raw
  rw [respelled] at whole ⊢
  generalize (Text.trimStart raw).drop (splitImportant raw).1.length = after at whole ⊢
  -- the gap before the value is the lead with the blanks behind it
  have cut : lead ++ (raw ++ rest)
      = (lead ++ raw.takeWhile Text.isBlank) ++ ((splitImportant raw).1 ++ (after ++ rest)) := by
    rw [show raw ++ rest = _ ++ rest from congrArg (· ++ rest) whole.symm]
    simp only [List.append_assoc]
  have cut' : lead ++ (raw.takeWhile Text.isBlank ++ (w ++ after) ++ out)
      = (lead ++ raw.takeWhile Text.isBlank) ++ (w ++ (after ++ out)) := by
    simp only [List.append_assoc]
  have length := congrArg Text.byteLength whole
  simp only [Text.byteLength_append] at length
  rw [cut, cut']
  refine .value ?_ rfl (.prepend after ?_)
  · rw [Text.byteLength_append, ← Nat.add_assoc]
    rfl
  · have here : (Declaration.ofParts name (pos + Text.byteLength lead) raw).stop + Text.byteLength after
        = pos + Text.byteLength lead + Text.byteLength raw := by
      simp only [Declaration.ofParts]
      omega
    rw [here]
    exact behind

/-! ## Behind a value -/

/-- What may stand behind a value, and whether that makes it important. -/
inductive Behind : Bool → Text → Prop
  /-- Blanks. -/
  | blanks {a : Text} (ha : a.Blank) : Behind false a
  /-- A mark of importance, with blanks before, between and behind its two parts. -/
  | mark {a b c word : Text} (ha : a.Blank) (hb : b.Blank) (hc : c.Blank)
      (hw : Text.eqIgnoreCase word importantWord = true) : Behind true (a ++ '!' :: (b ++ (word ++ c)))

theorem blank_takeWhile (t : Text) : Text.Blank (t.takeWhile Text.isBlank) :=
  List.all_eq_true.mp List.all_takeWhile

/-- What is trimmed away at the end is blank. -/
theorem exists_blanks (t : Text) : ∃ a, Text.Blank a ∧ t = Text.trimEnd t ++ a := by
  refine ⟨_, fun c hc => ?_, (Text.trimEnd_append_blanks t).symm⟩
  exact blank_takeWhile _ c (List.mem_reverse.mp hc)

/-- **Behind a value** there are blanks, or a mark of importance. -/
theorem behind_value (raw : Text) :
    Behind (splitImportant raw).2 ((Text.trimStart raw).drop (splitImportant raw).1.length) := by
  obtain ⟨c, hc, cut⟩ := exists_blanks (Text.trimStart raw)
  rw [show Text.trimEnd (Text.trimStart raw) = Text.trim raw from rfl] at cut
  rw [cut]
  unfold splitImportant
  dsimp only
  generalize Text.trim raw = value
  let n := value.length - importantWord.length
  split
  · next found =>
    obtain ⟨b, hb, head⟩ := exists_blanks (value.take n)
    obtain ⟨front, last⟩ := List.getLast?_eq_some_iff.mp found.2
    obtain ⟨a, ha, inside⟩ := exists_blanks front
    rw [last, List.dropLast_concat]
    have whole : value ++ c = Text.trimEnd front ++ (a ++ '!' :: (b ++ (value.drop n ++ c))) := by
      calc value ++ c = (value.take n ++ value.drop n) ++ c := by rw [List.take_append_drop]
        _ = (((Text.trimEnd front ++ a) ++ ['!'] ++ b) ++ value.drop n) ++ c := by
          rw [← inside, ← last, ← head]
        _ = _ := by simp only [List.append_assoc, List.cons_append, List.nil_append]
    rw [whole, List.drop_left]
    exact .mark ha hb hc found.1
  · rw [List.drop_left]
    exact .blanks hc

/-- What is trimmed at its end is all of a text before blanks. -/
theorem trimEnd_blanks {a t : Text} (ha : a.Blank) (last : ∀ c ∈ t.getLast?, Text.isBlank c = false) :
    Text.trimEnd (t ++ a) = t := by
  have reversed : (a.reverse ++ t.reverse).dropWhile Text.isBlank = t.reverse.dropWhile Text.isBlank :=
    List.dropWhile_append_of_pos fun c hc => ha c (List.mem_reverse.mp hc)
  rw [Text.trimEnd, List.reverse_append, reversed]
  exact Draft.trimEnd_of_last last

theorem trimStart_blanks {a t : Text} (ha : a.Blank) (head : ∀ c ∈ t.head?, Text.isBlank c = false) :
    Text.trimStart (a ++ t) = t := by
  rw [Text.trimStart, List.dropWhile_append_of_pos ha]
  exact Draft.trimStart_of_head head

/-- Letters are not blank. -/
theorem not_blank_of_isAlpha {c : Char} (alpha : c.isAlpha = true) : Text.isBlank c = false := by
  refine Bool.eq_false_iff.mpr fun blank => ?_
  unfold Char.isAlpha Char.isUpper Char.isLower at alpha
  unfold Text.isBlank Char.toNat at blank
  simp only [Bool.or_eq_true, Bool.and_eq_true, decide_eq_true_eq, UInt32.le_iff_toNat_le, ge_iff_le,
    Char.reduceVal, UInt32.reduceToNat] at alpha
  simp only [Bool.or_eq_true, Bool.and_eq_true, decide_eq_true_eq, beq_iff_eq] at blank
  omega

/-- The word behind the exclamation mark has nine letters. -/
theorem word_of_eqIgnoreCase {word : Text} (hw : Text.eqIgnoreCase word importantWord = true) :
    word.length = importantWord.length ∧ ∀ c ∈ word, c.isAlpha = true := by
  have lower : word.map Char.toLower = importantWord := eq_of_beq hw
  constructor
  · rw [← lower, List.length_map]
  · intro c hc
    have mem : c.toLower ∈ importantWord := lower ▸ List.mem_map_of_mem hc
    have letters : importantWord.all Char.isAlpha = true := by decide
    have alpha := List.all_eq_true.mp letters _ mem
    unfold Char.toLower at alpha
    split at alpha
    · next upper =>
      unfold Char.isAlpha Char.isUpper
      rw [decide_eq_true upper]
      rfl
    · exact alpha

/-- A text that ends in the word ends in no blank. -/
theorem last_of_word {word : Text} (hw : Text.eqIgnoreCase word importantWord = true) (t : Text) :
    ∀ c ∈ (t ++ word).getLast?, Text.isBlank c = false := by
  obtain ⟨length, alpha⟩ := word_of_eqIgnoreCase hw
  intro c hc
  rw [List.getLast?_append] at hc
  cases last : word.getLast? with
  | none =>
    rw [List.getLast?_eq_none_iff.mp last] at length
    cases length
  | some d =>
    rw [last] at hc
    obtain rfl : d = c := Option.some.inj hc
    exact not_blank_of_isAlpha (alpha d (List.mem_of_getLast? last))

/-- What excludes escapes, marks and parentheses is plain. -/
theorem plain_of {p : Char → Bool} (h : ('(' :: ')' :: Character.wild).any p = false) {c : Char}
    (hc : p c = true) : Character.isPlain c = true ∧ c ≠ '(' ∧ c ≠ ')' := by
  have apart : c ∉ '(' :: ')' :: Character.wild := fun mem => List.any_eq_false.mp h c mem hc
  simp only [List.mem_cons, not_or] at apart
  refine ⟨?_, apart.1, apart.2.1⟩
  rw [Character.isPlain, Bool.not_eq_true']
  exact Bool.eq_false_iff.mpr fun mem => absurd (List.contains_iff_mem.mp mem) (by simpa [Character.wild] using apart.2.2)

theorem plain_of_blank {a : Text} (ha : a.Blank) : ∀ c ∈ a, Character.isPlain c = true ∧ c ≠ '(' ∧ c ≠ ')' :=
  fun c hc => plain_of (p := Text.isBlank) (by decide) (ha c hc)

/-- What may stand behind a value is plain and has no parentheses. -/
theorem plain_of_behind {important : Bool} {after : Text} (h : Behind important after) :
    ∀ c ∈ after, Character.isPlain c = true ∧ c ≠ '(' ∧ c ≠ ')' := by
  cases h with
  | blanks ha => exact plain_of_blank ha
  | mark ha hb hc hw =>
    intro d hd
    simp only [List.mem_append, List.mem_cons] at hd
    rcases hd with hd | rfl | hd | hd | hd
    · exact plain_of_blank ha d hd
    · decide
    · exact plain_of_blank hb d hd
    · exact plain_of (p := Char.isAlpha) (by decide) ((word_of_eqIgnoreCase hw).2 d hd)
    · exact plain_of_blank hc d hd

/-! ## Trimmed texts -/

/-- What is trimmed at its start starts with no blank. -/
theorem head_trimStart (t : Text) : ∀ c ∈ (Text.trimStart t).head?, Text.isBlank c = false := by
  intro c hc
  have first := List.head?_dropWhile_not Text.isBlank t
  rw [show (t.dropWhile Text.isBlank).head? = some c from hc] at first
  exact first

theorem last_trimEnd (t : Text) : ∀ c ∈ (Text.trimEnd t).getLast?, Text.isBlank c = false := by
  intro c hc
  rw [Text.trimEnd, List.getLast?_reverse] at hc
  exact head_trimStart t.reverse c hc

/-- Blanks before other text are trimmed away with those before it. -/
theorem trimStart_append {t s : Text} (head : ∀ c ∈ s.head?, Text.isBlank c = false) :
    Text.trimStart (t ++ s) = Text.trimStart t ++ s := by
  induction t with
  | nil => exact Draft.trimStart_of_head head
  | cons c t ih =>
    rw [Text.trimStart, Text.trimStart, List.cons_append]
    by_cases blank : Text.isBlank c = true
    · rw [List.dropWhile_cons_of_pos blank, List.dropWhile_cons_of_pos blank]
      exact ih
    · rw [List.dropWhile_cons_of_neg blank, List.dropWhile_cons_of_neg blank]
      rfl

theorem trim_of_ends {t : Text} (head : ∀ c ∈ t.head?, Text.isBlank c = false)
    (last : ∀ c ∈ t.getLast?, Text.isBlank c = false) : Text.trim t = t := by
  rw [Text.trim, Draft.trimStart_of_head head, Draft.trimEnd_of_last last]

/-- A value has no blanks around it. -/
theorem trimmed_splitImportant (raw : Text) :
    (∀ c ∈ (splitImportant raw).1.head?, Text.isBlank c = false)
      ∧ ∀ c ∈ (splitImportant raw).1.getLast?, Text.isBlank c = false := by
  constructor
  · intro c hc
    refine head_trimStart raw c ?_
    rw [trimStart_eq, List.head?_append]
    rw [show (splitImportant raw).1.head? = some c from hc]
    rfl
  · unfold splitImportant
    dsimp only
    split
    · exact last_trimEnd _
    · exact last_trimEnd _

/-! ## Splitting again -/

/-- Blanks around a text do not matter. -/
theorem splitImportant_congr {s t : Text} (h : Text.trim s = Text.trim t) : splitImportant s = splitImportant t := by
  unfold splitImportant
  rw [h]

/-- A text that ends in a mark of importance is split there. -/
theorem splitImportant_marked (t : Text) {b c word : Text} (hb : b.Blank) (hc : c.Blank)
    (hw : Text.eqIgnoreCase word importantWord = true) :
    splitImportant (t ++ '!' :: (b ++ (word ++ c))) = (Text.trim t, true) := by
  obtain ⟨length, -⟩ := word_of_eqIgnoreCase hw
  have trimmed : Text.trim (t ++ '!' :: (b ++ (word ++ c))) = (Text.trimStart t ++ ['!'] ++ b) ++ word := by
    have cut : Text.trimStart t ++ '!' :: (b ++ (word ++ c)) = ((Text.trimStart t ++ ['!'] ++ b) ++ word) ++ c := by
      simp only [List.append_assoc, List.cons_append, List.nil_append]
    rw [Text.trim, @trimStart_append t ('!' :: (b ++ (word ++ c))) (by simp; decide), cut]
    exact trimEnd_blanks hc (last_of_word hw _)
  have cut : ((Text.trimStart t ++ ['!'] ++ b) ++ word).length - importantWord.length
      = (Text.trimStart t ++ ['!'] ++ b).length := by
    rw [List.length_append, length, Nat.add_sub_cancel]
  have mark : Text.trimEnd (Text.trimStart t ++ ['!'] ++ b) = Text.trimStart t ++ ['!'] := by
    refine trimEnd_blanks hb fun c hc => ?_
    rw [List.getLast?_append] at hc
    obtain rfl : '!' = c := Option.some.inj hc
    rfl
  simp only [splitImportant, trimmed, cut, List.take_left, List.drop_left, mark]
  rw [if_pos ⟨hw, by rw [List.getLast?_append]; rfl⟩, List.dropLast_concat]
  rfl

/-- Where a mark of importance was found there is one. -/
theorem exists_marked {raw : Text} (h : (splitImportant raw).2 = true) :
    ∃ t b c word : Text, raw = t ++ '!' :: (b ++ (word ++ c)) ∧ b.Blank ∧ c.Blank
      ∧ Text.eqIgnoreCase word importantWord = true := by
  have behind := behind_value raw
  have whole := Text.blanks_append_trimStart raw
  rw [trimStart_eq] at whole
  rw [h] at behind
  generalize (Text.trimStart raw).drop (splitImportant raw).1.length = after at behind whole
  cases behind with
  | @mark a b c word ha hb hc hw =>
    refine ⟨raw.takeWhile Text.isBlank ++ ((splitImportant raw).1 ++ a), b, c, word, ?_, hb, hc, hw⟩
    exact whole.symm.trans (by simp only [List.append_assoc])

/-- Without a mark a text is split into itself, trimmed, and nothing. -/
theorem splitImportant_unmarked {raw : Text} (h : (splitImportant raw).2 = false) :
    splitImportant raw = (Text.trim raw, false) := by
  unfold splitImportant at h ⊢
  dsimp only at h ⊢
  split at h
  · cases h
  · next other => rw [if_neg other]

/-- **What was put behind a colon is found there**: a value without a mark of importance of its own, or any before a
    mark. -/
theorem splitImportant_respelled (raw : Text) {w : Text} (nonempty : w ≠ [])
    (head : ∀ c ∈ w.head?, Text.isBlank c = false) (last : ∀ c ∈ w.getLast?, Text.isBlank c = false)
    (own : (splitImportant raw).2 = false → splitImportant w = (w, false)) :
    splitImportant (respelled raw w) = (w, (splitImportant raw).2) := by
  have before := blank_takeWhile raw
  have behind := behind_value raw
  rw [respelled]
  generalize (Text.trimStart raw).drop (splitImportant raw).1.length = after at behind ⊢
  generalize (splitImportant raw).2 = important at behind own ⊢
  have trimmed (a : Text) (ha : a.Blank) : Text.trim (raw.takeWhile Text.isBlank ++ (w ++ a)) = w := by
    have start : Text.trimStart (raw.takeWhile Text.isBlank ++ (w ++ a)) = w ++ a := by
      obtain ⟨c, w, rfl⟩ := List.exists_cons_of_ne_nil nonempty
      exact trimStart_blanks before head
    rw [Text.trim, start, trimEnd_blanks ha last]
  cases behind with
  | blanks ha =>
    rw [← own rfl]
    exact splitImportant_congr ((trimmed _ ha).trans (trim_of_ends head last).symm)
  | @mark a b c word ha hb hc hw =>
    have cut : raw.takeWhile Text.isBlank ++ (w ++ (a ++ '!' :: (b ++ (word ++ c))))
        = (raw.takeWhile Text.isBlank ++ (w ++ a)) ++ '!' :: (b ++ (word ++ c)) := by
      simp only [List.append_assoc]
    rw [cut, splitImportant_marked _ hb hc hw, trimmed a ha]

end Translucent
