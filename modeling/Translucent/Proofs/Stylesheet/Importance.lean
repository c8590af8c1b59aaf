import Translucent.Proofs.Stylesheet.Respelled

/-!
  # The mark of importance

  A mark of importance is an exclamation mark and a word at the end of a text, with blanks before each of the two.
  `splitImportant` takes it off, and the span of a value is counted from what is left.

  1. **Marks** — `IsMarked t v`: the trimmed text `t` is the value `v` with a mark behind it.
  2. **Splitting** — `splitImportant_eq_marked_iff`: exactly such a text is split at its mark.
  3. **By bytes** — `splitAtByte` finds the word as so many bytes at the end of the text, which may not be the end
     of a character.  It makes no difference (`splitAtByte_eq`): where the word stands, characters are bytes.
  4. **Spans** — `Declaration.ofParts` counts in bytes from the text behind a colon; whatever stands around
     that text in a source, the value is cut out of the source again (`slice_ofParts`).

  **Main statement** — `splitImportant_exact`.
-/

namespace Translucent

/-! ## Marks -/

/-- `IsMarked t v`: the text `t` is the value `v`, blanks, an exclamation mark, blanks, and the word in any case.
    The value ends in no blank. -/
def IsMarked (t v : Text) : Prop :=
  ∃ a b word : Text, t = v ++ (a ++ '!' :: (b ++ word)) ∧ a.Blank ∧ b.Blank
    ∧ Text.eqIgnoreCase word importantWord = true ∧ ∀ c ∈ v.getLast?, Text.isBlank c = false

/-! ## Splitting -/

/-- A text is trimmed once and for all. -/
theorem trim_ends (t : Text) : (∀ c ∈ (Text.trim t).head?, Text.isBlank c = false)
    ∧ ∀ c ∈ (Text.trim t).getLast?, Text.isBlank c = false := by
  refine ⟨fun c hc => head_trimStart t c ?_, last_trimEnd _⟩
  obtain ⟨behind, whole⟩ := Text.trimEnd_prefix (Text.trimStart t)
  rw [← whole, List.head?_append]
  rw [show (Text.trimEnd (Text.trimStart t)).head? = some c from hc]
  rfl

/-- What is found before a mark is marked. -/
theorem isMarked_of_splitImportant {raw v : Text} (h : splitImportant raw = (v, true)) :
    IsMarked (Text.trim raw) v := by
  have behind := behind_value raw
  have cut := trimStart_eq raw
  have last := (trimmed_splitImportant raw).2
  rw [h] at behind cut last
  generalize (Text.trimStart raw).drop (v, true).1.length = after at behind cut
  cases behind with
  | @mark a b c word ha hb hc hw =>
    refine ⟨a, b, word, ?_, ha, hb, hw, last⟩
    have whole : Text.trimStart raw = ((v ++ a ++ '!' :: b) ++ word) ++ c := by
      rw [cut]
      simp only [List.append_assoc, List.cons_append]
    rw [Text.trim, whole, trimEnd_blanks hc (last_of_word hw _)]
    simp only [List.append_assoc, List.cons_append]

/-- Blanks behind a text that starts and ends with none are all that is trimmed away. -/
theorem trim_blanks {v a : Text} (ha : a.Blank) (head : ∀ c ∈ v.head?, Text.isBlank c = false)
    (last : ∀ c ∈ v.getLast?, Text.isBlank c = false) : Text.trim (v ++ a) = v := by
  cases v with
  | nil =>
    rw [List.nil_append]
    exact Text.trim_eq_nil_iff.mpr ha
  | cons d v =>
    have start : Text.trimStart (d :: v ++ a) = d :: v ++ a := Draft.trimStart_of_head head
    rw [Text.trim, start, trimEnd_blanks ha last]

/-- **A text is split at its mark**, if it has one once it is trimmed. -/
theorem splitImportant_eq_marked_iff (raw v : Text) :
    splitImportant raw = (v, true) ↔ IsMarked (Text.trim raw) v := by
  constructor
  · exact isMarked_of_splitImportant
  · rintro ⟨a, b, word, cut, ha, hb, hw, last⟩
    have again : Text.trim (Text.trim raw) = Text.trim raw := trim_of_ends (trim_ends raw).1 (trim_ends raw).2
    have head : ∀ c ∈ v.head?, Text.isBlank c = false := by
      intro c hc
      refine (trim_ends raw).1 c ?_
      rw [cut, List.head?_append]
      rw [show v.head? = some c from hc]
      rfl
    have whole : Text.trim raw = (v ++ a) ++ '!' :: (b ++ (word ++ [])) := by
      rw [cut, List.append_nil, List.append_assoc]
    rw [← splitImportant_congr again, whole, splitImportant_marked _ hb (fun _ h => absurd h List.not_mem_nil) hw,
      trim_blanks ha head last]

/-- Where no mark is found there is none, and nothing but blanks is taken off. -/
theorem splitImportant_cases (raw : Text) :
    (∃ v, splitImportant raw = (v, true) ∧ IsMarked (Text.trim raw) v)
      ∨ splitImportant raw = (Text.trim raw, false) := by
  cases important : (splitImportant raw).2 with
  | true =>
    have split : splitImportant raw = ((splitImportant raw).1, true) := Prod.ext rfl important
    exact .inl ⟨_, split, isMarked_of_splitImportant split⟩
  | false => exact .inr (splitImportant_unmarked important)

/-- What is kept is the first part of the trimmed text. -/
theorem splitImportant_prefix_trim (raw : Text) : (splitImportant raw).1 <+: Text.trim raw := by
  rcases splitImportant_cases raw with ⟨v, split, a, b, word, cut, -⟩ | unmarked
  · rw [split, cut]
    exact List.prefix_append _ _
  · have same : (splitImportant raw).1 = Text.trim raw := congrArg Prod.fst unmarked
    exact same ▸ List.prefix_rfl

/-! ## By bytes -/

/-- `splitAtByte raw` = the value written as `raw`, and whether it is important, where the word is looked for in
    as many bytes at the end as it has. -/
def splitAtByte (raw : Text) : Text × Bool :=
  let value := Text.trim raw
  if Text.byteLength value < Text.byteLength importantWord then (value, false)
  else
    let cut := Text.byteLength value - Text.byteLength importantWord
    match Text.takeBytes cut value, Text.dropBytes cut value with
    | some head, some word =>
      if Text.eqIgnoreCase word importantWord ∧ (Text.trimEnd head).getLast? = some '!' then
        (Text.trimEnd (Text.trimEnd head).dropLast, true)
      else (value, false)
    | _, _ => (value, false)

/-- The word has as many bytes as letters. -/
theorem byteLength_word {word : Text} (hw : Text.eqIgnoreCase word importantWord = true) :
    Text.byteLength word = Text.byteLength importantWord := by
  obtain ⟨length, alpha⟩ := word_of_eqIgnoreCase hw
  have letters {t : Text} (ht : ∀ c ∈ t, c.isAlpha = true) : Text.byteLength t = t.length := by
    induction t with
    | nil => rfl
    | cons c t ih =>
      have ascii : c.toNat ≤ 127 := by
        have letter := ht c List.mem_cons_self
        unfold Char.isAlpha Char.isUpper Char.isLower at letter
        simp only [Bool.or_eq_true, Bool.and_eq_true, decide_eq_true_eq, UInt32.le_iff_toNat_le, ge_iff_le,
          Char.reduceVal, UInt32.reduceToNat] at letter
        unfold Char.toNat
        omega
      rw [Text.byteLength_cons, Text.utf8Size_of_ascii ascii, ih fun d hd => ht d (List.mem_cons_of_mem _ hd),
        List.length_cons, Nat.add_comm]
  rw [letters alpha, length]
  rfl

/-- **Cutting by bytes makes no difference.** -/
theorem splitAtByte_eq (raw : Text) : splitAtByte raw = splitImportant raw := by
  unfold splitAtByte splitImportant
  dsimp only
  generalize Text.trim raw = value
  have whole : value.take (value.length - importantWord.length) ++ value.drop (value.length - importantWord.length)
      = value := List.take_append_drop _ _
  by_cases hw : Text.eqIgnoreCase (value.drop (value.length - importantWord.length)) importantWord = true
  · -- the word is found by characters, and its bytes are those at the end
    generalize value.take (value.length - importantWord.length) = head at whole ⊢
    generalize value.drop (value.length - importantWord.length) = word at whole hw ⊢
    subst whole
    have bytes := byteLength_word hw
    have cut : Text.byteLength (head ++ word) - Text.byteLength importantWord = Text.byteLength head := by
      rw [Text.byteLength_append]
      omega
    have behind := Text.dropBytes_append head word 0
    rw [Nat.add_zero, Text.dropBytes_zero] at behind
    rw [if_neg (by rw [Text.byteLength_append]; omega), cut, Text.takeBytes_append, behind]
  · refine Eq.trans ?_ (if_neg fun h => hw h.1).symm
    split
    · rfl
    split
    · next head word before behind =>
      refine if_neg fun h => hw ?_
      obtain rfl := Text.eq_append_of_cut before behind
      have length := (word_of_eqIgnoreCase h.1).1
      rw [List.length_append, ← length, Nat.add_sub_cancel, List.drop_left]
      exact h.1
    · rfl

/-! ## Spans -/

/-- **The span of a value** selects it in every source that the text behind the colon is a part of. -/
theorem slice_ofParts (name before raw after : Text) :
    let d := Declaration.ofParts name (Text.byteLength before) raw
    Text.slice? d.start d.stop (before ++ (raw ++ after)) = some d.value
      ∧ Text.byteLength before ≤ d.start ∧ d.start ≤ d.stop
      ∧ d.stop ≤ Text.byteLength before + Text.byteLength raw := by
  dsimp only
  obtain ⟨blanks, behind, whole, start, stop⟩ := Declaration.ofParts_parts name (Text.byteLength before) raw
  generalize Declaration.ofParts name (Text.byteLength before) raw = d at whole start stop ⊢
  have source : before ++ (raw ++ after) = (before ++ blanks) ++ (d.value ++ (behind ++ after)) := by
    rw [whole]
    simp only [List.append_assoc]
  have length := congrArg Text.byteLength whole
  simp only [Text.byteLength_append] at length
  refine ⟨?_, by omega, by omega, by omega⟩
  rw [source, stop, start, ← Text.byteLength_append]
  exact Text.slice?_append _ _ _

/-- **The mark of importance is taken off exactly.**  A text is split into `v` and a mark if, once it is trimmed, it
    is `v` with a mark behind it, which holds of one `v` at most; otherwise it is trimmed only.  It makes no
    difference whether the mark is looked for by characters or by bytes.  What is left is the first part of the
    trimmed text, so that its span, counted from the blanks at the start, lies within the source on character
    boundaries and selects the value. -/
theorem splitImportant_exact (raw : Text) :
    (∀ v, splitImportant raw = (v, true) ↔ IsMarked (Text.trim raw) v)
      ∧ (∀ v w, IsMarked (Text.trim raw) v → IsMarked (Text.trim raw) w → v = w)
      ∧ ((¬∃ v, IsMarked (Text.trim raw) v) → splitImportant raw = (Text.trim raw, false))
      ∧ splitAtByte raw = splitImportant raw
      ∧ (splitImportant raw).1 <+: Text.trim raw
      ∧ ∀ name before after, let d := Declaration.ofParts name (Text.byteLength before) raw
        (d.value, d.important) = splitImportant raw
          ∧ d.start = Text.byteLength before + (Text.byteLength raw - Text.byteLength (Text.trimStart raw))
          ∧ d.stop = d.start + Text.byteLength d.value
          ∧ d.stop ≤ Text.byteLength before + Text.byteLength raw
          ∧ Text.slice? d.start d.stop (before ++ (raw ++ after)) = some d.value := by
  refine ⟨splitImportant_eq_marked_iff raw, fun v w hv hw => ?_, fun unmarked => ?_, splitAtByte_eq raw,
    splitImportant_prefix_trim raw, fun name before after => ?_⟩
  · have same := ((splitImportant_eq_marked_iff raw v).mpr hv).symm.trans ((splitImportant_eq_marked_iff raw w).mpr hw)
    exact congrArg Prod.fst same
  · rcases splitImportant_cases raw with ⟨v, -, marked⟩ | split
    · exact absurd ⟨v, marked⟩ unmarked
    · exact split
  · obtain ⟨slice, -, -, bound⟩ := slice_ofParts name before raw after
    have leading := congrArg Text.byteLength (Text.blanks_append_trimStart raw)
    rw [Text.byteLength_append] at leading
    refine ⟨rfl, ?_, rfl, bound, slice⟩
    rw [← leading, Nat.add_sub_cancel]
    rfl

/-- Of two marks only the last one is taken off, however its blanks are written. -/
theorem splitImportant_exact_twice :
    let raw : Text := ['\u00a0', 'x', '!'] ++ importantWord ++ ['\n', '!', '\u3000'] ++ Text.upper importantWord
    let v : Text := ['x', '!'] ++ importantWord
    IsMarked (Text.trim raw) v ∧ splitImportant raw = (v, true)
      ∧ Text.slice? 4 15 (['b', ':'] ++ (raw ++ [';'])) = some v := by
  intro raw v
  obtain ⟨split, -, -, -, -, span⟩ := splitImportant_exact raw
  have last : ∀ c ∈ v.getLast?, Text.isBlank c = false := by
    intro c hc
    obtain rfl : 't' = c := Option.some.inj hc
    rfl
  have marked : IsMarked (Text.trim raw) v :=
    ⟨['\n'], ['\u3000'], Text.upper importantWord, by decide, by decide, by decide, by decide, last⟩
  have value := (split v).mpr marked
  obtain ⟨parts, start, stop, -, slice⟩ := span ['b'] ['b', ':'] [';']
  rw [value] at parts
  have same : (Declaration.ofParts ['b'] (Text.byteLength ['b', ':']) raw).value = v := congrArg Prod.fst parts
  rw [stop, start, same] at slice
  exact ⟨marked, value, slice⟩

end Translucent
