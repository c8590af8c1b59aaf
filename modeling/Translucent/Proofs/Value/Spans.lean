import Translucent.Proofs.Value.Replace

/-!
  # Where shorthands stand in a value

  The scan of a value collects spans from blocks of all depths in one list, and a span can begin inside a
  block that is too deep to be searched.  All the same the spans cut the value into pieces.

  1. **Cuts** — `Respelled` says that spans stand in a text one behind the other, and what the text is with
     the standard text of each shorthand in place of its span.  Such spans lie on character boundaries
     (`Respelled.slices`), apart from each other (`Respelled.pairwise`), and cutting at them never fails
     (`Respelled.replaceFrom_eq`), so that they determine the new text (`Respelled.unique`).
  2. **Rows** — `cuts`: what is found in a row, however deep, cuts the text of the row.  `Cuts` carries the
     text that was passed over since the last place where a span could have begun, and has one lemma for
     each way a row goes on.

  **Main statement** — `expand_respelled`.
-/

namespace Translucent

open Content

/-! ## Cuts -/

/-- The same shorthand `n` bytes further. -/
def Occurrence.shift (n : Nat) (o : Occurrence) : Occurrence := { o with start := o.start + n, stop := o.stop + n }

/-- `Respelled pos t os out`: `out` is the text `t`, which starts at the byte `pos`, with the span of each of
    `os` replaced by the standard text of its shorthand.  The spans stand in `t` one behind the other, and
    none is empty. -/
inductive Respelled : Nat → Text → List Occurrence → Text → Prop
  /-- No span is left, and the rest stays as it is. -/
  | rest (pos : Nat) (t : Text) : Respelled pos t [] t
  /-- What stands before the first span stays, and the span gives way to the standard text. -/
  | shorthand {pos : Nat} {gap old rest out : Text} {o : Occurrence} {os : List Occurrence}
      (start : o.start = pos + Text.byteLength gap) (stop : o.stop = o.start + Text.byteLength old)
      (some_text : old ≠ []) (behind : Respelled o.stop rest os out) :
      Respelled pos (gap ++ (old ++ rest)) (o :: os) (gap ++ (o.shorthand.standard ++ out))

namespace Respelled

variable {pos : Nat} {t out : Text} {os : List Occurrence}

/-- Text before all spans stays. -/
theorem prepend (g : Text) (h : Respelled (pos + Text.byteLength g) t os out) :
    Respelled pos (g ++ t) os (g ++ out) := by
  cases h with
  | rest => exact .rest _ _
  | shorthand start stop some_text behind =>
    rw [← List.append_assoc g, ← List.append_assoc g]
    refine .shorthand ?_ stop some_text behind
    rw [start, Text.byteLength_append, Nat.add_assoc]

/-- Every span is that of a text that stands in the whole text, and not the empty one. -/
theorem slices (h : Respelled pos t os out) (before : Text) (hpos : pos = Text.byteLength before) :
    ∀ o ∈ os, o.start < o.stop
      ∧ ∃ old, old ≠ [] ∧ Text.slice? o.start o.stop (before ++ t) = some old := by
  induction h generalizing before with
  | rest pos t => simp
  | @shorthand pos gap old rest out o os start stop some_text _ ih =>
    have behind := ih (before ++ (gap ++ old)) (by
      simp only [Text.byteLength_append]
      omega)
    intro p hp
    rcases List.mem_cons.mp hp with rfl | hp
    · constructor
      · have := mt Text.byteLength_eq_zero_iff.mp some_text
        omega
      · refine ⟨old, some_text, ?_⟩
        have cut := Text.slice?_append (before ++ gap) old rest
        rw [Text.byteLength_append, ← hpos, ← start, ← stop] at cut
        simpa only [List.append_assoc] using cut
    · simpa only [List.append_assoc] using behind p hp

/-- Text behind all spans stays, too. -/
theorem append (h : Respelled pos t os out) (g : Text) : Respelled pos (t ++ g) os (out ++ g) := by
  induction h with
  | rest => exact .rest _ _
  | @shorthand pos gap old rest out o os start stop some_text _ ih =>
    have whole := Respelled.shorthand start stop some_text ih
    simpa only [List.append_assoc] using whole

/-- All spans end within the text. -/
theorem stop_le (h : Respelled pos t os out) : ∀ o ∈ os, o.stop ≤ pos + Text.byteLength t := by
  induction h with
  | rest => exact fun _ ho => absurd ho List.not_mem_nil
  | @shorthand pos gap old rest out o os start stop _ _ ih =>
    intro p hp
    simp only [Text.byteLength_append]
    rcases List.mem_cons.mp hp with rfl | hp
    · omega
    · have := ih p hp
      omega

/-- Every span ends before the next one starts. -/
theorem pairwise (h : Respelled pos t os out) :
    (∀ o ∈ os, pos ≤ o.start) ∧ os.Pairwise fun o p => o.stop ≤ p.start := by
  induction h with
  | rest => exact ⟨fun _ ho => absurd ho List.not_mem_nil, .nil⟩
  | @shorthand pos gap old rest out o os start stop _ _ ih =>
    constructor
    · intro p hp
      rcases List.mem_cons.mp hp with rfl | hp
      · omega
      · have := ih.1 p hp
        omega
    · exact .cons ih.1 ih.2

/-- Cutting at such spans gives the text with the standard texts in it. -/
theorem replaceFrom_eq (h : Respelled pos t os out) (before : Text)
    (hpos : pos = Text.byteLength before) : replaceFrom pos (before ++ t) os = some out := by
  induction h generalizing before with
  | rest pos t => rw [replaceFrom, hpos, Text.dropBytes_byteLength]
  | @shorthand pos gap old rest out o os start stop _ _ ih =>
    have ih := ih (before ++ (gap ++ old)) (by
      simp only [Text.byteLength_append]
      omega)
    have cut := Text.slice?_append before gap (old ++ rest)
    rw [← hpos, ← start] at cut
    simp only [List.append_assoc] at ih
    rw [replaceFrom, cut, ih]
    simp only [List.append_assoc, Option.bind_eq_bind, Option.bind_some]
    rfl

/-- The spans determine the text. -/
theorem unique {out' : Text} (h : Respelled pos t os out) (h' : Respelled pos t os out') (before : Text)
    (hpos : pos = Text.byteLength before) : out = out' :=
  Option.some.inj ((h.replaceFrom_eq before hpos).symm.trans (h'.replaceFrom_eq before hpos))

/-- Spans of a text that starts later. -/
theorem shift (n : Nat) (h : Respelled pos t os out) : Respelled (pos + n) t (os.map (·.shift n)) out := by
  induction h with
  | rest pos t => exact .rest _ t
  | shorthand start stop some_text _ ih =>
    refine .shorthand ?_ ?_ some_text ih
    · show _ + n = _
      omega
    · show _ + n = _ + n + _
      omega

end Respelled

/-! ## Rows -/

namespace Content

/-- A call that is a shorthand takes up at least its last parenthesis. -/
theorem text_of_whole? {o : Opener} {body : Content} {closed : Bool} {s : Shorthand}
    (h : whole? o body closed = some s) : body.text ++ closing o closed ≠ [] := by
  cases o with
  | bracket b => cases h
  | call name =>
    rw [whole?] at h
    split at h
    · next ends =>
      intro empty
      obtain ⟨no_body, no_closing⟩ := List.append_eq_nil_iff.mp empty
      rw [endsInParenthesis, no_body] at ends
      cases closed with
      | true => cases no_closing
      | false => cases ends
    · cases h

/-- The number of a shorthand of digits is not empty. -/
theorem text_of_hexShorthand? {l n : Lexeme} {s : Shorthand} {rest : Content}
    (h : hexShorthand? l rest = some (s, n)) : n.text ≠ [] := by
  obtain ⟨⟨digits, hash⟩, -, after, rfl⟩ := parts_of_hexShorthand? h
  intro empty
  simp [hexShorthand?, hash, empty] at h

/-- What is found in a block that is not too deep, by the three things that can become of it. -/
theorem occurrences_shallow {depth : Nat} (shallow : depth < maxSearchDepth) (start pos : Nat)
    (o : Opener) (t : Text) (body : Content) (closed : Bool) (rest : Content) :
    (block o t body closed rest).occurrences depth start pos =
      let inner := pos + Text.byteLength t
      let next := inner + body.width + closingWidth closed
      (match whole? o body closed with
        | some s => [⟨pos, next, s⟩]
        | none => if isSearched o body then body.occurrences (depth + 1) inner inner else [])
      ++ rest.occurrences depth next next := by
  rw [Cursor.occurrences_block shallow]
  cases o with
  | bracket b => rfl
  | call name =>
    rcases Option.eq_none_or_eq_some (call? name body) with nothing | ⟨s, found⟩
    · simp only [whole?, isSearched, nothing, ite_self]
      cases CallName.colors.contains name <;> rfl
    · simp only [whole?, isSearched, found]
      cases endsInParenthesis body closed <;> rfl

/-- A block that is too deep is passed over, and a span behind it may begin where its text does. -/
theorem occurrences_deep {depth : Nat} (deep : maxSearchDepth ≤ depth) (start pos : Nat) (o : Opener)
    (t : Text) (body : Content) (closed : Bool) (rest : Content) :
    (block o t body closed rest).occurrences depth start pos =
      rest.occurrences depth (pos + Text.byteLength t)
        (pos + Text.byteLength t + body.width + closingWidth closed) :=
  if_pos deep

/-- `c.Cuts depth`: whatever text `passed` lies between the place where a span could begin and the row `c`,
    if the spans `os` cut what lies behind the row, then with those found in it they cut all of it. -/
def Cuts (depth : Nat) (c : Content) : Prop :=
  ∀ (start : Nat) (passed z w : Text) (os : List Occurrence),
    Respelled (start + Text.byteLength (passed ++ c.text)) z os w →
      ∃ out, Respelled start (passed ++ (c.text ++ z))
        (c.occurrences depth start (start + Text.byteLength passed) ++ os) out

namespace Cuts

variable {depth : Nat} {rest : Content}

/-- A span may begin right at the row. -/
theorem here (h : rest.Cuts depth) {pos : Nat} {z w : Text} {os : List Occurrence}
    (behind : Respelled (pos + Text.byteLength rest.text) z os w) :
    ∃ out, Respelled pos (rest.text ++ z) (rest.occurrences depth pos pos ++ os) out :=
  h pos [] z w os behind

/-- A lexeme that starts no shorthand is text before what follows. -/
theorem leaf {l : Lexeme} (none_found : hexShorthand? l rest = none) (h : rest.Cuts depth) :
    (Content.leaf l rest).Cuts depth := by
  intro start passed z w os behind
  have next : start + Text.byteLength passed + Text.byteLength l.text
      = start + Text.byteLength (passed ++ l.text) := by
    rw [Text.byteLength_append, Nat.add_assoc]
  rw [text_leaf, ← List.append_assoc, Text.byteLength_append, ← Nat.add_assoc] at behind
  obtain ⟨out, cut⟩ := h.here behind
  refine ⟨passed ++ l.text ++ out, ?_⟩
  rw [occurrences, none_found, text_leaf, next]
  simpa only [List.append_assoc] using cut.prepend (passed ++ l.text)

/-- Digits and their number are a span, with the text that was passed over. -/
theorem digits {l n : Lexeme} {s : Shorthand} (found : hexShorthand? l (.leaf n rest) = some (s, n))
    (h : rest.Cuts depth) : (Content.leaf l (.leaf n rest)).Cuts depth := by
  intro start passed z w os behind
  obtain ⟨-, number, -⟩ := parts_of_hexShorthand? found
  have no_hash := hexShorthand?_of_ne (l := n) (by rw [number]; simp) rest
  have next : start + Text.byteLength passed + Text.byteLength l.text + Text.byteLength n.text
      = start + Text.byteLength (passed ++ (l.text ++ n.text)) := by
    simp only [Text.byteLength_append, Nat.add_assoc]
  have some_text : passed ++ (l.text ++ n.text) ≠ [] :=
    List.append_ne_nil_of_right_ne_nil _ (List.append_ne_nil_of_right_ne_nil _ (text_of_hexShorthand? found))
  have split : passed ++ (Content.leaf l (.leaf n rest)).text = passed ++ (l.text ++ n.text) ++ rest.text := by
    simp only [text_leaf, List.append_assoc]
  rw [split, Text.byteLength_append, ← Nat.add_assoc] at behind
  obtain ⟨out, cut⟩ := h.here behind
  refine ⟨s.standard ++ out, ?_⟩
  have spelled := @Respelled.shorthand start [] _ _ _
    ⟨start, start + Text.byteLength (passed ++ (l.text ++ n.text)), s⟩ _ rfl rfl some_text cut
  rw [occurrences, found]
  dsimp only
  rw [occurrences, no_hash]
  dsimp only
  rw [next]
  simpa only [text_leaf, List.append_assoc, List.nil_append, List.cons_append] using spelled

variable {o : Opener} {t : Text} {body : Content} {closed : Bool}

/-- The body of a block that is too deep is passed over. -/
theorem deep (deep : maxSearchDepth ≤ depth) (h : rest.Cuts depth) :
    (block o t body closed rest).Cuts depth := by
  intro start passed z w os behind
  have next : start + Text.byteLength passed + Text.byteLength t + body.width + closingWidth closed
      = start + Text.byteLength (passed ++ t) + Text.byteLength (body.text ++ closing o closed) := by
    simp only [Text.byteLength_append, width_eq, byteLength_closing]
    omega
  have split : passed ++ (block o t body closed rest).text
      = passed ++ t ++ (body.text ++ closing o closed ++ rest.text) := by
    simp only [text_block, List.append_assoc]
  rw [split, Text.byteLength_append, ← Nat.add_assoc] at behind
  obtain ⟨out, cut⟩ := h _ (body.text ++ closing o closed) z w os behind
  refine ⟨passed ++ t ++ out, ?_⟩
  rw [occurrences_deep deep, next, Nat.add_assoc start, ← Text.byteLength_append]
  simpa only [text_block, List.append_assoc] using cut.prepend (passed ++ t)

/-- A block that is not too deep is a span, is searched, or is kept. -/
theorem shallow (shallow : depth < maxSearchDepth) (inner : body.Cuts (depth + 1)) (h : rest.Cuts depth) :
    (block o t body closed rest).Cuts depth := by
  intro start passed z w os behind
  have next : start + Text.byteLength passed + Text.byteLength t + body.width + closingWidth closed
      = start + Text.byteLength passed + Text.byteLength (t ++ (body.text ++ closing o closed)) := by
    simp only [Text.byteLength_append, width_eq, byteLength_closing]
    omega
  have split : passed ++ (block o t body closed rest).text
      = passed ++ ((t ++ (body.text ++ closing o closed)) ++ rest.text) := by
    simp only [text_block, List.append_assoc]
  rw [split, Text.byteLength_append, Text.byteLength_append, ← Nat.add_assoc, ← Nat.add_assoc] at behind
  obtain ⟨out, cut⟩ := h.here behind
  -- what stands behind the passed text is one piece, cut before, within or behind the body
  suffices piece : ∃ out, Respelled (start + Text.byteLength passed)
      ((t ++ (body.text ++ closing o closed)) ++ (rest.text ++ z))
      ((block o t body closed rest).occurrences depth start (start + Text.byteLength passed) ++ os) out by
    obtain ⟨out, cut⟩ := piece
    refine ⟨passed ++ out, ?_⟩
    simpa only [text_block, List.append_assoc] using cut.prepend passed
  rw [occurrences_shallow shallow]
  simp only [next]
  cases found : whole? o body closed with
  | some s =>
    have some_text : t ++ (body.text ++ closing o closed) ≠ [] :=
      List.append_ne_nil_of_right_ne_nil _ (text_of_whole? found)
    exact ⟨_, @Respelled.shorthand _ [] _ _ _ _ _ rfl rfl some_text cut⟩
  | none =>
    dsimp only
    by_cases searched : isSearched o body = true
    · rw [if_pos searched]
      have end_of_body : start + Text.byteLength passed
          + Text.byteLength (t ++ (body.text ++ closing o closed))
          = start + Text.byteLength passed + Text.byteLength t + Text.byteLength body.text
            + Text.byteLength (closing o closed) := by
        simp only [Text.byteLength_append]
        omega
      rw [end_of_body] at cut ⊢
      obtain ⟨out', cut'⟩ := inner.here (cut.prepend (closing o closed))
      refine ⟨t ++ out', ?_⟩
      simpa only [List.append_assoc] using cut'.prepend t
    · rw [if_neg searched, List.nil_append]
      exact ⟨_, cut.prepend _⟩

end Cuts

/-- **Rows are cut** by what is found in them, however deep they lie. -/
theorem cuts (c : Content) (depth : Nat) : c.Cuts depth := by
  induction c using Content.found_induction generalizing depth with
  | nil =>
    intro start passed z w os behind
    rw [text_nil, List.append_nil] at behind
    exact ⟨passed ++ w, behind.prepend passed⟩
  | leaf l rest none_found ih => exact .leaf none_found (ih depth)
  | digits l n s after found ih => exact .digits found (ih depth)
  | block o t body closed rest ihb ihr =>
    by_cases deep : maxSearchDepth ≤ depth
    · exact .deep deep (ihr depth)
    · exact .shallow (Nat.lt_of_not_le deep) (ihb (depth + 1)) (ihr depth)

end Content

/-- The spans found in a value cut it into pieces. -/
theorem exists_respelled (v : Text) : ∃ out, Respelled 0 v (occurrencesIn v) out := by
  obtain ⟨out, cut⟩ := (cuts (ofText v) 0).here (.rest (0 + Text.byteLength (ofText v).text) [])
  rw [List.append_nil, List.append_nil, text_ofText, ← occurrencesIn_eq] at cut
  exact ⟨out, cut⟩

/-- The text with the standard texts of its shorthands in it is its expansion. -/
theorem Respelled.expand_eq {v out : Text} (cut : Respelled 0 v (occurrencesIn v) out)
    (some_found : occurrencesIn v ≠ []) : expand v = some out := by
  rw [expand]
  split
  · next none_found => exact absurd none_found some_found
  · exact cut.replaceFrom_eq [] rfl

/-- **Shorthands stand apart**: in every value, whatever its nesting, the spans of its shorthands are those of
    nonempty texts that stand in it, one behind the other.  So nothing is expanded just where nothing is
    found, and otherwise all text outside the spans is kept and each span gives way to the standard text
    of its shorthand. -/
theorem expand_respelled (v : Text) :
    (∀ o ∈ occurrencesIn v, o.start < o.stop
        ∧ ∃ old, old ≠ [] ∧ Text.slice? o.start o.stop v = some old)
      ∧ ((occurrencesIn v).Pairwise fun o p => o.stop ≤ p.start)
      ∧ (expand v = none ↔ occurrencesIn v = [])
      ∧ (occurrencesIn v ≠ [] → ∃ out, expand v = some out ∧ Respelled 0 v (occurrencesIn v) out) := by
  obtain ⟨out, cut⟩ := exists_respelled v
  refine ⟨cut.slices [] rfl, cut.pairwise.2, ?_, fun some_found => ⟨out, cut.expand_eq some_found, cut⟩⟩
  constructor
  · intro none_left
    by_cases none_found : occurrencesIn v = []
    · exact none_found
    · rw [cut.expand_eq none_found] at none_left
      cases none_left
  · intro none_found
    rw [expand, none_found]

end Translucent
