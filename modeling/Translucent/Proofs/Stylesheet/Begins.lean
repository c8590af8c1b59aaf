import Translucent.Proofs.Stylesheet.Print

/-!
  # How a row begins, whatever follows

  What starts a row is decided by components that may stand far ahead.  All the same it depends on little:
  the components up to the first semicolon or block in curly brackets, and which of the two comes then.

  1. **Cutting** — a row is its quiet start, up to a semicolon or a block in curly brackets, and an `Ends` row.
  2. **Assignments** — `ofContent?_append`: the quiet start alone decides whether there is one, and its name.
  3. **What is found** — `findStyle_append`, `findNamed_append` and `findAtRule_append`.
  4. **Beginnings** — `Begins`: a row begins in one of four ways, each of which says how the row would be read
     with something else in place of what follows (`begins`).
-/

namespace Translucent

open Content

/-! ## Cutting -/

namespace Content

/-- Whether a row is empty, or starts with a semicolon or a block in curly brackets. -/
def Ends (c : Content) : Prop := c = nil ∨ c.endsPrelude = true

theorem upTo_append_dropTo (stop : Content → Bool) (c : Content) :
    (c.upTo stop).append (c.dropTo stop) = c := by
  induction c with
  | nil => rfl
  | leaf l rest ih =>
    rw [upTo, dropTo]
    split
    · rfl
    · rw [leaf_append, ih]
  | block o t body closed rest _ ih =>
    rw [upTo, dropTo]
    split
    · rfl
    · rw [block_append, ih]

theorem dropTo_cases (stop : Content → Bool) (c : Content) :
    c.dropTo stop = nil ∨ stop (c.dropTo stop) = true := by
  induction c with
  | nil => exact .inl rfl
  | leaf l rest ih =>
    rw [dropTo]
    split
    · next here => exact .inr here
    · exact ih
  | block o t body closed rest _ ih =>
    rw [dropTo]
    split
    · next here => exact .inr here
    · exact ih

/-- Before the end of a prelude a row is quiet. -/
theorem quiet_upTo (c : Content) : (c.upTo endsPrelude).Quiet := by
  induction c with
  | nil => trivial
  | leaf l rest ih =>
    rw [upTo]
    split
    · trivial
    · next go =>
      refine ⟨fun semicolon => go ?_, ih⟩
      rw [endsPrelude, startsSemicolon, semicolon]
      rfl
  | block o t body closed rest _ ih =>
    rw [upTo]
    split
    · trivial
    · next go =>
      refine ⟨fun curly => go ?_, ih⟩
      rw [curly]
      rfl

/-- A quiet row has no semicolon to stop at. -/
theorem Quiet.upTo_self {c : Content} (quiet : c.Quiet) : c.upTo startsSemicolon = c := by
  have whole := upTo_startsSemicolon quiet .nil
  rwa [append_nil, show nil.upTo startsSemicolon = nil from rfl, append_nil] at whole

/-- A row is a quiet one before the end of a prelude. -/
theorem exists_quiet (c : Content) : ∃ p y : Content, p.Quiet ∧ y.Ends ∧ c = p.append y :=
  ⟨c.upTo endsPrelude, c.dropTo endsPrelude, quiet_upTo c, dropTo_cases endsPrelude c,
    (upTo_append_dropTo endsPrelude c).symm⟩

namespace Ends

variable {y : Content} (h : y.Ends)
include h

theorem startsWord : y.startsWord = true := by
  rcases h with rfl | h
  · rfl
  · cases y with
    | nil => rfl
    | block o t body closed rest => rfl
    | leaf l rest =>
      have semicolon : l.token = .semicolon := by
        simpa [endsPrelude, startsSemicolon, startsCurly] using h
      rw [Content.startsWord, startsTrivia, semicolon]
      rfl

/-- What ends a prelude starts no assignment. -/
theorem ofContent?_none : Assignment.ofContent? y = none := by
  rcases h with rfl | h
  · rfl
  · cases y with
    | nil => rfl
    | block o t body closed rest => rfl
    | leaf l rest =>
      have semicolon : l.token = .semicolon := by
        simpa [endsPrelude, startsSemicolon, startsCurly] using h
      obtain ⟨k, t⟩ := l
      obtain rfl : k = .semicolon := semicolon
      rfl

/-- The row is cut right here. -/
theorem upTo_dropTo : y.upTo endsPrelude = nil ∧ y.dropTo endsPrelude = y := by
  rcases h with rfl | h
  · exact ⟨rfl, rfl⟩
  · cases y with
    | nil => exact ⟨rfl, rfl⟩
    | leaf l rest => exact ⟨if_pos h, if_pos h⟩
    | block o t body closed rest => exact ⟨if_pos h, if_pos h⟩

/-- A block in curly brackets has one of these in any search up to a semicolon; otherwise the search ends here. -/
theorem hasCurly : (y.upTo startsSemicolon).hasCurly = y.startsCurly
    ∧ (y.startsCurly = false → y.upTo startsSemicolon = nil) := by
  rcases h with rfl | h
  · exact ⟨rfl, fun _ => rfl⟩
  · cases y with
    | nil => exact ⟨rfl, fun _ => rfl⟩
    | leaf l rest =>
      have semicolon : (leaf l rest).startsSemicolon = true := by
        simpa [endsPrelude, startsCurly] using h
      rw [upTo, if_pos semicolon]
      exact ⟨rfl, fun _ => rfl⟩
    | block o t body closed rest =>
      have curly : (o == .bracket .curly) = true := by
        simpa [endsPrelude, startsSemicolon, startsCurly] using h
      refine ⟨?_, fun other => ?_⟩
      · show (o == .bracket .curly || _) = (o == .bracket .curly)
        rw [curly]
        rfl
      · rw [startsCurly, curly] at other
        cases other

end Ends

/-- The next word is looked for in the row first. -/
theorem startsWord_append (c : Content) {y : Content} (hy : y.startsWord = true) :
    (c.append y).upTo startsWord = c.upTo startsWord
      ∧ (c.append y).dropTo startsWord = (c.dropTo startsWord).append y := by
  induction c with
  | nil =>
    cases y with
    | nil => exact ⟨rfl, rfl⟩
    | leaf l rest => exact ⟨if_pos hy, if_pos hy⟩
    | block o t body closed rest => exact ⟨rfl, rfl⟩
  | leaf l rest ih =>
    rw [leaf_append, upTo, upTo, dropTo, dropTo,
      show startsWord (leaf l (rest.append y)) = startsWord (leaf l rest) from rfl]
    split
    · exact ⟨rfl, rfl⟩
    · exact ⟨congrArg (leaf l) ih.1, ih.2⟩
  | block o t body closed rest _ ih => exact ⟨rfl, rfl⟩

end Content

/-! ## Assignments -/

namespace Assignment

/-- **The quiet start of a row decides on an assignment**, but for how far its value goes. -/
theorem ofContent?_append {p y : Content} (quiet : p.Quiet) (ends : y.Ends) :
    ofContent? (p.append y) = (ofContent? p).map fun a =>
      { a with value := a.value.append (y.upTo startsSemicolon)
               count := a.count + (y.upTo startsSemicolon).length } := by
  cases p with
  | nil => exact ends.ofContent?_none
  | block o t body closed rest => rfl
  | leaf l rest =>
    obtain ⟨k, text⟩ := l
    cases k with
    | ident name =>
      obtain ⟨up, drop⟩ := startsWord_append rest ends.startsWord
      have quiet := Quiet.dropTo quiet.2 startsWord
      simp only [leaf_append, ofContent?, up, drop]
      cases next : rest.dropTo startsWord with
      | nil =>
        -- what ends the prelude is no colon
        rw [nil_append]
        rcases ends with rfl | ends
        · rfl
        · cases y with
          | nil => rfl
          | block o t body closed rest => rfl
          | leaf l more =>
            obtain ⟨k, t⟩ := l
            obtain rfl : k = .semicolon := by simpa [endsPrelude, startsSemicolon, startsCurly] using ends
            rfl
      | block o t body closed more => rfl
      | leaf l more =>
        rw [next] at quiet
        obtain ⟨k, t⟩ := l
        rw [leaf_append]
        cases k with
        | colon =>
          have value := upTo_startsSemicolon quiet.2 y
          simp only [Option.map_some, value, quiet.2.upTo_self, length_append]
          congr 2
          omega
        | _ => rfl
    | _ => rfl

/-- A name, white space, a colon and a row are an assignment. -/
theorem ofContent?_row (name text : Text) {trivia : Content} (only : trivia.upTo startsWord = trivia)
    (colon : Text) (v : Content) :
    ofContent? (.leaf ⟨.ident name, text⟩ (trivia.append (.leaf ⟨.colon, colon⟩ v)))
      = some ⟨name, Text.byteLength text + trivia.width + Text.byteLength colon, v.upTo startsSemicolon,
          trivia.length + (v.upTo startsSemicolon).length + 3⟩ := by
  have word : (Content.leaf ⟨.colon, colon⟩ v).startsWord = true := rfl
  obtain ⟨up, drop⟩ := startsWord_append trivia word
  have none_left : trivia.dropTo startsWord = .nil := by
    have whole := upTo_append_dropTo startsWord trivia
    rw [only] at whole
    have length := congrArg Content.length whole
    rw [length_append] at length
    cases left : trivia.dropTo startsWord with
    | nil => rfl
    | leaf l rest => rw [left, Content.length] at length; omega
    | block o t body closed rest => rw [left, Content.length] at length; omega
  simp only [ofContent?, up, drop, none_left, only, nil_append]

end Assignment

/-! ## What is found -/

namespace Items

variable {depth pos : Nat} {p y : Content}

/-- The rule that a quiet start would be the prelude of. -/
def styleRule (depth : Nat) (p : Content) (curly : Bool) : Found × Pending :=
  if curly then (.nothing, enterBlock depth p.length (.style (Text.trim p.text)))
  else (.nothing, .pass (p.length + 1))

theorem findStyle_append (quiet : p.Quiet) (ends : y.Ends) :
    findStyle depth (p.append y) =
      match Assignment.ofContent? p with
      | some a =>
        if isCustomName a.name then (.nothing, .pass (a.count + (y.upTo startsSemicolon).length))
        else styleRule depth p y.startsCurly
      | none => styleRule depth p y.startsCurly := by
  obtain ⟨up, drop⟩ := upTo_endsPrelude quiet y
  rw [ends.upTo_dropTo.1, Content.append_nil] at up
  rw [ends.upTo_dropTo.2] at drop
  have style : findStyle.styleRule depth (p.append y) p = styleRule depth p y.startsCurly := by
    rw [findStyle.styleRule, drop, styleRule]
  unfold findStyle
  simp only [Assignment.ofContent?_append quiet ends, up, style]
  cases Assignment.ofContent? p <;> rfl

/-- The value of the assignment in a quiet start is quiet. -/
theorem quiet_value {a : Assignment} (quiet : p.Quiet) (ha : Assignment.ofContent? p = some a) :
    a.value.Quiet := by
  obtain ⟨text, rest, colon, behind, rfl, next, lead, value, count⟩ := Assignment.exists_parts ha
  have behind_quiet := Quiet.dropTo quiet.2 startsWord
  rw [next] at behind_quiet
  rw [value, behind_quiet.2.upTo_self]
  exact behind_quiet.2

theorem findNamed_append (quiet : p.Quiet) (ends : y.Ends) :
    findNamed depth pos (p.append y) =
      match Assignment.ofContent? p with
      | some a =>
        if y.startsCurly then findStyle depth (p.append y)
        else (.declaration (.ofParts a.name (pos + a.lead) a.value.text), .pass a.count)
      | none => findStyle depth (p.append y) := by
  unfold findNamed
  rw [Assignment.ofContent?_append quiet ends]
  cases ha : Assignment.ofContent? p with
  | none => rfl
  | some a =>
    obtain ⟨curly, none_behind⟩ := ends.hasCurly
    have inside : (a.value.append (y.upTo startsSemicolon)).hasCurly = y.startsCurly := by
      rw [hasCurly_append, (quiet_value quiet ha).hasCurly, curly]
      rfl
    simp only [Option.map_some, inside]
    split
    · rfl
    · next other =>
      rw [none_behind (Bool.eq_false_iff.mpr other), Content.append_nil]
      rfl

theorem findAtRule_append (quiet : p.Quiet) (ends : y.Ends) (name : Text) :
    findAtRule depth name (p.append y) =
      if y.startsCurly then
        (.nothing, enterBlock depth (p.length + 1) (.atRule (Text.lower name) (Text.trim p.text)))
      else (.statement (.atRule (Text.lower name) (Text.trim p.text)), .pass (p.length + 2)) := by
  obtain ⟨up, drop⟩ := upTo_endsPrelude quiet y
  rw [ends.upTo_dropTo.1, Content.append_nil] at up
  rw [ends.upTo_dropTo.2] at drop
  simp only [findAtRule, up, drop]

end Items

/-! ## Beginnings -/

namespace Content

/-- What was cut from a row is cut there again, with another rest behind it. -/
theorem upTo_append_of_stop {stop : Content → Bool} (leaves : ∀ l r r', stop (leaf l r) = stop (leaf l r'))
    (blocks : ∀ o t b k r r', stop (block o t b k r) = stop (block o t b k r')) (c : Content)
    {w : Content} (hw : w = nil ∨ stop w = true) :
    ((c.upTo stop).append w).upTo stop = c.upTo stop := by
  have here : w.upTo stop = nil := by
    rcases hw with rfl | hw
    · rfl
    · cases w with
      | nil => rfl
      | leaf l rest => exact if_pos hw
      | block o t body closed rest => exact if_pos hw
  induction c with
  | nil => exact here
  | leaf l rest ih =>
    rw [upTo]
    split
    · exact here
    · next go => rw [leaf_append, upTo, if_neg (by rwa [leaves l _ rest]), ih]
  | block o t body closed rest _ ih =>
    rw [upTo]
    split
    · exact here
    · next go => rw [block_append, upTo, if_neg (by rwa [blocks o t body closed _ rest]), ih]

/-- A row has no more than its components. -/
theorem take_length_le {c : Content} {n : Nat} (h : c.length ≤ n) : c.take n = c ∧ c.drop n = .nil := by
  induction c generalizing n with
  | nil => exact ⟨take_nil n, drop_nil n⟩
  | leaf l rest ih =>
    obtain ⟨m, rfl⟩ : ∃ m, n = m + 1 := ⟨n - 1, by rw [length] at h; omega⟩
    obtain ⟨take, drop⟩ := ih (Nat.le_of_succ_le_succ h)
    rw [Content.take, Content.drop, take]
    exact ⟨rfl, drop⟩
  | block o t body closed rest _ ih =>
    obtain ⟨m, rfl⟩ : ∃ m, n = m + 1 := ⟨n - 1, by rw [length] at h; omega⟩
    obtain ⟨take, drop⟩ := ih (Nat.le_of_succ_le_succ h)
    rw [Content.take, Content.drop, take]
    exact ⟨rfl, drop⟩

theorem width_append (c d : Content) : (c.append d).width = c.width + d.width := by
  simp only [width_eq, text_append, Text.byteLength_append]

/-- Both parts of a quiet row are quiet. -/
theorem Quiet.parts {c d : Content} (h : (c.append d).Quiet) : c.Quiet ∧ d.Quiet := by
  induction c with
  | nil => exact ⟨trivial, h⟩
  | leaf l rest ih => exact ⟨⟨h.1, (ih h.2).1⟩, (ih h.2).2⟩
  | block o t body closed rest _ ih => exact ⟨⟨h.1, (ih h.2).1⟩, (ih h.2).2⟩

/-- What may stand behind an item: a semicolon, or nothing at the end of the row. -/
def IsMark (mark rest : Content) : Prop := mark = nil ∧ rest = nil ∨ ∃ t, mark = leaf ⟨.semicolon, t⟩ nil

namespace IsMark

variable {mark rest : Content} (h : IsMark mark rest)
include h

theorem startsSemicolon : mark.append rest = nil ∨ (mark.append rest).startsSemicolon = true := by
  rcases h with ⟨rfl, rfl⟩ | ⟨t, rfl⟩
  · exact .inl rfl
  · exact .inr rfl

theorem ends : (mark.append rest).Ends := by
  rcases h with ⟨rfl, rfl⟩ | ⟨t, rfl⟩
  · exact .inl rfl
  · exact .inr rfl

theorem startsCurly : (mark.append rest).startsCurly = false := by
  rcases h with ⟨rfl, rfl⟩ | ⟨t, rfl⟩ <;> rfl

/-- Something else may stand behind the mark. -/
theorem other {rest' : Content} (hr : rest = nil → rest' = nil) : IsMark mark rest' := by
  rcases h with ⟨rfl, rfl⟩ | ⟨t, rfl⟩
  · exact .inl ⟨rfl, hr rfl⟩
  · exact .inr ⟨t, rfl⟩

end IsMark

/-- A row behind which nothing or a semicolon stands is cut there. -/
theorem exists_mark {w : Content} (h : w = nil ∨ w.startsSemicolon = true) :
    ∃ mark rest, IsMark mark rest ∧ w = mark.append rest := by
  rcases h with rfl | h
  · exact ⟨nil, nil, .inl ⟨rfl, rfl⟩, rfl⟩
  · cases w with
    | nil => cases h
    | block o t body closed rest => cases h
    | leaf l rest =>
      obtain ⟨k, t⟩ := l
      obtain rfl : k = .semicolon := by simpa [Content.startsSemicolon] using h
      exact ⟨leaf ⟨.semicolon, t⟩ nil, rest, .inr ⟨t, rfl⟩, rfl⟩

/-- What ends a prelude and is no block starts with a mark. -/
theorem Ends.exists_mark {y : Content} (ends : y.Ends) (other : y.startsCurly = false) :
    ∃ mark rest, IsMark mark rest ∧ y = mark.append rest := by
  refine Content.exists_mark ?_
  rcases ends with rfl | ends
  · exact .inl rfl
  · rw [endsPrelude, other, Bool.or_false] at ends
    exact .inr ends

end Content

namespace Items

open Content

/-- How a row begins, with what is read of it if something else follows.  Nothing may follow what takes up
    the whole row. -/
inductive Begins (depth : Nat) : Content → Prop
  /-- With components that are no item. -/
  | nothing {q rest : Content} (hq : q ≠ .nil)
      (read : ∀ pos rest', (rest = .nil → rest' = .nil) →
        ofContent depth (.pass 0) pos (q.append rest')
          = ofContent depth (.pass 0) (pos + q.width) rest') :
      Begins depth (q.append rest)
  /-- With a rule without a block. -/
  | statement (h : Heading) {q rest : Content} (hq : q ≠ .nil)
      (read : ∀ pos rest', (rest = .nil → rest' = .nil) →
        ofContent depth (.pass 0) pos (q.append rest')
          = .rule h .nil (ofContent depth (.pass 0) (pos + q.width) rest')) :
      Begins depth (q.append rest)
  /-- With a declaration: what leads to its value ends with the colon, and any other quiet row may stand in
      the place of the value. -/
  | declaration (name : Text) {lead value mark rest : Content} (colon : Text) (quiet : value.Quiet)
      (ends : IsMark mark rest)
      (read : ∀ pos (value' : Content) rest', value'.Quiet → (rest = .nil → rest' = .nil) →
        ofContent depth (.pass 0) pos
            ((lead.append (.leaf ⟨.colon, colon⟩ .nil)).append (value'.append (mark.append rest')))
          = .declaration (.ofParts name (pos + (lead.append (.leaf ⟨.colon, colon⟩ .nil)).width) value'.text)
              (ofContent depth (.pass 0) (pos + (lead.append (.leaf ⟨.colon, colon⟩ .nil)).width + value'.width
                + mark.width) rest')) :
      Begins depth ((lead.append (.leaf ⟨.colon, colon⟩ .nil)).append (value.append (mark.append rest)))
  /-- With a rule: any other block may stand in the place of its block. -/
  | rule (h : Heading) {q body rest : Content} (t : Text) {closed : Bool}
      (read : ∀ pos body' closed' rest',
        ofContent depth (.pass 0) pos (q.append (.block (.bracket .curly) t body' closed' rest'))
          = .rule h (ofContent (depth + 1) (.pass 0) (pos + q.width + Text.byteLength t) body')
              (ofContent depth (.pass 0)
                (pos + q.width + Text.byteLength t + body'.width + closingWidth closed') rest')) :
      Begins depth (q.append (.block (.bracket .curly) t body closed rest))

variable {depth pos : Nat} {p y : Content}

/-- What is found at the start of a row comes first, if the row ends or goes on behind its components. -/
theorem ofContent_behind {q rest : Content} {r : Found} {n : Nat} (hq : q ≠ .nil)
    (hn : q.length = n ∨ q.length ≤ n ∧ rest = .nil)
    (h : find depth pos (q.append rest) = (r, .pass n)) :
    ofContent depth (.pass 0) pos (q.append rest)
      = r.put (ofContent depth (.pass 0) (pos + q.width) rest) := by
  obtain ⟨m, hm⟩ : ∃ m, q.length = m + 1 := by
    cases q with
    | nil => exact absurd rfl hq
    | leaf l rest => exact ⟨_, rfl⟩
    | block o t body closed rest => exact ⟨_, rfl⟩
  have nonempty : q.append rest ≠ .nil := by
    cases q with
    | nil => exact absurd rfl hq
    | leaf l rest => simp
    | block o t body closed rest => simp
  obtain ⟨k, rfl⟩ : ∃ k, n = k + 1 := ⟨n - 1, by omega⟩
  rw [ofContent_found nonempty h]
  rcases hn with hn | ⟨hn, rfl⟩
  · rw [← hn, take_length_append, drop_length_append]
  · obtain ⟨take, drop⟩ := take_length_le hn
    rw [Content.append_nil, take, drop]

/-- What is found is passed over up to a semicolon, or to the end. -/
theorem begins_mark {q mark rest : Content} {r : Found} (no : ∀ d, r ≠ .declaration d)
    (nonempty : q.append (mark.append rest) ≠ .nil) (isMark : IsMark mark rest)
    (read : ∀ pos rest', IsMark mark rest' →
      find depth pos (q.append (mark.append rest')) = (r, .pass (q.length + 1))) :
    Begins depth (q.append (mark.append rest)) := by
  rw [← Content.append_assoc] at nonempty ⊢
  have some_row : q.append mark ≠ .nil := by
    rcases isMark with ⟨rfl, rfl⟩ | ⟨t, rfl⟩
    · rwa [Content.append_nil] at nonempty
    · cases q <;> simp
  have behind pos rest' (hr : rest = .nil → rest' = .nil) :
      ofContent depth (.pass 0) pos ((q.append mark).append rest')
        = r.put (ofContent depth (.pass 0) (pos + (q.append mark).width) rest') := by
    have isMark' := isMark.other hr
    refine ofContent_behind some_row (n := q.length + 1) ?_ ?_
    · rw [length_append]
      rcases isMark' with ⟨rfl, rfl⟩ | ⟨t, rfl⟩
      · exact .inr ⟨Nat.le_succ _, rfl⟩
      · exact .inl rfl
    · rw [Content.append_assoc]
      exact read pos rest' isMark'
  cases r with
  | nothing => exact .nothing some_row behind
  | statement h => exact .statement h some_row behind
  | declaration d => exact absurd rfl (no d)

/-- A block behind a prelude is entered, or passed over where it is too deep. -/
theorem begins_block (h : Heading) (t : Text) {body rest : Content} {closed : Bool}
    (read : ∀ pos body' closed' rest', find depth pos (p.append (.block (.bracket .curly) t body' closed' rest'))
      = (.nothing, enterBlock depth p.length h)) :
    Begins depth (p.append (.block (.bracket .curly) t body closed rest)) := by
  by_cases shallow : depth < maxRuleDepth
  · simp only [enterBlock, if_pos shallow] at read
    refine .rule h t fun pos body' closed' rest' => ?_
    refine (ofContent_entered (drop_length_append p _) (read pos body' closed' rest')).trans ?_
    rw [take_length_append]
  · simp only [enterBlock, if_neg shallow] at read
    have cut (rest' : Content) : p.append (.block (.bracket .curly) t body closed rest')
        = (p.append (.block (.bracket .curly) t body closed .nil)).append rest' := by
      rw [Content.append_assoc]
      rfl
    have nonempty : p.append (.block (.bracket .curly) t body closed .nil) ≠ .nil := by
      cases p <;> simp
    rw [cut]
    refine .nothing nonempty fun pos rest' _ => ?_
    refine ofContent_behind nonempty (.inl ?_) (r := .nothing) (cut rest' ▸ read pos body closed rest')
    rw [length_append]
    rfl

/-- What starts like a rule with a selector, and is passed over if it is none. -/
theorem begins_style (nonempty : p.append y ≠ .nil) (ends : y.Ends)
    (found : ∀ pos (y' : Content), y'.Ends → y'.startsCurly = y.startsCurly →
      find depth pos (p.append y') = styleRule depth p y.startsCurly) : Begins depth (p.append y) := by
  by_cases curly : y.startsCurly = true
  · cases y with
    | nil => cases curly
    | leaf l rest => cases curly
    | block o t body closed rest =>
      obtain rfl : o = .bracket .curly := by simpa [startsCurly] using curly
      refine begins_block (.style (Text.trim p.text)) t fun pos body' closed' rest' => ?_
      rw [found pos (.block (.bracket .curly) t body' closed' rest') (.inr rfl) rfl, curly]
      rfl
  · rw [Bool.not_eq_true] at curly
    obtain ⟨mark, rest, isMark, rfl⟩ := ends.exists_mark curly
    refine begins_mark (r := .nothing) (by simp) nonempty isMark fun pos rest' isMark' => ?_
    refine (found pos _ isMark'.ends ?_).trans ?_
    · rw [isMark'.startsCurly, curly]
    · rw [curly]
      rfl

/-- The row of an assignment that ends before any semicolon. -/
theorem exists_row {a : Assignment} (quiet : p.Quiet) (ha : Assignment.ofContent? p = some a) :
    ∃ (text : Text) (trivia : Content) (colon : Text),
      p = .leaf ⟨.ident a.name, text⟩ (trivia.append (.leaf ⟨.colon, colon⟩ a.value))
      ∧ trivia.upTo startsWord = trivia ∧ a.count = p.length + 1 := by
  obtain ⟨text, more, colon, value, rfl, next, -, value_eq, count⟩ := Assignment.exists_parts ha
  have cut : more = (more.upTo startsWord).append (.leaf ⟨.colon, colon⟩ value) := by
    rw [← next, upTo_append_dropTo]
  have value_quiet := Quiet.dropTo quiet.2 startsWord
  rw [next] at value_quiet
  rw [value_quiet.2.upTo_self] at value_eq
  refine ⟨text, more.upTo startsWord, colon, by rw [value_eq, ← cut], ?_, ?_⟩
  · have again := @upTo_append_of_stop startsWord (fun _ _ _ => rfl) (fun _ _ _ _ _ _ => rfl) more .nil
      (.inl rfl)
    rwa [Content.append_nil] at again
  · have length := congrArg Content.length cut
    rw [length_append, Content.length] at length
    rw [count, value_eq, Content.length, length]
    omega

/-- A declaration, where the value of an assignment ends before any block in curly brackets. -/
theorem begins_declaration {mark rest : Content} {a : Assignment} (quiet : p.Quiet)
    (ha : Assignment.ofContent? p = some a) (isMark : IsMark mark rest) :
    Begins depth (p.append (mark.append rest)) := by
  obtain ⟨text, trivia, colon, rfl, only, -⟩ := exists_row quiet ha
  obtain ⟨trivia_quiet, -, value_quiet⟩ := Quiet.parts quiet.2
  -- a lead up to the colon, with a value behind it
  have row (v : Content) : Content.leaf ⟨.ident a.name, text⟩ (trivia.append (.leaf ⟨.colon, colon⟩ v))
      = ((Content.leaf ⟨.ident a.name, text⟩ trivia).append (.leaf ⟨.colon, colon⟩ .nil)).append v := by
    rw [Content.append_assoc]
    rfl
  rw [row, Content.append_assoc]
  refine .declaration a.name colon value_quiet isMark fun pos value' rest' quiet' hr => ?_
  have isMark' := isMark.other hr
  have assignment := Assignment.ofContent?_row a.name text only colon value'
  rw [quiet'.upTo_self] at assignment
  rw [← Content.append_assoc, ← row]
  generalize hp : Content.leaf ⟨.ident a.name, text⟩ (trivia.append (.leaf ⟨.colon, colon⟩ value')) = p
    at assignment
  have p_quiet : p.Quiet := hp ▸ ⟨by simp, trivia_quiet.append ⟨by simp, quiet'⟩⟩
  have length : trivia.length + value'.length + 3 = p.length + 1 := by
    rw [← hp, Content.length, length_append, Content.length]
    omega
  have found : find depth pos (p.append (mark.append rest'))
      = (.declaration (.ofParts a.name (pos + (Text.byteLength text + trivia.width + Text.byteLength colon))
          value'.text), .pass (p.length + 1)) := by
    have named : find depth pos (p.append (mark.append rest'))
        = findNamed depth pos (p.append (mark.append rest')) := by
      rw [← hp]
      rfl
    rw [named, findNamed_append p_quiet isMark'.ends, assignment, isMark'.startsCurly, ← length]
    rfl
  have width : ((Content.leaf ⟨.ident a.name, text⟩ trivia).append (.leaf ⟨.colon, colon⟩ .nil)).width
      = Text.byteLength text + trivia.width + Text.byteLength colon := by
    simp only [width_append, Content.width]
    omega
  have p_width : p.width = Text.byteLength text + trivia.width + Text.byteLength colon + value'.width := by
    rw [← hp]
    simp only [width_append, Content.width]
    omega
  rw [← Content.append_assoc] at found ⊢
  have nonempty : p.append mark ≠ .nil := by rw [← hp]; simp
  rw [ofContent_behind nonempty ?_ found, width, width_append, p_width]
  · simp only [Found.put, Nat.add_assoc]
  · rw [length_append]
    rcases isMark' with ⟨rfl, rfl⟩ | ⟨t, rfl⟩
    · exact .inr ⟨Nat.le_succ _, rfl⟩
    · exact .inl rfl

/-- A custom property whose value holds a block in curly brackets is no declaration. -/
theorem begins_custom {a : Assignment} (quiet : p.Quiet) (ha : Assignment.ofContent? p = some a)
    (custom : isCustomName a.name = true) (curly : y.startsCurly = true) : Begins depth (p.append y) := by
  let inside := y.upTo startsSemicolon
  obtain ⟨mark, rest, isMark, behind⟩ := exists_mark (dropTo_cases startsSemicolon y)
  have cut : p.append y = (p.append inside).append (mark.append rest) := by
    rw [Content.append_assoc, ← behind, upTo_append_dropTo]
  obtain ⟨text, trivia, colon, row, -, count⟩ := exists_row quiet ha
  have nonempty : (p.append inside).append (mark.append rest) ≠ .nil := by
    rw [← cut]
    rw [row]
    simp
  rw [cut]
  refine begins_mark (r := .nothing) (by simp) nonempty isMark fun pos rest' isMark' => ?_
  have curly' : (inside.append (mark.append rest')).startsCurly = true := by
    cases y with
    | nil => cases curly
    | leaf l rest => cases curly
    | block o t body closed rest => exact curly
  have ends : (inside.append (mark.append rest')).Ends := .inr (by rw [endsPrelude, curly', Bool.or_true])
  have named : find depth pos (p.append (inside.append (mark.append rest')))
      = findNamed depth pos (p.append (inside.append (mark.append rest'))) := by
    rw [row]
    rfl
  have again : (inside.append (mark.append rest')).upTo startsSemicolon = inside :=
    upTo_append_of_stop (fun _ _ _ => rfl) (fun _ _ _ _ _ _ => rfl) y isMark'.startsSemicolon
  rw [Content.append_assoc, named, findNamed_append quiet ends, ha]
  dsimp only
  rw [if_pos curly', findStyle_append quiet ends, ha]
  dsimp only
  rw [if_pos custom, again, count, length_append]
  congr 2
  omega

/-- A leaf that is passed over. -/
theorem begins_leaf {l : Lexeme} (c : Content)
    (found : ∀ pos rest', find depth pos (.leaf l rest') = (.nothing, .pass 1)) : Begins depth (.leaf l c) := by
  refine .nothing (q := .leaf l .nil) (by simp) fun pos rest' _ => ?_
  exact ofContent_behind (q := .leaf l .nil) (by simp) (.inl rfl) (found pos rest')

/-- An at-rule, with a block or without one. -/
theorem begins_atRule (name text : Text) (quiet : p.Quiet) (ends : y.Ends) :
    Begins depth ((Content.leaf ⟨.atKeyword name, text⟩ p).append y) := by
  have found pos (y' : Content) : find depth pos ((Content.leaf ⟨.atKeyword name, text⟩ p).append y')
      = findAtRule depth name (p.append y') := rfl
  by_cases curly : y.startsCurly = true
  · cases y with
    | nil => cases curly
    | leaf l rest => cases curly
    | block o t body closed rest =>
      obtain rfl : o = .bracket .curly := by simpa [startsCurly] using curly
      refine begins_block (.atRule (Text.lower name) (Text.trim p.text)) t fun pos body' closed' rest' => ?_
      rw [found pos, findAtRule_append quiet (.inr rfl)]
      rfl
  · rw [Bool.not_eq_true] at curly
    obtain ⟨mark, rest, isMark, rfl⟩ := ends.exists_mark curly
    refine begins_mark (r := .statement (.atRule (Text.lower name) (Text.trim p.text))) (by simp) (by simp) isMark
      fun pos rest' isMark' => ?_
    rw [found pos, findAtRule_append quiet isMark'.ends, isMark'.startsCurly]
    rfl

/-- **A row begins in one of four ways.** -/
theorem begins (depth : Nat) {c : Content} (hc : c ≠ .nil) : Begins depth c := by
  obtain ⟨p, y, quiet, ends, rfl⟩ := exists_quiet c
  have style (other : ∀ pos (y' : Content), y'.Ends → y'.startsCurly = y.startsCurly →
      find depth pos (p.append y') = findStyle depth (p.append y'))
      (free : ∀ a, Assignment.ofContent? p = some a → isCustomName a.name = false) : Begins depth (p.append y) := by
    refine begins_style hc ends fun pos y' ends' same => ?_
    rw [other pos y' ends' same, findStyle_append quiet ends', same]
    cases ha : Assignment.ofContent? p with
    | none => rfl
    | some a => exact if_neg (by rw [free a ha]; exact Bool.false_ne_true)
  cases p with
  | nil =>
    cases y with
    | nil => exact absurd rfl hc
    | leaf l rest =>
      obtain ⟨k, t⟩ := l
      obtain rfl : k = .semicolon := by simpa [Ends, endsPrelude, startsSemicolon, startsCurly] using ends
      exact begins_leaf rest fun _ _ => rfl
    | block o t body closed rest =>
      obtain rfl : o = .bracket .curly := by simpa [Ends, endsPrelude, startsSemicolon, startsCurly] using ends
      refine style (fun pos y' ends' same => ?_) (by simp [Assignment.ofContent?])
      cases y' with
      | nil => cases same
      | leaf l rest => cases same
      | block o t body closed rest => rfl
  | block o t body closed rest => exact style (fun _ _ _ _ => rfl) (by simp [Assignment.ofContent?])
  | leaf l rest =>
    obtain ⟨k, t⟩ := l
    cases k with
    | space => exact begins_leaf _ fun _ _ => rfl
    | comment closed => exact begins_leaf _ fun _ _ => rfl
    | semicolon => exact begins_leaf _ fun _ _ => rfl
    | closing b =>
      cases b with
      | curly => exact begins_leaf _ fun _ _ => rfl
      | _ => exact style (fun _ _ _ _ => rfl) (by simp [Assignment.ofContent?])
    | atKeyword name => exact begins_atRule name t quiet.2 ends
    | ident name =>
      have named pos (y' : Content) : find depth pos ((Content.leaf ⟨.ident name, t⟩ rest).append y')
          = findNamed depth pos ((Content.leaf ⟨.ident name, t⟩ rest).append y') := rfl
      cases ha : Assignment.ofContent? (Content.leaf ⟨.ident name, t⟩ rest) with
      | none =>
        refine style (fun pos y' ends' same => ?_) (by simp [ha])
        rw [named, findNamed_append quiet ends', ha]
      | some a =>
        by_cases curly : y.startsCurly = true
        · by_cases custom : isCustomName a.name = true
          · exact begins_custom quiet ha custom curly
          · refine style (fun pos y' ends' same => ?_) (by simpa [ha] using custom)
            rw [named, findNamed_append quiet ends', ha]
            exact if_pos (same.trans curly)
        · rw [Bool.not_eq_true] at curly
          obtain ⟨mark, rest, isMark, rfl⟩ := ends.exists_mark curly
          exact begins_declaration quiet ha isMark
    | _ => exact style (fun _ _ _ _ => rfl) (by simp [Assignment.ofContent?])

end Items

end Translucent
