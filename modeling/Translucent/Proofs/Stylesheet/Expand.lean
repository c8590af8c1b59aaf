import Translucent.Proofs.Stylesheet.Exchange
import Translucent.Proofs.Value.Grown

/-!
  # Reading an expanded sheet again

  Values are expanded as texts of their own and put back into the sheet.  Where the shorthands that are found there
  are made of whole lexemes of the sheet, and nothing grows together with `#000` and `#FFF`, the sheet is read again
  with the same rules and declarations.

  1. **Ends** — an expanded value starts and ends like the value or like a standard text, so that it gets neither
     blanks around it (`trimmed_of_respelled`) nor a mark of importance (`unmarked_of_respelled`).
  2. **Values in the sheet** — `Expandable`, which does not ask how deep blocks are, and what is enough for it
     where none is too deep (`marked_alone`).
  3. **Expanded values** — `admits_expanded`: they may stand in the place of the value.

  **Main statement** — `ofText_expandStylesheet`.
-/

namespace Translucent

open Content

/-! ## Ends -/

namespace Respelled

variable {pos : Nat} {t out : Text} {os : List Occurrence}

/-- A text with standard texts in it starts as before or with one of them. -/
theorem head (h : Respelled pos t os out) : ∀ c ∈ out.head?, c ∈ t.head? ∨ c = 'r' ∨ c = '#' := by
  cases h with
  | rest => exact fun c hc => .inl hc
  | @shorthand _ gap old rest out o os =>
    cases gap with
    | cons d gap => exact fun c hc => .inl hc
    | nil =>
      obtain ⟨m, y, standard, kind⟩ := o.shorthand.exists_standard
      intro c hc
      rw [List.nil_append, standard] at hc
      obtain rfl : m = c := Option.some.inj hc
      exact .inr (kind.imp And.left And.left)

/-- Behind the last standard text it ends as before. -/
theorem last (h : Respelled pos t os out) (some_found : os ≠ []) :
    ∃ x y q r, t = x ++ r ∧ out = y ++ q :: r ∧ (q = ')' ∨ q = '0' ∨ q = 'F') := by
  induction h with
  | rest => exact absurd rfl some_found
  | @shorthand pos gap old rest out o os _ _ _ behind ih =>
    by_cases last : os = []
    · subst last
      cases behind
      obtain ⟨y, q, standard, kind⟩ := o.shorthand.exists_last
      refine ⟨gap ++ old, gap ++ y, q, rest, (List.append_assoc ..).symm, ?_, kind⟩
      rw [standard]
      simp only [List.append_assoc, List.singleton_append]
    · obtain ⟨x, y, q, r, rfl, rfl, kind⟩ := ih last
      refine ⟨gap ++ (old ++ x), gap ++ (o.shorthand.standard ++ y), q, r, ?_, ?_, kind⟩
      · simp only [List.append_assoc]
      · simp only [List.append_assoc]

theorem ne_nil (h : Respelled pos t os out) (some_found : os ≠ []) : out ≠ [] := by
  obtain ⟨x, y, q, r, -, rfl, -⟩ := h.last some_found
  simp

end Respelled

/-- A value without blanks at its ends gets none. -/
theorem trimmed_of_respelled {v w : Text} {os : List Occurrence} (cut : Respelled 0 v os w) (some_found : os ≠ [])
    (head : ∀ c ∈ v.head?, Text.isBlank c = false) (last : ∀ c ∈ v.getLast?, Text.isBlank c = false) :
    (∀ c ∈ w.head?, Text.isBlank c = false) ∧ ∀ c ∈ w.getLast?, Text.isBlank c = false := by
  constructor
  · intro c hc
    rcases cut.head c hc with same | rfl | rfl
    · exact head c same
    · rfl
    · rfl
  · obtain ⟨x, y, q, r, rfl, rfl, kind⟩ := cut.last some_found
    intro c hc
    rcases List.eq_nil_or_concat r with rfl | ⟨r, d, rfl⟩
    · rw [List.getLast?_concat] at hc
      obtain rfl := Option.some.inj hc
      rcases kind with rfl | rfl | rfl <;> rfl
    · -- both texts end alike
      refine last c ?_
      rw [List.concat_eq_append] at hc ⊢
      rw [← List.cons_append, ← List.append_assoc, List.getLast?_concat] at hc
      rw [← List.append_assoc, List.getLast?_concat]
      exact hc

/-- A value without a mark of importance gets none. -/
theorem unmarked_of_respelled {v w : Text} {os : List Occurrence} (cut : Respelled 0 v os w) (some_found : os ≠ [])
    (unmarked : (splitImportant v).2 = false) : (splitImportant w).2 = false := by
  refine Bool.eq_false_iff.mpr fun marked => ?_
  obtain ⟨p, b, c, word, whole, hb, hc, hw⟩ := exists_marked marked
  obtain ⟨x, y, q, r, rfl, rfl, kind⟩ := cut.last some_found
  -- no character of the mark is the last one of a standard text
  have outside : q ∉ '!' :: (b ++ (word ++ c)) := by
    have apart : Text.isBlank q = false ∧ q ≠ '!' ∧ q.toLower ∉ importantWord := by
      rcases kind with rfl | rfl | rfl <;> decide
    intro mem
    simp only [List.mem_cons, List.mem_append] at mem
    rcases mem with mem | mem | mem | mem
    · exact apart.2.1 mem
    · exact Bool.false_ne_true (apart.1.symm.trans (hb q mem))
    · have lower : word.map Char.toLower = importantWord := eq_of_beq hw
      exact apart.2.2 (lower ▸ List.mem_map_of_mem mem)
    · exact Bool.false_ne_true (apart.1.symm.trans (hc q mem))
  have behind : ∃ m, r = m ++ '!' :: (b ++ (word ++ c)) := by
    rw [← List.singleton_append, ← List.append_assoc] at whole
    rcases List.append_eq_append_iff.mp whole with ⟨m, -, eq⟩ | ⟨m, eq, eq'⟩
    · exact ⟨m, eq⟩
    · rcases List.eq_nil_or_concat m with rfl | ⟨m, d, rfl⟩
      · exact ⟨[], eq'.symm⟩
      · have last := congrArg List.getLast? eq
        rw [List.getLast?_concat, List.concat_eq_append, ← List.append_assoc, List.getLast?_concat] at last
        obtain rfl := Option.some.inj last
        exact absurd (eq' ▸ by simp) outside
  obtain ⟨m, rfl⟩ := behind
  rw [← List.append_assoc, splitImportant_marked _ hb hc hw] at unmarked
  cases unmarked

/-! ## Values in the sheet -/

/-- Whether the value of a declaration of the sheet `css` can be expanded as a text of its own. -/
structure Expandable (css : Text) (d : Declaration) : Prop where
  /-- Its shorthands take up whole lexemes of the sheet, and close the brackets in them.  They do not where a block
      that is too deep stands right before one, or blanks that belong to a name. -/
  marked : Marked 0 (lexemes 0 css) ((occurrencesIn d.value).map (·.shift d.start))
  /-- Behind black or white of opacity 1 no name goes on. -/
  free : ∀ o ∈ occurrencesIn d.value, o.shorthand.solid?.isSome = true → ∀ u t, css = u ++ t →
    d.start + o.stop = Text.byteLength u → Free (occurrencesIn d.value) o.stop t

/-- **Where a value is read as it is alone**, and leaves no brackets open, its shorthands are marked in the sheet. -/
theorem marked_alone {css v : Text} {start : Nat} (shallow : (Content.ofText v).depth ≤ maxSearchDepth)
    (balanced : nest none [] (lexemes 0 v) = some [])
    (alone : ∃ front behind, lexemes 0 css = front ++ (lexemes 0 v ++ behind)
      ∧ start = Text.byteLength (Lexeme.textOf front)) :
    Marked 0 (lexemes 0 css) ((occurrencesIn v).map (·.shift start)) := by
  obtain ⟨front, behind, cut, rfl⟩ := alone
  rw [cut]
  exact .prepend front (((marked_occurrencesIn shallow).append balanced behind).shift _)

/-! ## Expanded values -/

/-- An expanded value is found again where it was put. -/
theorem splitImportant_expanded {raw w : Text} {os : List Occurrence} (some_found : os ≠ [])
    (cut : Respelled 0 (splitImportant raw).1 os w) :
    splitImportant (respelled raw w) = (w, (splitImportant raw).2) := by
  obtain ⟨head, last⟩ := trimmed_splitImportant raw
  obtain ⟨head', last'⟩ := trimmed_of_respelled cut some_found head last
  refine splitImportant_respelled raw (cut.ne_nil some_found) head' last' fun unmarked => ?_
  have own : (splitImportant (splitImportant raw).1).2 = false := by
    have same : Text.trim (splitImportant raw).1 = Text.trim raw := by
      rw [trim_of_ends head last, splitImportant_unmarked unmarked]
    rw [splitImportant_congr same]
    exact unmarked
  rw [splitImportant_unmarked (unmarked_of_respelled cut some_found own), trim_of_ends head' last']

/-- The text behind a colon with its value expanded. -/
theorem respelled_expanded {raw w : Text} {os : List Occurrence} (cut : Respelled 0 (splitImportant raw).1 os w)
    (pos : Nat) : Respelled pos raw
      (os.map (·.shift (pos + Text.byteLength (raw.takeWhile Text.isBlank)))) (respelled raw w) := by
  have shifted := cut.shift (pos + Text.byteLength (raw.takeWhile Text.isBlank))
  rw [Nat.zero_add] at shifted
  have whole := Respelled.prepend (raw.takeWhile Text.isBlank)
    (shifted.append ((Text.trimStart raw).drop (splitImportant raw).1.length))
  rw [← trimStart_eq, Text.blanks_append_trimStart] at whole
  exact whole

/-- The lexemes of a value are expanded where they stand. -/
theorem exists_expanded_value {css name z z' w : Text} {pos : Nat} {stack : List Bracket} {value : Content}
    (spelled : value.Spelled stack z) (located : Located css pos value z)
    (expandable : Expandable css (.ofParts name pos value.text)) (parted : Parted z z')
    (cut : Respelled 0 (splitImportant value.text).1 (occurrencesIn (splitImportant value.text).1) w) :
    ∃ ms os, Lexeme.textOf ms = respelled value.text w ∧ Lexed ms z' ∧ Grown pos value.leaves os ms := by
  obtain ⟨front, all, here⟩ := located
  have css_eq : css = Lexeme.textOf front ++ (value.text ++ z) := by
    rw [← textOf_lexemes_zero css, all, Lexeme.textOf_append, Lexeme.textOf_append, textOf_leaves, textOf_lexemes_zero]
  obtain ⟨marked, free⟩ := expandable
  have moved := respelled_expanded cut pos
  have inside : Marked pos value.leaves ((occurrencesIn (splitImportant value.text).1).map
      (·.shift (pos + Text.byteLength (value.text.takeWhile Text.isBlank)))) := by
    have css_lexed := Lexed.lexemes css
    rw [all] at css_lexed
    have window := marked.window css_lexed all (fun o ho => ?_) (fun o ho => ?_)
    · rw [Nat.zero_add, ← here] at window
      exact window
    · rw [Nat.zero_add, ← here]
      exact moved.pairwise.1 o ho
    · rw [Nat.zero_add, Lexeme.textOf_append, Text.byteLength_append, ← here, textOf_leaves]
      exact moved.stop_le o ho
  obtain ⟨ms, h⟩ := exists_expanded parted inside spelled.lexed (fun o ho => ho) (fun o ho => .inl ho)
    fun o ho solid u t eq stop => by
      obtain ⟨p, hp, rfl⟩ := List.mem_map.mp ho
      have behind := free p hp solid (Lexeme.textOf front ++ u) t
        (by rw [css_eq, ← textOf_leaves, eq, List.append_assoc])
        (by
          rw [Text.byteLength_append, ← here, ← stop]
          exact Nat.add_comm ..)
      exact behind.shift _
  have read := h.respelled
  rw [textOf_leaves] at read
  exact ⟨ms, _, read.unique moved (Lexeme.textOf front) here, h.lexed, h.grown⟩

/-- **An expanded value may stand in the place of the value**, if that can be expanded as a text of its own. -/
theorem admits_expanded {css name z : Text} {pos : Nat} {stack : List Bracket} {value : Content}
    (quiet : value.Quiet) (spelled : value.Spelled stack z) (located : Located css pos value z)
    (some_found : occurrencesIn (splitImportant value.text).1 ≠ [])
    (expandable : Expandable css (.ofParts name pos value.text)) :
    Admits stack value z (expanded (splitImportant value.text).1) := by
  intro z' borders
  obtain ⟨w, cut⟩ := exists_respelled (splitImportant value.text).1
  have value_eq : expanded (splitImportant value.text).1 = w := by
    rw [expanded, cut.expand_eq some_found]
    rfl
  obtain ⟨ms, os, text, read, grown⟩ := exists_expanded_value spelled located expandable borders.parted cut
  -- the brackets are as they were, unless the sheet ends with the value
  obtain ⟨left, nested, ended⟩ : ∃ left, nest stack.head? [] ms = some left ∧ (left ≠ [] → lexemes 0 z' = []) := by
    rcases nest_leaves spelled (.inr ⟨rfl, rfl, quiet⟩) with closed | ⟨rfl, more, -, opens⟩
    · obtain ⟨left, nested, rfl | nonempty⟩ := grown.nest closed
      · exact ⟨[], nested, fun some_left => absurd rfl some_left⟩
      · exact absurd rfl nonempty
    · obtain ⟨left, nested, -⟩ := grown.nest opens
      refine ⟨left, nested, fun _ => ?_⟩
      rw [borders.parted.eq_nil]
      rfl
  obtain ⟨row, row_quiet, levels⟩ := levels_of_nest nested ended
  rw [← read, text] at levels
  have row_text := text_of_levels levels
  rw [value_eq]
  refine ⟨row, row_quiet, row_text, ?_, row_text ▸ levels⟩
  rw [row_text, splitImportant_expanded some_found cut]

namespace Stylesheet

/-- A sheet is expanded by giving each declaration its expanded value. -/
theorem text_expandStylesheet (css : Text) (options : Options) : expandStylesheet css options
    = ((ofText css).map (Declaration.revalue fun d => expanded d.value)).text := by
  show ((Expander.plugin ⟨options⟩).run (ofText css)).text = _
  rw [run_eq]
  rfl

/-- **Reading an expanded sheet**: where every value with shorthands can be expanded as a text of its own, the
    same rules and declarations are read again, with each value expanded. -/
theorem ofText_expandStylesheet (css : Text) (options : Options)
    (h : ∀ d ∈ (ofText css).visit, occurrencesIn d.value ≠ [] → Expandable css d) :
    (ofText (expandStylesheet css options)).bare = ((ofText css).mapValues fun _ v => expanded v).bare := by
  rw [text_expandStylesheet]
  refine @ofText_exchange (fun d => expanded d.value) css ?_
  intro stack value z name pos _ quiet spelled located mem
  by_cases some_found : occurrencesIn (splitImportant value.text).1 = []
  · have same : expanded (splitImportant value.text).1 = (splitImportant value.text).1 := by
      rw [expanded, expand, some_found]
      rfl
    show Admits stack value z (expanded (splitImportant value.text).1)
    rw [same]
    exact admits_self quiet spelled
  · exact admits_expanded quiet spelled located some_found
      (h _ ((perm_inSource css).mem_iff.mpr mem) some_found)

/-- The text of an expanded sheet, from its declarations in the order of the source. -/
theorem expandStylesheet_eq (css : Text) (options : Options) : expandStylesheet css options
    = splice css 0 ((inSource css).map (Declaration.revalue fun d => expanded d.value)) := by
  rw [text_expandStylesheet, ← inOrder_revalue]
  rfl

/-- Opaque black before a name in one value, and digits before a mark of importance in the next. -/
theorem ofText_expandStylesheet_important :
    let css : Text := ['a', '\x7b', 'b', ':', 'b', 'l', 'a', 'c', 'k', '(', '1', ')', ' ', 'x', ';', 'c', ':',
      '#', 'f', 'f', 'f', '.', '5', '!', 'i', 'm', 'p', 'o', 'r', 't', 'a', 'n', 't', '\x7d']
    (∀ d ∈ (ofText css).visit, occurrencesIn d.value ≠ [] → Expandable css d)
      ∧ (ofText (expandStylesheet css ⟨⟩)).bare = ((ofText css).mapValues fun _ v => expanded v).bare := by
  intro css
  have expandable : ∀ d ∈ (ofText css).visit, occurrencesIn d.value ≠ [] → Expandable css d := by
    let b : Declaration := ⟨['b'], ['b', 'l', 'a', 'c', 'k', '(', '1', ')', ' ', 'x'], false, 4, 14⟩
    let c : Declaration := ⟨['c'], ['#', 'f', 'f', 'f', '.', '5'], true, 17, 23⟩
    have visited : (ofText css).visit = [b, c] := by decide
    rw [visited]
    intro d hd _
    simp only [List.mem_cons, List.not_mem_nil, or_false] at hd
    rcases hd with rfl | rfl
    · have shallow : (Content.ofText b.value).depth ≤ maxSearchDepth := by decide
      have found := (occurrencesIn_eq b.value).trans (occurrences_outside shallow)
      have spans : (Content.ofText b.value).shorthands 0 = [⟨0, 8, .black .full⟩] := by decide
      refine ⟨marked_alone shallow (by decide)
        ⟨(lexemes 0 css).take 4, (lexemes 0 css).drop 9, by decide +kernel, by decide⟩, ?_⟩
      rw [found, spans]
      intro o ho _ u t cut stop
      obtain rfl := List.mem_singleton.mp ho
      have rest : Text.dropBytes 12 css = some t := by
        rw [cut, show 12 = Text.byteLength u from stop]
        exact Text.dropBytes_byteLength u t
      obtain rfl : [' ', 'x', ';', 'c', ':', '#', 'f', 'f', 'f', '.', '5', '!', 'i', 'm', 'p', 'o', 'r', 't',
        'a', 'n', 't', '\x7d'] = t := Option.some.inj rest
      exact ⟨by decide, fun _ => rfl⟩
    · have shallow : (Content.ofText c.value).depth ≤ maxSearchDepth := by decide
      have none_solid : ∀ o ∈ occurrencesIn c.value, o.shorthand.solid?.isSome = false := by
        rw [occurrencesIn_eq, occurrences_outside shallow]
        decide
      refine ⟨marked_alone shallow (by decide)
        ⟨(lexemes 0 css).take 12, (lexemes 0 css).drop 14, by decide +kernel, by decide⟩, ?_⟩
      intro o ho solid
      rw [none_solid o ho] at solid
      cases solid
  exact ⟨expandable, ofText_expandStylesheet css ⟨⟩ expandable⟩

/-- The name of an address grows together with `#000` before it, so that the bracket in the address opens a
    block: in `a{b:black(1)url([);c:d}` the second declaration is lost. -/
theorem not_ofText_expandStylesheet_before_url :
    ¬∀ css options, (ofText (expandStylesheet css options)).bare
      = ((ofText css).mapValues fun _ v => expanded v).bare := by
  intro always
  let css : Text := ['a', '\x7b', 'b', ':', 'b', 'l', 'a', 'c', 'k', '(', '1', ')', 'u', 'r', 'l', '(', '[',
    ')', ';', 'c', ':', 'd', '\x7d']
  let out : Text := ['a', '\x7b', 'b', ':', '#', '0', '0', '0', 'u', 'r', 'l', '(', '[', ')', ';', 'c', ':',
    'd', '\x7d']
  let b : Declaration :=
    ⟨['b'], ['b', 'l', 'a', 'c', 'k', '(', '1', ')', 'u', 'r', 'l', '(', '[', ')'], false, 4, 18⟩
  let c : Declaration := ⟨['c'], ['d'], false, 21, 22⟩
  have source : inSource css = [b, c] := by decide
  have shallow : (Content.ofText b.value).depth ≤ maxSearchDepth := by decide
  have first : expanded b.value = ['#', '0', '0', '0', 'u', 'r', 'l', '(', '[', ')'] := by
    rw [expanded, expand_eq_replaced shallow, occurrencesIn_eq, occurrences_outside shallow]
    decide
  have second : expanded c.value = c.value := by
    have shallow : (Content.ofText c.value).depth ≤ maxSearchDepth := by decide
    rw [expanded, expand_eq_replaced shallow, occurrencesIn_eq, occurrences_outside shallow]
    decide
  have text : expandStylesheet css ⟨⟩ = out := by
    rw [expandStylesheet_eq, source, List.map_cons, List.map_cons, List.map_nil, Declaration.revalue,
      Declaration.revalue, first, second]
    rfl
  have number := congrArg (fun s => s.visit.length) (always css ⟨⟩)
  simp only [visit_bare, mapValues, visit_map, List.length_map, text] at number
  have one : (ofText out).visit.length = 1 := by decide
  have two : (ofText css).visit.length = 2 := by decide
  rw [one, two] at number
  cases number

end Stylesheet

end Translucent
