import Translucent.Proofs.Content.Spelled
import Translucent.Proofs.Stylesheet.Begins
import Translucent.Proofs.Stylesheet.Respelled

/-!
  # Other values in their places

  Which values may stand in the places of those that were read, so that nothing but the values and the spans
  changes when the text is read again.

  1. **Apart from spans** — `bare` forgets where values stand.
  2. **Admitting a value** — `Admits`: the other text is a quiet row again, whatever follows it.
  3. **Places** — `Located` says where a row stands in the whole text.
  4. **Rows** — `Exchanged` is what is kept of a row, and `exists_exchanged` goes from item to item: each of the
     four ways in which a row begins leaves the rest of it to be exchanged by itself.
  5. **Sheets** — `ofText_exchange`.
-/

namespace Translucent

open Content

/-! ## Apart from spans -/

/-- A declaration apart from where it stands. -/
def Declaration.bare (d : Declaration) : Declaration := { d with start := 0, stop := 0 }

/-- `revalue g d` = the declaration `d` with the value `g d`. -/
def Declaration.revalue (g : Declaration → Text) (d : Declaration) : Declaration := { d with value := g d }

/-- A sheet apart from its source and the spans in it. -/
def Stylesheet.bare (s : Stylesheet) : Stylesheet := { s.map Declaration.bare with source := [] }

/-! ## Admitting a value -/

/-- Whether two texts may follow the same value: a semicolon or a closing bracket starts both, or both are
    empty. -/
def Borders (z z' : Text) : Prop :=
  z = [] ∧ z' = [] ∨ ∃ m y y', (m = ';' ∨ m = '\x7d') ∧ z = m :: y ∧ z' = m :: y'

namespace Borders

variable {z z' : Text} (h : Borders z z')
include h

theorem parted : Parted z z' := by
  rcases h with ⟨rfl, rfl⟩ | ⟨m, y, y', rfl | rfl, rfl, rfl⟩
  · exact .refl _
  · exact .cons rfl y y'
  · exact .cons rfl y y'

theorem stop : Stop z' := by
  rcases h with ⟨rfl, rfl⟩ | ⟨m, y, y', rfl | rfl, rfl, rfl⟩
  · exact stop_nil
  · exact stop_cons rfl y'
  · exact stop_cons rfl y'

end Borders

/-- Whether `w` may stand in the place of the value that is written as the row `value` before `z`. -/
def Content.Admits (stack : List Bracket) (value : Content) (z w : Text) : Prop :=
  ∀ z', Borders z z' → ∃ new : Content, new.Quiet ∧ new.text = respelled value.text w
    ∧ splitImportant new.text = (w, (splitImportant value.text).2)
    ∧ levels stack (lexemes 0 (new.text ++ z')) = prepend new (levels stack (lexemes 0 z'))

/-- A value may stand in its own place. -/
theorem Content.admits_self {stack : List Bracket} {value : Content} {z : Text} (quiet : value.Quiet)
    (spelled : value.Spelled stack z) : Admits stack value z (splitImportant value.text).1 := by
  intro z' borders
  refine ⟨value, quiet, (respelled_self _).symm, rfl, ?_⟩
  exact levels_of_spelled (spelled.parted borders.parted)

/-! ## Places -/

/-- Whether the row `c` before `z` starts at the byte `pos` of the text `css`, with its lexemes among those of the
    text. -/
def Located (css : Text) (pos : Nat) (c : Content) (z : Text) : Prop :=
  ∃ front, lexemes 0 css = front ++ (c.leaves ++ lexemes 0 z) ∧ pos = Text.byteLength (Lexeme.textOf front)

namespace Located

variable {css z : Text} {pos : Nat} {stack : List Bracket}

/-- All of a text. -/
theorem ofText (css : Text) : Located css 0 (Content.ofText css) [] := by
  refine ⟨[], ?_, rfl⟩
  rw [leaves_ofText]
  exact (List.append_nil _).symm

/-- Both parts of a row. -/
theorem parts {c d : Content} (h : Located css pos (c.append d) z) (spelled : (c.append d).Spelled stack z) :
    Located css pos c (d.text ++ z) ∧ Located css (pos + c.width) d z := by
  obtain ⟨front, cut, here⟩ := h
  have behind := spelled.parts.2.lexed
  rw [Lexed, textOf_leaves] at behind
  rw [leaves_append, List.append_assoc] at cut
  refine ⟨⟨front, ?_, here⟩, ⟨front ++ c.leaves, ?_, ?_⟩⟩
  · rw [cut, behind]
  · rw [cut, List.append_assoc]
  · rw [Lexeme.textOf_append, Text.byteLength_append, textOf_leaves, ← width_eq, here]

/-- The body of a block, and what is behind the block. -/
theorem block {o : Opener} {t : Text} {body rest : Content} {closed : Bool}
    (h : Located css pos (.block o t body closed rest) z)
    (spelled : (Content.block o t body closed rest).Spelled stack z) :
    Located css (pos + Text.byteLength t) body (closing o closed ++ (rest.text ++ z))
      ∧ Located css (pos + Text.byteLength t + body.width + closingWidth closed) rest z := by
  obtain ⟨front, cut, here⟩ := h
  obtain ⟨-, -, -, restSpelled⟩ := spelled
  have closer_lexed := lexed_closer o closed (rest.text ++ z)
  have rest_lexed := restSpelled.lexed
  rw [Lexed, textOf_closer] at closer_lexed
  rw [Lexed, textOf_leaves] at rest_lexed
  constructor
  · refine ⟨front ++ [⟨.opening o, t⟩], ?_, ?_⟩
    · rw [cut, closer_lexed, rest_lexed]
      simp only [leaves, List.append_assoc, List.cons_append, List.nil_append]
    · rw [Lexeme.textOf_append, Text.byteLength_append, here]
      simp
  · refine ⟨front ++ (⟨.opening o, t⟩ :: (body.leaves ++ closer o closed)), ?_, ?_⟩
    · rw [cut]
      simp only [leaves, List.append_assoc, List.cons_append]
    · simp only [Lexeme.textOf_append, Lexeme.textOf_cons, Text.byteLength_append, textOf_leaves, textOf_closer,
        byteLength_closing, width_eq, here]
      omega

end Located

/-! ## Rows -/

theorem Content.size_append (c d : Content) : (c.append d).size = c.size + d.size := by
  induction c with
  | nil => exact (Nat.zero_add _).symm
  | leaf l rest ih => rw [leaf_append, size, size, ih]; omega
  | block o t body closed rest _ ih => rw [block_append, size, size, ih]; omega

theorem Content.size_pos {c : Content} (h : c ≠ .nil) : 0 < c.size := by
  cases c with
  | nil => exact absurd rfl h
  | leaf l rest => exact Nat.succ_pos _
  | block o t body closed rest => exact Nat.succ_pos _

namespace Items

/-- What is kept of the row `c` before `z` by the row `c'` before `z'`, if the declarations of `c` get the
    values that `g` gives. -/
structure Exchanged (g : Declaration → Text) (depth pos : Nat) (stack : List Bracket) (z z' : Text)
    (c c' : Content) : Prop where
  levels : levels stack (lexemes 0 (c'.text ++ z')) = prepend c' (levels stack (lexemes 0 z'))
  parted : Parted (c.text ++ z) (c'.text ++ z')
  nil : c = .nil → c' = .nil
  patched : Stylesheet.Patched pos c.text
    ((ofContent depth (.pass 0) pos c).inSource.map (Declaration.revalue g)) c'.text
  items : ∀ pos', (ofContent depth (.pass 0) pos' c').map Declaration.bare
    = ((ofContent depth (.pass 0) pos c).map (Declaration.revalue g)).map Declaration.bare

variable {g : Declaration → Text} {depth pos : Nat} {stack : List Bracket} {z z' : Text}

theorem exchanged_nil (borders : Borders z z') : Exchanged g depth pos stack z z' .nil .nil :=
  ⟨rfl, borders.parted, fun _ => rfl, .rest _ _, fun _ => rfl⟩

namespace Exchanged

/-- A spelled row in front of what was exchanged. -/
theorem levels_append {c c' q : Content} (h : Exchanged g depth pos stack z z' c c')
    (spelled : q.Spelled stack (c.text ++ z)) :
    Content.levels stack (lexemes 0 ((q.append c').text ++ z'))
      = prepend (q.append c') (Content.levels stack (lexemes 0 z')) := by
  rw [text_append, List.append_assoc, levels_of_spelled (spelled.parted h.parted), h.levels, prepend_append]

/-- What holds no declarations stays. -/
theorem behind {q rest rest' : Content} (nonempty : q ≠ .nil) (spelled : q.Spelled stack (rest.text ++ z))
    (h : Exchanged g depth (pos + q.width) stack z z' rest rest') {F : Items → Items}
    (read : ∀ pos rest', (rest = .nil → rest' = .nil) → ofContent depth (.pass 0) pos (q.append rest')
      = F (ofContent depth (.pass 0) (pos + q.width) rest'))
    (map : ∀ f i, (F i).map f = F (i.map f)) (inSource : ∀ i, (F i).inSource = i.inSource) :
    Exchanged g depth pos stack z z' (q.append rest) (q.append rest') := by
  constructor
  · exact h.levels_append spelled
  · rw [text_append, text_append, List.append_assoc, List.append_assoc]
    exact h.parted.behind q.text
  · intro nothing
    cases q with
    | nil => exact absurd rfl nonempty
    | leaf l more => cases nothing
    | block o t body closed more => cases nothing
  · rw [text_append, text_append, read pos rest id, inSource]
    have patched := h.patched
    rw [width_eq] at patched
    rw [width_eq]
    exact patched.prepend q.text
  · intro pos'
    rw [read pos rest id, read pos' rest' h.nil, map, map, map, h.items]

/-- A declaration gets its value, if that may stand there. -/
theorem declaration {name colon : Text} {lead value mark rest rest' : Content} (isMark : IsMark mark rest)
    (spelled : ((lead.append (.leaf ⟨.colon, colon⟩ .nil)).append (value.append (mark.append rest))).Spelled stack z)
    (borders : Borders z z')
    (h : Exchanged g depth (pos + (lead.append (.leaf ⟨.colon, colon⟩ .nil)).width + value.width + mark.width)
      stack z z' rest rest')
    (read : ∀ pos (value' : Content) rest', value'.Quiet → (rest = .nil → rest' = .nil) →
      ofContent depth (.pass 0) pos
          ((lead.append (.leaf ⟨.colon, colon⟩ .nil)).append (value'.append (mark.append rest')))
        = .declaration (.ofParts name (pos + (lead.append (.leaf ⟨.colon, colon⟩ .nil)).width) value'.text)
            (ofContent depth (.pass 0) (pos + (lead.append (.leaf ⟨.colon, colon⟩ .nil)).width + value'.width
              + mark.width) rest'))
    (quiet : value.Quiet)
    (admits : Admits stack value (mark.text ++ (rest.text ++ z))
      (g (.ofParts name (pos + (lead.append (.leaf ⟨.colon, colon⟩ .nil)).width) value.text))) :
    ∃ c', Exchanged g depth pos stack z z'
      ((lead.append (.leaf ⟨.colon, colon⟩ .nil)).append (value.append (mark.append rest))) c' := by
  obtain ⟨leadSpelled, valueSpelled⟩ := spelled.parts
  obtain ⟨leadSpelled, reads, -⟩ := leadSpelled.parts
  obtain ⟨markSpelled, -⟩ := valueSpelled.parts.2.parts
  obtain ⟨m, rfl, mark_colon⟩ := reads.mark rfl
  obtain rfl : m = ':' := Token.mark?_injective mark_colon rfl
  have borders' : Borders (mark.text ++ (rest.text ++ z)) (mark.text ++ (rest'.text ++ z')) := by
    rcases isMark with ⟨rfl, rfl⟩ | ⟨t, rfl⟩
    · rw [h.nil rfl]
      exact borders
    · obtain ⟨m, rfl, mark_semicolon⟩ := markSpelled.1.mark rfl
      obtain rfl : m = ';' := Token.mark?_injective mark_semicolon rfl
      exact .inr ⟨';', rest.text ++ z, rest'.text ++ z', .inl rfl, rfl, rfl⟩
  obtain ⟨new, newQuiet, text, split, levels⟩ := admits _ borders'
  have colonEq (s : Text) : Content.levels stack (lexemes 0 (':' :: s))
      = prepend (.leaf ⟨.colon, [':']⟩ .nil) (Content.levels stack (lexemes 0 s)) := by
    rw [lexemes_mark (r := .colon) rfl]
    exact levels_leaf (l := ⟨.colon, [':']⟩) (by simp) (by simp) _
  have parted (s s' : Text) : Parted (':' :: s) (':' :: s') := .cons rfl s s'
  refine ⟨(lead.append (.leaf ⟨.colon, [':']⟩ .nil)).append (new.append (mark.append rest')), ?_, ?_, ?_, ?_, ?_⟩
  · have leadEq := levels_of_spelled (leadSpelled.parted (parted _ (new.text ++ (mark.text ++ (rest'.text ++ z')))))
    have markEq := levels_of_spelled (markSpelled.parted h.parted)
    simp only [text_append, text_leaf, text_nil, List.append_assoc, List.cons_append, List.nil_append,
      prepend_append]
    rw [leadEq, colonEq, levels, markEq, h.levels]
  · simp only [text_append, text_leaf, text_nil, List.append_assoc, List.cons_append, List.nil_append]
    exact (parted _ _).behind lead.text
  · intro nothing
    cases lead <;> cases nothing
  · have patched := h.patched
    rw [read pos value rest quiet id, Items.inSource, List.map_cons, text_append _ (value.append _),
      text_append _ (new.append _), text_append value, text_append new, text_append mark, text_append mark, text]
    simp only [width_eq] at patched ⊢
    exact patched_ofParts _ _ _ _ (.prepend _ patched)
  · intro pos'
    rw [read pos value rest quiet id, read pos' new rest' newQuiet h.nil]
    simp only [Items.map, h.items]
    congr 1
    simp only [Declaration.ofParts, Declaration.revalue, Declaration.bare, split]

/-- The block of a rule is exchanged by itself. -/
theorem rule {hd : Heading} {q body body' rest rest' : Content} {t : Text} {closed : Bool}
    (spelled : (q.append (.block (.bracket .curly) t body closed rest)).Spelled stack z)
    (inner : Exchanged g (depth + 1) (pos + q.width + Text.byteLength t) (.curly :: stack)
      (closing (.bracket .curly) closed ++ (rest.text ++ z)) (closing (.bracket .curly) closed ++ (rest'.text ++ z'))
      body body')
    (h : Exchanged g depth (pos + q.width + Text.byteLength t + body.width + closingWidth closed) stack z z' rest rest')
    (read : ∀ pos body' closed' rest',
      ofContent depth (.pass 0) pos (q.append (.block (.bracket .curly) t body' closed' rest'))
        = .rule hd (ofContent (depth + 1) (.pass 0) (pos + q.width + Text.byteLength t) body')
            (ofContent depth (.pass 0)
              (pos + q.width + Text.byteLength t + body'.width + closingWidth closed') rest')) :
    Exchanged g depth pos stack z z' (q.append (.block (.bracket .curly) t body closed rest))
      (q.append (.block (.bracket .curly) t body' closed rest')) := by
  obtain ⟨lead, reads, left, bodySpelled, restSpelled⟩ := spelled.parts
  have parted : Parted ((Content.block (.bracket .curly) t body closed rest).text ++ z)
      ((Content.block (.bracket .curly) t body' closed rest').text ++ z') := by
    simp only [text_block, List.append_assoc]
    exact inner.parted.behind t
  constructor
  · have nothing (unclosed : closed = false) : rest'.text ++ z' = [] := by
      obtain ⟨rfl, rfl⟩ := left unclosed
      exact h.parted.eq_nil
    rw [text_append, List.append_assoc, levels_of_spelled (lead.parted parted), text_block]
    simp only [List.append_assoc]
    rw [levels_block_of_reads (reads.parted inner.parted) inner.levels nothing, h.levels, prepend_append]
    rfl
  · rw [text_append, text_append, List.append_assoc, List.append_assoc]
    exact parted.behind q.text
  · intro nothing
    cases q <;> cases nothing
  · have first := inner.patched
    have second := h.patched
    rw [text_append, text_append, text_block, text_block, read, Items.inSource, List.map_append]
    simp only [List.append_assoc, width_eq, ← byteLength_closing (.bracket .curly)] at first second ⊢
    exact .prepend _ (.prepend _ (.append first (.prepend _ second)))
  · intro pos'
    rw [read, read]
    simp only [Items.map, inner.items, h.items]

end Exchanged

/-- **Values that may stand in the places of those of a row** are the only thing that changes in it. -/
theorem exists_exchanged {css : Text} {S : Declaration → Prop}
    (admits : ∀ {stack : List Bracket} {value : Content} {z : Text} {name : Text} {pos : Nat},
      stack.head? ≠ some .round → value.Quiet → value.Spelled stack z → Located css pos value z →
      S (.ofParts name pos value.text) → Admits stack value z (g (.ofParts name pos value.text)))
    (c : Content) (hs : stack.head? ≠ some .round) (spelled : c.Spelled stack z) (located : Located css pos c z)
    (borders : Borders z z') (within : ∀ d ∈ (ofContent depth (.pass 0) pos c).inSource, S d) :
    ∃ c', Exchanged g depth pos stack z z' c c' := by
  -- by the size of the row, as its components are passed over several at a time
  generalize size : c.size = n
  induction n using Nat.strongRecOn generalizing depth pos c stack z z' with
  | ind n ih =>
    by_cases hc : c = .nil
    · subst hc
      exact ⟨.nil, exchanged_nil borders⟩
    have shorter (q rest : Content) (hq : q ≠ .nil) (cut : (q.append rest).size = n) : rest.size < n := by
      have := size_pos hq
      rw [size_append] at cut
      omega
    cases begins depth hc with
    | nothing nonempty read =>
      next q rest =>
      rw [read pos rest id] at within
      obtain ⟨rest', h⟩ := ih _ (shorter q rest nonempty size) rest hs spelled.parts.2 (located.parts spelled).2
        borders within rfl
      exact ⟨_, h.behind nonempty spelled.parts.1 (F := fun i => i) read (fun _ _ => rfl) fun _ => rfl⟩
    | statement hd nonempty read =>
      next q rest =>
      rw [read pos rest id] at within
      obtain ⟨rest', h⟩ := ih _ (shorter q rest nonempty size) rest hs spelled.parts.2 (located.parts spelled).2
        borders within rfl
      exact ⟨_, h.behind nonempty spelled.parts.1 (F := .rule hd .nil) read (fun _ _ => rfl) fun _ => rfl⟩
    | declaration name colon quiet isMark read =>
      next lead value mark rest =>
      rw [read pos value rest quiet id, inSource] at within
      have first := within _ List.mem_cons_self
      have others d hd := within d (List.mem_cons_of_mem _ hd)
      have some_lead : lead.append (.leaf ⟨.colon, colon⟩ .nil) ≠ .nil := by cases lead <;> simp
      have less := shorter _ _ some_lead size
      rw [size_append, size_append] at less
      have behind := spelled.parts.2
      obtain ⟨atValue, atMark⟩ := (located.parts spelled).2.parts behind
      obtain ⟨valueSpelled, markSpelled⟩ := behind.parts
      rw [text_append, List.append_assoc] at valueSpelled atValue
      obtain ⟨rest', h⟩ := ih rest.size (by omega) rest hs markSpelled.parts.2 (atMark.parts markSpelled).2 borders
        others rfl
      exact h.declaration isMark spelled borders read quiet (admits hs quiet valueSpelled atValue first)
    | rule hd t read =>
      next q body rest closed =>
      rw [read pos body closed rest, inSource] at within
      have inner d hd := within d (List.mem_append_left _ hd)
      have others d hd := within d (List.mem_append_right _ hd)
      rw [size_append, Content.size] at size
      obtain ⟨atBody, atRest⟩ := (located.parts spelled).2.block spelled.parts.2
      obtain ⟨-, -, left, bodySpelled, restSpelled⟩ := spelled.parts
      obtain ⟨rest', h⟩ := ih rest.size (by omega) rest hs restSpelled atRest borders others rfl
      have borders' : Borders (closing (.bracket .curly) closed ++ (rest.text ++ z))
          (closing (.bracket .curly) closed ++ (rest'.text ++ z')) := by
        cases closed with
        | true => exact .inr ⟨'\x7d', _, _, .inr rfl, rfl, rfl⟩
        | false =>
          obtain ⟨rfl, rfl⟩ := left rfl
          refine .inl ⟨rfl, ?_⟩
          rw [h.parted.eq_nil]
          rfl
      obtain ⟨body', inside⟩ := ih body.size (by omega) body (by simp [Opener.shape]) bodySpelled atBody borders'
        inner rfl
      exact ⟨_, .rule spelled inside h read⟩

end Items

/-! ## Sheets -/

namespace Stylesheet

/-- The sheet of items. -/
def ofItems (source : Text) (i : Items) : Stylesheet := ⟨source, i.declarations, i.rules⟩

/-- Mapping the declarations of a sheet is mapping the items. -/
theorem map_ofItems (f : Declaration → Declaration) (source : Text) (i : Items) :
    (ofItems source i).map f = ofItems source (i.map f) := by
  rw [ofItems, ofItems, Items.declarations_map, Items.rules_map]
  rfl

theorem bare_ofItems (source : Text) (i : Items) :
    (ofItems source i).bare = ofItems [] (i.map Declaration.bare) := by
  rw [bare, map_ofItems]
  rfl

theorem visit_bare (s : Stylesheet) : s.bare.visit = s.visit.map Declaration.bare := visit_map Declaration.bare s

/-- Other values keep the order of the declarations. -/
theorem inOrder_map (g : Declaration → Text) (s : Stylesheet) :
    (s.map (Declaration.revalue g)).inOrder = s.inOrder.map (Declaration.revalue g) := by
  rw [inOrder, visit_map, inOrder]
  refine (List.map_mergeSort (f := Declaration.revalue g) fun d _ e _ => ?_).symm
  rfl

/-- In a sheet that was read they keep the order of the source. -/
theorem inOrder_revalue (g : Declaration → Text) (css : Text) :
    ((ofText css).map (Declaration.revalue g)).inOrder = (inSource css).map (Declaration.revalue g) := by
  rw [inOrder_map, inOrder_ofText]

/-- **Values that may stand in the places of those of a sheet** are the only thing that is changed when its
    text is read again. -/
theorem ofText_exchange {g : Declaration → Text} (css : Text)
    (admits : ∀ {stack : List Bracket} {value : Content} {z : Text} {name : Text} {pos : Nat},
      stack.head? ≠ some .round → value.Quiet → value.Spelled stack z → Located css pos value z →
      Declaration.ofParts name pos value.text ∈ inSource css →
      Admits stack value z (g (.ofParts name pos value.text))) :
    let edited := (ofText css).map (Declaration.revalue g)
    (ofText edited.text).bare = edited.bare := by
  intro edited
  let items := Items.ofContent 0 (.pass 0) 0 (Content.ofText css)
  obtain ⟨c', h⟩ := @Items.exists_exchanged g 0 0 [] [] [] css (· ∈ inSource css) admits (Content.ofText css) (by simp)
    (spelled_ofText css) (.ofText css) (.inl ⟨rfl, rfl⟩) fun d hd => hd
  -- the text of the edited sheet is that of the exchanged row
  have text : edited.text = c'.text := by
    have patched := h.patched
    rw [text_ofText] at patched
    have spliced := patched.splice_eq [] rfl
    rw [Stylesheet.text, inOrder_revalue]
    exact spliced
  have tree : Content.ofText c'.text = c' := by
    have levels := h.levels
    rw [List.append_nil] at levels
    rw [Content.ofText, Content.ofLexemes, levels, content_prepend]
    exact Content.append_nil c'
  rw [text]
  show (ofItems c'.text (Items.ofContent 0 (.pass 0) 0 (Content.ofText c'.text))).bare
    = ((ofItems css items).map (Declaration.revalue g)).bare
  rw [tree, map_ofItems, bare_ofItems, bare_ofItems, h.items 0]

end Stylesheet

end Translucent
