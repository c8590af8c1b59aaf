import Translucent.Proofs.Content.Append
import Translucent.Proofs.Stylesheet.Draft
import Translucent.Proofs.Stylesheet.Placement
import Translucent.Proofs.Token.Words

/-!
  # Printing and reading back

  What is read from the text of a draft, with any other text behind it, are the items of the draft and
  then those of the other text.

  1. **Lexemes** — names in front of any text.
  2. **Rows** — a value, a prelude or a block in front of any text is a row of its own.  The other text
     does not matter, though a selector is first tried as a declaration, which may look far into it.
  3. **Items** — each kind of item is found where it was printed (`ofContent_declaration`, …).
  4. **Trees** — `levels_print`, by induction on the draft.
  5. **Moving** — further behind in a text the same items are read, with their spans moved.

  **Main statement** — `ofText_print`.
-/

namespace Translucent

/-! ## Lexemes -/

section Names

variable {c m : Char} {t : Text}

/-- The name of a property is read as a name. -/
theorem start_property {n : Text} (hn : Draft.isProperty n = true) (t : Text) :
    ∃ c s, n = c :: s ∧ Token.start c (s ++ m :: t) = .name := by
  simp only [Draft.isProperty, Bool.or_eq_true, Bool.and_eq_true, beq_iff_eq] at hn
  rcases hn with hn | ⟨hyphens, hn⟩
  · cases n with
    | nil => cases hn
    | cons c s =>
      rw [Draft.isName, Bool.and_eq_true] at hn
      refine ⟨c, s, rfl, start_name (.inl hn.1) (startsName_letter hn.1 _)
        (startsNumber_letter hn.1 _) ?_⟩
      rintro ⟨rfl, -⟩
      exact absurd hn.1 (by decide)
  · have cut := List.take_append_drop 2 n
    rw [hyphens] at cut
    generalize n.drop 2 = s at cut hn
    subst cut
    cases s with
    | nil => cases hn
    | cons d s =>
      rw [Draft.isName, Bool.and_eq_true] at hn
      refine ⟨'-', '-' :: d :: s, rfl, start_name (.inr rfl) rfl rfl ?_⟩
      rintro ⟨-, arrow⟩
      injection arrow with _ arrow
      injection arrow with arrow
      exact absurd (arrow ▸ hn.1) (by decide)

/-- The lexeme of an at-keyword. -/
theorem lexemes_atKeyword (n : Draft.Name) (t : Text) :
    lexemes 0 ('@' :: (n.1 ++ ' ' :: t)) = ⟨.atKeyword n.1, '@' :: n.1⟩ :: lexemes 0 (' ' :: t) := by
  obtain ⟨n, hn⟩ := n
  obtain ⟨length, meaning⟩ := nameLength_name (t := t) (m := ' ') (by decide) (by decide)
    fun c hc => Draft.nameChar_of (Draft.chars_of_isName hn c hc)
  have starts : startsName (n ++ ' ' :: t) = true := by
    cases n with
    | nil => cases hn
    | cons c s =>
      rw [Draft.isName, Bool.and_eq_true] at hn
      exact startsName_letter hn.1 _
  have read : Token.read '@' (n ++ ' ' :: t) = (.atKeyword n, n.length) := by
    rw [Token.read_eq]
    show Token.readAtSign _ = _
    rw [Token.readAtSign, if_pos starts, length, List.take_left, meaning]
  rw [lexemes_cons, read]
  show Lexeme.mk _ ('@' :: List.take n.length (n ++ ' ' :: t))
    :: lexemes 0 (List.drop n.length (n ++ ' ' :: t)) = _
  rw [List.take_left, List.drop_left]

/-- The lexeme of the name of a property. -/
theorem lexemes_property (n : Draft.Property) (t : Text) :
    lexemes 0 (n.1 ++ ':' :: t) = ⟨.ident n.1, n.1⟩ :: lexemes 0 (':' :: t) := by
  obtain ⟨n, hn⟩ := n
  obtain ⟨length, meaning⟩ := nameLength_name (t := t) (m := ':') (by decide) (by decide)
    fun c hc => Draft.nameChar_of (Draft.chars_of_isProperty hn c hc)
  obtain ⟨c, s, rfl, start⟩ := start_property (m := ':') hn t
  have read : Token.read c (s ++ ':' :: t) = (.ident (c :: s), s.length) := by
    rw [Token.read_eq, start]
    show Token.readName _ _ = _
    have before : (c :: (s ++ ':' :: t)).take (c :: s).length = c :: s := List.take_left
    have behind : (c :: (s ++ ':' :: t)).drop (c :: s).length = ':' :: t := List.drop_left
    rw [List.cons_append] at length
    simp only [Token.readName, length, before, behind, meaning]
    rfl
  rw [List.cons_append, lexemes_cons, read]
  show Lexeme.mk _ (c :: List.take s.length (s ++ ':' :: t))
    :: lexemes 0 (List.drop s.length (s ++ ':' :: t)) = _
  rw [List.take_left, List.drop_left]

end Names

/-! ## Rows -/

namespace Content

/-- A semicolon is a row of its own. -/
theorem levels_semicolon (stack : List Bracket) (t : Text) :
    levels stack (lexemes 0 (';' :: t))
      = prepend (leaf ⟨.semicolon, [';']⟩ nil) (levels stack (lexemes 0 t)) := by
  rw [lexemes_mark (r := .semicolon) rfl]
  exact levels_leaf (l := ⟨.semicolon, [';']⟩) (by simp) (by simp) _

/-- Balanced plain text before a stop is a quiet row. -/
theorem levels_quiet {z : Text} (stop : Stop z) {stack : List Bracket}
    (hs : stack.head? ≠ some .round) {w : Text} (plain : ∀ c ∈ w, Character.isPlain c = true)
    (balanced : parens 0 w = some 0) :
    ∃ c : Content, c.Quiet ∧ c.text = w
      ∧ levels stack (lexemes 0 (w ++ z)) = prepend c (levels stack (lexemes 0 z)) := by
  obtain ⟨inner, c, length, quiet, eq⟩ :=
    levels_plain stop hs w plain 0 0 (Nat.le_refl 0) balanced
  obtain rfl := List.length_eq_zero_iff.mp length
  exact ⟨c, quiet, text_of_levels eq, eq⟩

/-- What is read in curly brackets is a block, and a row of its own. -/
theorem levels_braces {stack : List Bracket} {inner t : Text} {body : Content}
    (h : levels (.curly :: stack) (lexemes 0 (inner ++ '\x7d' :: t))
      = prepend body (levels (.curly :: stack) (lexemes 0 ('\x7d' :: t)))) :
    levels stack (lexemes 0 ('\x7b' :: (inner ++ '\x7d' :: t)))
      = prepend (block (.bracket .curly) ['\x7b'] body true nil) (levels stack (lexemes 0 t)) := by
  rw [lexemes_mark (r := .opening (.bracket .curly)) rfl]
  refine levels_block ['\x7b'] ?_
  rw [show (Opener.bracket .curly).shape = .curly from rfl, h, lexemes_mark (r := .closing .curly) rfl,
    levels_closing rfl rfl, prepend_eq, append_nil, List.tail_cons]

/-- The first lexeme of a prelude starts neither a declaration of a custom property nor anything but a
    declaration or a rule. -/
structure Leads (l : Lexeme) : Prop where
  inert : l.token.isInert = true
  word : l.token ≠ .space
  custom : ∀ name, l.token = .ident name → isCustomName name = false

/-- A prelude before a block is a quiet row, and its first lexeme is known. -/
theorem levels_prelude {stack : List Bracket} (hs : stack.head? ≠ some .round) (p : Draft.Prelude)
    (t : Text) :
    ∃ l c, Leads l ∧ Quiet c ∧ (leaf l c).text = p.1
      ∧ levels stack (lexemes 0 (p.1 ++ '\x7b' :: t))
        = prepend (leaf l c) (levels stack (lexemes 0 ('\x7b' :: t))) := by
  obtain ⟨p, hp⟩ := p
  obtain ⟨plain, trimmed, single⟩ := Draft.plain_of_isPrelude hp
  obtain ⟨a, s, rfl⟩ := List.exists_cons_of_ne_nil (Draft.ne_nil_of_isTrimmed trimmed)
  have brace : Stop ('\x7b' :: t) := stop_cons rfl t
  obtain ⟨l, rest, cut, nonempty, isPlain, lexed⟩ := lexeme_plain brace
    (fun c hc => Draft.isPlain_of_isChar (plain c hc).1) (parens_of_none (fun c hc => (plain c hc).2) 0)
  have first : ∀ c ∈ l.text, c ≠ '(' ∧ c ≠ ')' :=
    fun c hc => (plain c (cut ▸ List.mem_append_left _ hc)).2
  have behind : ∀ c ∈ rest, Draft.isChar c = true ∧ c ≠ '(' ∧ c ≠ ')' :=
    fun c hc => plain c (cut ▸ List.mem_append_right _ hc)
  obtain ⟨c, quiet, text, eq⟩ := levels_quiet brace hs
    (fun c hc => Draft.isPlain_of_isChar (behind c hc).1) (parens_of_none (fun c hc => (behind c hc).2) 0)
  have inert : l.token.isInert = true := by
    -- there are no parentheses to open or close a block
    rcases isPlain.kind with ⟨o, -, -, opens⟩ | ⟨-, closes⟩ | ⟨inert, -⟩
    · have opens := opens 0
      rw [parens_of_none first] at opens
      cases opens
    · exact absurd rfl (first ')' (closes ▸ List.mem_cons_self)).2
    · exact inert
  have noOpening (o : Opener) : l.token ≠ .opening o := by
    rintro h; rw [h] at inert; cases inert
  have noClosing (b : Bracket) : l.token ≠ .closing b := by
    rintro h; rw [h] at inert; cases inert
  refine ⟨l, c, ⟨inert, ?_, ?_⟩, quiet, by rw [text_leaf, text]; exact cut.symm, ?_⟩
  · intro space
    obtain ⟨d, head, white⟩ := isPlain.space space
    have blank : Text.isBlank d = true := by
      simp only [Character.isSpace, Character.isNewline, Bool.or_eq_true, beq_iff_eq] at white
      rcases white with (rfl | rfl) | (rfl | rfl) | rfl <;> decide
    have char := (plain d (cut ▸ List.mem_append_left _ (List.mem_of_mem_head? head))).1
    simp only [Draft.isTrimmed, Bool.and_eq_true, decide_eq_true_eq] at trimmed
    refine trimmed.1.2 ?_
    rw [cut, List.head?_append, head, Draft.eq_space_of_isBlank char blank]
    rfl
  · intro name token
    refine Bool.eq_false_iff.mpr fun custom => single ?_
    rw [isPlain.ident name token] at custom
    rw [cut]
    unfold isCustomName at custom
    split at custom
    · next eq => rw [eq]; rfl
    · cases custom
  · rw [List.cons_append, lexed, levels_leaf noOpening fun b hb => absurd hb (noClosing b), eq]
    rfl

end Content

/-! ## Items -/

namespace Content

/-- The row of a semicolon alone. -/
def semicolon : Content := leaf ⟨.semicolon, [';']⟩ nil

/-- The row of a block in curly brackets alone. -/
def braces (body : Content) : Content := block (.bracket .curly) ['\x7b'] body true nil

theorem length_append (c d : Content) : (c.append d).length = c.length + d.length := by
  induction c with
  | nil => exact (Nat.zero_add _).symm
  | leaf l rest ih => rw [leaf_append, length, length, ih]; omega
  | block o t body closed rest _ ih => rw [block_append, length, length, ih]; omega

theorem Quiet.dropTo {c : Content} (quiet : c.Quiet) (stop : Content → Bool) : (c.dropTo stop).Quiet := by
  induction c with
  | nil => exact quiet
  | leaf l rest ih =>
    rw [Content.dropTo]
    split
    · exact quiet
    · exact ih quiet.2
  | block o t body closed rest _ ih =>
    rw [Content.dropTo]
    split
    · exact quiet
    · exact ih quiet.2

theorem hasCurly_append (c d : Content) : (c.append d).hasCurly = (c.hasCurly || d.hasCurly) := by
  induction c with
  | nil => rfl
  | leaf l rest ih => exact ih
  | block o t body closed rest _ ih => rw [block_append, hasCurly, hasCurly, ih, Bool.or_assoc]

theorem Quiet.hasCurly {c : Content} (quiet : c.Quiet) : c.hasCurly = false := by
  induction c with
  | nil => rfl
  | leaf l rest ih => exact ih quiet.2
  | block o t body closed rest _ ih => rw [Content.hasCurly, ih quiet.2, beq_false_of_ne quiet.1]; rfl

/-- The search for a semicolon passes over a quiet row. -/
theorem upTo_startsSemicolon {c : Content} (quiet : c.Quiet) (d : Content) :
    (c.append d).upTo startsSemicolon = c.append (d.upTo startsSemicolon) := by
  refine (upTo_append quiet (fun l rest h => ?_) (fun o t body closed rest h => ?_) d).1
  · exact beq_false_of_ne h
  · rfl

/-- So does the search for the end of a prelude. -/
theorem upTo_endsPrelude {c : Content} (quiet : c.Quiet) (d : Content) :
    (c.append d).upTo endsPrelude = c.append (d.upTo endsPrelude)
      ∧ (c.append d).dropTo endsPrelude = d.dropTo endsPrelude := by
  refine upTo_append quiet (fun l rest h => ?_) (fun o t body closed rest h => ?_) d
  · rw [endsPrelude, startsSemicolon, beq_false_of_ne h]; rfl
  · rw [endsPrelude, startsCurly, beq_false_of_ne h]; rfl

/-- The search for the next word ends in a row, or else at the block behind it. -/
theorem dropTo_startsWord (c body rest : Content) (o : Opener) (t : Text) (closed : Bool) :
    (c.append (block o t body closed rest)).dropTo startsWord
      = (c.dropTo startsWord).append (block o t body closed rest) := by
  induction c with
  | nil => rfl
  | leaf l more ih =>
    rw [leaf_append, dropTo, dropTo, show startsWord (leaf l (more.append _)) = startsWord (leaf l more) from rfl]
    split
    · rfl
    · exact ih
  | block o' t' body' closed' more _ ih => rfl

end Content

namespace Items

open Content

variable {depth pos : Nat}

/-- An item that takes up a row. -/
theorem ofContent_item {c d : Content} (found : Found) (hc : c ≠ .nil)
    (h : find depth pos (c.append d) = (found, .pass c.length)) :
    ofContent depth (.pass 0) pos (c.append d)
      = found.put (ofContent depth (.pass 0) (pos + Text.byteLength c.text) d) := by
  obtain ⟨n, hn⟩ : ∃ n, c.length = n + 1 := by
    cases c with
    | nil => exact absurd rfl hc
    | leaf l rest => exact ⟨_, rfl⟩
    | block o t body closed rest => exact ⟨_, rfl⟩
  have nonempty : c.append d ≠ .nil := by
    cases c with
    | nil => exact absurd rfl hc
    | leaf l rest => simp
    | block o t body closed rest => simp
  rw [hn] at h
  rw [ofContent_found nonempty h, ← hn, take_length_append, drop_length_append, width_eq]

/-- A rule whose block stands behind a row. -/
theorem ofContent_braces {c body d : Content} {heading : Heading}
    (h : find depth pos (c.append ((braces body).append d)) = (.nothing, .enter heading c.length)) :
    ofContent depth (.pass 0) pos (c.append ((braces body).append d))
      = .rule heading (ofContent (depth + 1) (.pass 0) (pos + Text.byteLength c.text + 1) body)
          (ofContent depth (.pass 0)
            (pos + Text.byteLength c.text + 1 + Text.byteLength body.text + 1) d) := by
  refine (ofContent_entered (drop_length_append c _) h).trans ?_
  rw [take_length_append, width_eq, width_eq]
  rfl

/-- A declaration. -/
theorem ofContent_declaration {v : Content} (quiet : v.Quiet) (name text : Text) (d : Content) :
    let row := Content.leaf ⟨.ident name, text⟩ (.leaf ⟨.colon, [':']⟩ (v.append semicolon))
    ofContent depth (.pass 0) pos (row.append d)
      = .declaration (.ofParts name (pos + Text.byteLength text + 1) v.text)
          (ofContent depth (.pass 0) (pos + Text.byteLength row.text) d) := by
  intro row
  refine ofContent_item (.declaration _) (by simp) ?_
  have value : ((v.append semicolon).append d).upTo startsSemicolon = v := by
    rw [append_assoc, upTo_startsSemicolon quiet]
    exact append_nil v
  have length : row.length = v.length + 3 := by
    show (v.append semicolon).length + 1 + 1 = _
    rw [length_append]
    rfl
  have assignment : Assignment.ofContent? (row.append d)
      = some ⟨name, Text.byteLength text + 1, v, v.length + 3⟩ := by
    let behind := (v.append semicolon).append d
    show some (Assignment.mk name (Text.byteLength text + 0 + 1) (behind.upTo startsSemicolon)
      (0 + (behind.upTo startsSemicolon).length + 3)) = _
    rw [show behind.upTo startsSemicolon = v from value, Nat.zero_add]
  show findNamed depth pos (row.append d) = _
  rw [findNamed, assignment]
  show (if v.hasCurly = true then _ else _) = _
  rw [if_neg (by rw [quiet.hasCurly]; exact Bool.false_ne_true), length, Nat.add_assoc]

/-- What may be read as the assignment at the start of a selector is none of a custom property, and has
    the block behind the selector in its value. -/
theorem assignment_of_leads {l : Lexeme} {p : Content} (leads : Leads l) (quiet : p.Quiet)
    {body d : Content} {a : Assignment}
    (h : Assignment.ofContent? ((Content.leaf l p).append ((braces body).append d)) = some a) :
    isCustomName a.name = false ∧ a.value.hasCurly = true := by
  obtain ⟨text, rest, colon, behind, row, next, lead, value, count⟩ := Assignment.exists_parts h
  injection row with name rest_eq
  refine ⟨leads.custom a.name (by rw [name]), ?_⟩
  rw [← rest_eq, braces, block_append, dropTo_startsWord] at next
  have quiet := quiet.dropTo startsWord
  -- the colon stands before the block, and the block is found from there
  cases ahead : p.dropTo startsWord with
  | nil => rw [ahead] at next; cases next
  | leaf l' more =>
    rw [ahead] at next quiet
    injection next with _ behind_eq
    rw [value, ← behind_eq, upTo_startsSemicolon quiet.2, hasCurly_append]
    exact Bool.or_true _
  | block o t inner closed more => rw [ahead] at next; cases next

/-- A style rule. -/
theorem ofContent_style {l : Lexeme} {p : Content} (leads : Leads l) (quiet : p.Quiet)
    (shallow : depth < maxRuleDepth) (body d : Content) :
    let prelude := Content.leaf l p
    ofContent depth (.pass 0) pos (prelude.append ((braces body).append d))
      = .rule (.style (Text.trim prelude.text))
          (ofContent (depth + 1) (.pass 0) (pos + Text.byteLength prelude.text + 1) body)
          (ofContent depth (.pass 0)
            (pos + Text.byteLength prelude.text + 1 + Text.byteLength body.text + 1) d) := by
  intro prelude
  apply ofContent_braces
  let row := prelude.append ((braces body).append d)
  have whole : Quiet prelude := ⟨fun h => absurd leads.inert (by rw [h]; decide), quiet⟩
  obtain ⟨up, drop⟩ := upTo_endsPrelude whole ((braces body).append d)
  have style : findStyle.styleRule depth row (row.upTo endsPrelude)
      = (.nothing, .enter (.style (Text.trim prelude.text)) prelude.length) := by
    have prelude_eq : row.upTo endsPrelude = prelude := up.trans (append_nil _)
    have curly : (row.dropTo endsPrelude).startsCurly = true := by rw [drop]; rfl
    rw [findStyle.styleRule, if_pos curly, prelude_eq, enterBlock, if_pos shallow]
  have found : findStyle depth row
      = (.nothing, .enter (.style (Text.trim prelude.text)) prelude.length) := by
    unfold findStyle
    dsimp only
    split
    · next a ha =>
      rw [if_neg (by rw [(assignment_of_leads leads quiet ha).1]; exact Bool.false_ne_true), style]
    · exact style
  have named : findNamed depth pos row
      = (.nothing, .enter (.style (Text.trim prelude.text)) prelude.length) := by
    unfold findNamed
    split
    · next a ha => rw [if_pos (assignment_of_leads leads quiet ha).2, found]
    · exact found
  have inert := leads.inert
  show find depth pos (.leaf l (p.append ((braces body).append d))) = _
  unfold find
  dsimp only
  split
  · next token => exact absurd token leads.word
  · next token => rw [token] at inert; cases inert
  · next token => rw [token] at inert; cases inert
  · next token => rw [token] at inert; cases inert
  · next token => rw [token] at inert; cases inert
  · exact named
  · exact found

/-- An at-rule with a block. -/
theorem ofContent_atRule {p : Content} (quiet : p.Quiet) (shallow : depth < maxRuleDepth)
    (name text : Text) (body d : Content) :
    let head := Content.leaf ⟨.atKeyword name, text⟩ p
    ofContent depth (.pass 0) pos (head.append ((braces body).append d))
      = .rule (.atRule (Text.lower name) (Text.trim p.text))
          (ofContent (depth + 1) (.pass 0) (pos + Text.byteLength head.text + 1) body)
          (ofContent depth (.pass 0)
            (pos + Text.byteLength head.text + 1 + Text.byteLength body.text + 1) d) := by
  intro head
  apply ofContent_braces
  show findAtRule depth name (p.append ((braces body).append d)) = _
  obtain ⟨up, drop⟩ := upTo_endsPrelude quiet ((braces body).append d)
  have prelude : (p.append ((braces body).append d)).upTo endsPrelude = p := up.trans (append_nil _)
  have curly : ((p.append ((braces body).append d)).dropTo endsPrelude).startsCurly = true := by
    rw [drop]; rfl
  unfold findAtRule
  dsimp only
  rw [if_pos curly, prelude, enterBlock, if_pos shallow]
  rfl

/-- An at-rule without a block. -/
theorem ofContent_statement {p : Content} (quiet : p.Quiet) (name text : Text) (d : Content) :
    let row := Content.leaf ⟨.atKeyword name, text⟩ (p.append semicolon)
    ofContent depth (.pass 0) pos (row.append d)
      = .rule (.atRule (Text.lower name) (Text.trim p.text)) .nil
          (ofContent depth (.pass 0) (pos + Text.byteLength row.text) d) := by
  intro row
  refine ofContent_item (.statement _) (by simp) ?_
  show findAtRule depth name ((p.append semicolon).append d) = _
  obtain ⟨up, drop⟩ := upTo_endsPrelude quiet (semicolon.append d)
  rw [append_assoc]
  have prelude : (p.append (semicolon.append d)).upTo endsPrelude = p := up.trans (append_nil _)
  have curly : ((p.append (semicolon.append d)).dropTo endsPrelude).startsCurly = false := by
    rw [drop]; rfl
  have length : row.length = p.length + 2 := by
    show (p.append semicolon).length + 1 = _
    rw [length_append]
    rfl
  unfold findAtRule
  dsimp only
  rw [if_neg (by rw [curly]; exact Bool.false_ne_true), prelude, length]

/-- `append i j` = the items `i` with the items `j` behind them. -/
def append : Items → Items → Items
  | nil, j => j
  | declaration d rest, j => .declaration d (append rest j)
  | rule h inner rest, j => .rule h inner (append rest j)

@[simp] theorem append_nil (i : Items) : append i nil = i := by
  induction i with
  | nil => rfl
  | declaration d rest ih => rw [append, ih]
  | rule h inner rest _ ih => rw [append, ih]

theorem declarations_append (i j : Items) :
    (append i j).declarations = i.declarations ++ j.declarations := by
  induction i with
  | nil => rfl
  | declaration d rest ih => rw [append, declarations, declarations, ih, List.cons_append]
  | rule h inner rest _ ih => exact ih

theorem rules_append (i j : Items) : (append i j).rules = i.rules ++ j.rules := by
  induction i with
  | nil => rfl
  | declaration d rest ih => exact ih
  | rule h inner rest _ ih => rw [append, rules, rules, ih, List.cons_append]

end Items

/-! ## Trees -/

namespace Draft

open Content Items

/-- Whether a row is that of a draft: it has its text, and its items are read from it wherever the row
    stands and whatever follows it. -/
structure IsRow (T : Draft) (c : Content) : Prop where
  text : c.text = T.print
  read : ∀ depth pos d, depth + T.nesting ≤ maxRuleDepth →
    ofContent depth (.pass 0) pos (c.append d)
      = (T.items pos).append (ofContent depth (.pass 0) (pos + Text.byteLength T.print) d)

variable {inner rest : Draft} {body more : Content}

/-- A block is read by itself. -/
theorem IsRow.read_all {T : Draft} {c : Content} (row : IsRow T c) {depth : Nat}
    (shallow : depth + T.nesting ≤ maxRuleDepth) (pos : Nat) :
    ofContent depth (.pass 0) pos c = T.items pos := by
  have read := row.read depth pos .nil shallow
  rw [Content.append_nil] at read
  rw [read]
  exact Items.append_nil _

/-- The marks of a draft take up one byte each. -/
theorem width_mark : ':'.utf8Size = 1 ∧ ';'.utf8Size = 1 ∧ '\x7b'.utf8Size = 1 ∧ '\x7d'.utf8Size = 1
    ∧ '@'.utf8Size = 1 ∧ ' '.utf8Size = 1 := by decide

theorem isRow_declaration (n : Property) (v : Value) (important : Bool) {value : Content}
    (quiet : value.Quiet) (text : value.text = v.1 ++ importantMark important) (row : IsRow rest more) :
    IsRow (declaration n v important rest)
      ((Content.leaf ⟨.ident n.1, n.1⟩ (.leaf ⟨.colon, [':']⟩ (value.append semicolon))).append more) := by
  constructor
  · simp [text_append, text, row.text, print, semicolon]
  · intro depth pos d shallow
    let start := pos + Text.byteLength n.1 + 1
    let stop := start + Text.byteLength v.1 + Text.byteLength (importantMark important) + 1
    rw [append_assoc, ofContent_declaration quiet, text, ofParts_value, row.read depth _ d shallow]
    have here : pos + Text.byteLength (Content.leaf ⟨.ident n.1, n.1⟩
        (.leaf ⟨.colon, [':']⟩ (value.append semicolon))).text = stop := by
      simp [text_append, text, semicolon, start, stop, width_mark]; omega
    have behind : stop + Text.byteLength rest.print
        = pos + Text.byteLength (print (declaration n v important rest)) := by
      simp [print, start, stop, width_mark]; omega
    rw [here, behind]
    rfl

theorem isRow_style (p : Prelude) {l : Lexeme} {prelude : Content} (leads : Leads l)
    (quiet : prelude.Quiet) (text : (Content.leaf l prelude).text = p.1) (block : IsRow inner body)
    (row : IsRow rest more) :
    IsRow (style p inner rest) ((Content.leaf l prelude).append ((braces body).append more)) := by
  obtain ⟨plain, trimmed, -⟩ := plain_of_isPrelude p.2
  constructor
  · rw [text_append, text]
    simp [block.text, row.text, print, braces, Content.closing, Opener.shape, Bracket.closer]
  · intro depth pos d shallow
    rw [nesting] at shallow
    let start := pos + Text.byteLength p.1 + 1
    let stop := start + Text.byteLength inner.print + 1
    rw [append_assoc, append_assoc, ofContent_style leads quiet (by omega), text,
      (trim_of_isTrimmed trimmed fun c hc => (plain c hc).1).1, block.text,
      block.read_all (by omega), row.read depth _ d (by omega)]
    have behind : stop + Text.byteLength rest.print
        = pos + Text.byteLength (print (style p inner rest)) := by
      simp [print, start, stop, width_mark]; omega
    rw [← behind]
    rfl

theorem isRow_atRule (n : Name) (p : Prelude) {prelude : Content} (quiet : prelude.Quiet)
    (text : prelude.text = ' ' :: p.1) (block : IsRow inner body) (row : IsRow rest more) :
    IsRow (atRule n p inner rest)
      ((Content.leaf ⟨.atKeyword n.1, '@' :: n.1⟩ prelude).append ((braces body).append more)) := by
  obtain ⟨plain, trimmed, -⟩ := plain_of_isPrelude p.2
  constructor
  · simp [text_append, text, block.text, row.text, print, braces, Content.closing, Opener.shape,
      Bracket.closer]
  · intro depth pos d shallow
    rw [nesting] at shallow
    let start := pos + Text.byteLength n.1 + Text.byteLength p.1 + 3
    let stop := start + Text.byteLength inner.print + 1
    have head : pos + Text.byteLength (Content.leaf ⟨.atKeyword n.1, '@' :: n.1⟩ prelude).text + 1
        = start := by
      simp [text, start, width_mark]; omega
    rw [append_assoc, append_assoc, ofContent_atRule quiet (by omega), head, text,
      (trim_of_isTrimmed trimmed fun c hc => (plain c hc).1).2, block.text,
      block.read_all (by omega), row.read depth _ d (by omega)]
    have behind : stop + Text.byteLength rest.print
        = pos + Text.byteLength (print (atRule n p inner rest)) := by
      simp [print, start, stop, width_mark]; omega
    rw [← behind]
    rfl

theorem isRow_statement (n : Name) (p : Prelude) {prelude : Content} (quiet : prelude.Quiet)
    (text : prelude.text = ' ' :: p.1) (row : IsRow rest more) :
    IsRow (statement n p rest)
      ((Content.leaf ⟨.atKeyword n.1, '@' :: n.1⟩ (prelude.append semicolon)).append more) := by
  obtain ⟨plain, trimmed, -⟩ := plain_of_isPrelude p.2
  constructor
  · simp [text_append, text, row.text, print, semicolon]
  · intro depth pos d shallow
    let stop := pos + Text.byteLength n.1 + Text.byteLength p.1 + 3
    have here : pos + Text.byteLength
        (Content.leaf ⟨.atKeyword n.1, '@' :: n.1⟩ (prelude.append semicolon)).text = stop := by
      simp [text_append, text, semicolon, stop, width_mark]; omega
    rw [append_assoc, ofContent_statement quiet, here, text,
      (trim_of_isTrimmed trimmed fun c hc => (plain c hc).1).2, row.read depth _ d shallow]
    have behind : stop + Text.byteLength rest.print
        = pos + Text.byteLength (print (statement n p rest)) := by
      simp [print, stop, width_mark]; omega
    rw [← behind]
    rfl

/-- **A printed draft is a row of its own**, under any open brackets that its parentheses cannot close,
    whatever text follows. -/
theorem levels_print (T : Draft) (stack : List Bracket) (hs : stack.head? ≠ some .round) (t : Text) :
    ∃ c, IsRow T c ∧ levels stack (lexemes 0 (T.print ++ t)) = prepend c (levels stack (lexemes 0 t)) := by
  induction T generalizing stack t with
  | nil => exact ⟨.nil, ⟨rfl, fun _ _ _ _ => rfl⟩, rfl⟩
  | declaration n v important rest ih =>
    obtain ⟨more, row, restEq⟩ := ih stack hs t
    obtain ⟨plain, balanced⟩ := plain_of_marked v important
    obtain ⟨value, quiet, text, valueEq⟩ := levels_quiet (@stop_cons ';' rfl (rest.print ++ t)) hs
      (fun c hc => isPlain_of_isChar (plain c hc)) balanced
    refine ⟨_, isRow_declaration n v important quiet text row, ?_⟩
    have cut : (declaration n v important rest).print ++ t
        = n.1 ++ ':' :: ((v.1 ++ importantMark important) ++ ';' :: (rest.print ++ t)) := by
      simp [print]
    rw [cut, lexemes_property, lexemes_mark (r := .colon) rfl,
      levels_leaf (l := ⟨.ident n.1, n.1⟩) (by simp) (by simp), levels_leaf (l := ⟨.colon, [':']⟩) (by simp) (by simp),
      valueEq, levels_semicolon, restEq]
    simp only [prepend_append, prepend, semicolon]
  | style p inner rest ihInner ih =>
    obtain ⟨more, row, restEq⟩ := ih stack hs t
    obtain ⟨body, block, bodyEq⟩ :=
      ihInner (.curly :: stack) (by simp) ('\x7d' :: (rest.print ++ t))
    obtain ⟨l, prelude, leads, quiet, text, preludeEq⟩ :=
      levels_prelude hs p (inner.print ++ '\x7d' :: (rest.print ++ t))
    refine ⟨_, isRow_style p leads quiet text block row, ?_⟩
    have cut : (style p inner rest).print ++ t
        = p.1 ++ '\x7b' :: (inner.print ++ '\x7d' :: (rest.print ++ t)) := by
      simp [print]
    rw [cut, preludeEq, levels_braces bodyEq, restEq]
    simp only [prepend_append, braces]
  | atRule n p inner rest ihInner ih =>
    obtain ⟨more, row, restEq⟩ := ih stack hs t
    obtain ⟨body, block, bodyEq⟩ :=
      ihInner (.curly :: stack) (by simp) ('\x7d' :: (rest.print ++ t))
    obtain ⟨plain, balanced⟩ := plain_of_spaced p
    obtain ⟨prelude, quiet, text, preludeEq⟩ :=
      levels_quiet (@stop_cons '\x7b' rfl (inner.print ++ '\x7d' :: (rest.print ++ t))) hs
        (fun c hc => isPlain_of_isChar (plain c hc)) balanced
    refine ⟨_, isRow_atRule n p quiet text block row, ?_⟩
    have cut : (atRule n p inner rest).print ++ t
        = '@' :: (n.1 ++ ' ' :: (p.1 ++ '\x7b' :: (inner.print ++ '\x7d' :: (rest.print ++ t)))) := by
      simp [print]
    rw [cut, lexemes_atKeyword, levels_leaf (l := ⟨.atKeyword n.1, '@' :: n.1⟩) (by simp) (by simp),
      ← List.cons_append, preludeEq, levels_braces bodyEq, restEq]
    simp only [prepend_append, prepend, braces]
  | statement n p rest ih =>
    obtain ⟨more, row, restEq⟩ := ih stack hs t
    obtain ⟨plain, balanced⟩ := plain_of_spaced p
    obtain ⟨prelude, quiet, text, preludeEq⟩ := levels_quiet (@stop_cons ';' rfl (rest.print ++ t)) hs
      (fun c hc => isPlain_of_isChar (plain c hc)) balanced
    refine ⟨_, isRow_statement n p quiet text row, ?_⟩
    have cut : (statement n p rest).print ++ t
        = '@' :: (n.1 ++ ' ' :: (p.1 ++ ';' :: (rest.print ++ t))) := by
      simp [print]
    rw [cut, lexemes_atKeyword, levels_leaf (l := ⟨.atKeyword n.1, '@' :: n.1⟩) (by simp) (by simp),
      ← List.cons_append, preludeEq, levels_semicolon, restEq]
    simp only [prepend_append, prepend, semicolon]

end Draft

/-! ## Moving -/

/-- `shift n d` = the declaration `d` found `n` bytes further behind. -/
def Declaration.shift (n : Nat) (d : Declaration) : Declaration :=
  { d with start := d.start + n, stop := d.stop + n }

/-- `shift n s` = the sheet `s` with all spans moved by `n` bytes. -/
def Stylesheet.shift (n : Nat) : Stylesheet → Stylesheet := map (Declaration.shift n)

namespace Items

/-- `shiftFound n r` = what is found at the start of a row, if it is found `n` bytes further behind. -/
def shiftFound (n : Nat) : Found × Pending → Found × Pending
  | (.declaration d, pending) => (.declaration (d.shift n), pending)
  | r => r

theorem ofParts_shift (name : Text) (pos n : Nat) (raw : Text) :
    Declaration.ofParts name (pos + n) raw = (Declaration.ofParts name pos raw).shift n := by
  simp only [Declaration.ofParts, Declaration.shift]
  rw [Nat.add_right_comm pos n, Nat.add_right_comm _ n]

/-- Further behind, the same starts a row. -/
theorem turn_shift (p : Pending) (depth pos n : Nat) (c : Content) :
    turn p depth (pos + n) c = shiftFound n (turn p depth pos c) := by
  have style (c : Content) : findStyle depth c = shiftFound n (findStyle depth c) := by
    have rule (prelude : Content) :
        findStyle.styleRule depth c prelude = shiftFound n (findStyle.styleRule depth c prelude) := by
      unfold findStyle.styleRule
      split <;> rfl
    unfold findStyle
    dsimp only
    split
    · split
      · rfl
      · exact rule _
    · exact rule _
  have found (c : Content) : find depth (pos + n) c = shiftFound n (find depth pos c) := by
    unfold find
    split
    · split
      · rfl
      · rfl
      · rfl
      · rfl
      · unfold findAtRule
        dsimp only
        split <;> rfl
      · unfold findNamed
        split
        · split
          · exact style _
          · rw [Nat.add_right_comm, ofParts_shift]
            rfl
        · exact style _
      · exact style _
    · exact style _
  unfold turn
  split
  · exact found c
  · rfl

theorem put_shift (n : Nat) (r : Found × Pending) (i : Items) :
    (shiftFound n r).1.put (i.map (Declaration.shift n)) = (r.1.put i).map (Declaration.shift n)
      ∧ (shiftFound n r).2 = r.2 := by
  obtain ⟨found, pending⟩ := r
  cases found <;> exact ⟨rfl, rfl⟩

/-- **Further behind the same items are read**, with their spans moved. -/
theorem ofContent_shift (depth : Nat) (p : Pending) (pos n : Nat) (c : Content) :
    ofContent depth p (pos + n) c = (ofContent depth p pos c).map (Declaration.shift n) := by
  induction c generalizing depth p pos with
  | nil => rfl
  | leaf l rest ih =>
    obtain ⟨put, pending⟩ := put_shift n (turn p depth pos (.leaf l rest))
      (ofContent depth (turn p depth pos (.leaf l rest)).2.advance (pos + Text.byteLength l.text) rest)
    simp only [ofContent, turn_shift, pending, Nat.add_right_comm pos n, ih, put]
  | block o t body closed rest ihBody ih =>
    simp only [ofContent, turn_shift, Nat.add_right_comm _ n, ih, ihBody]
    generalize turn p depth pos (.block o t body closed rest) = r
    obtain ⟨found, pending⟩ := r
    cases found <;> cases pending with
    | pass m => rfl
    | enter h m => cases m <;> rfl

end Items

namespace Stylesheet

/-- **Parsing undoes printing**, whatever follows: the declarations and the rules of a draft come first, and then those
    of the text behind it, moved by the length of what was printed. -/
theorem ofText_print (T : Draft) (css : Text) (shallow : T.nesting ≤ 128) :
    let behind := (ofText css).shift (Text.byteLength T.print)
    (ofText (T.print ++ css)).declarations = T.declarations 0 ++ behind.declarations
      ∧ (ofText (T.print ++ css)).rules = T.rules 0 ++ behind.rules := by
  obtain ⟨c, row, levels⟩ := Draft.levels_print T [] (by simp) css
  have tree : Content.ofText (T.print ++ css) = c.append (Content.ofText css) := by
    rw [Content.ofText, Content.ofLexemes, levels, Content.content_prepend]
    rfl
  have items : Items.ofContent 0 (.pass 0) 0 (Content.ofText (T.print ++ css))
      = (T.items 0).append ((Items.ofContent 0 (.pass 0) 0 (Content.ofText css)).map
          (Declaration.shift (Text.byteLength T.print))) := by
    rw [tree, row.read 0 0 _ (by rw [maxRuleDepth]; omega), Items.ofContent_shift]
  constructor
  · rw [ofText, items, Items.declarations_append, Items.declarations_map, T.declarations_items]
    rfl
  · rw [ofText, items, Items.rules_append, Items.rules_map, T.rules_items]
    rfl

/-- A selector that looks like a declaration, at-rules with and without a block, and names with capital letters, in
    `--Q:r;a:b{Color:#fff !important;}@Media print{@X y;}P:1;`, in front of `p{q:r`, where a block is left open. -/
theorem ofText_print_selector :
    let color : Draft.Property := ⟨['C', 'o', 'l', 'o', 'r'], rfl⟩
    let T : Draft := .declaration ⟨['-', '-', 'Q'], rfl⟩ ⟨['r'], rfl⟩ false <|
      .style ⟨['a', ':', 'b'], rfl⟩ (.declaration color ⟨['#', 'f', 'f', 'f'], rfl⟩ true .nil) <|
      .atRule ⟨['M', 'e', 'd', 'i', 'a'], rfl⟩ ⟨['p', 'r', 'i', 'n', 't'], rfl⟩
        (.statement ⟨['X'], rfl⟩ ⟨['y'], rfl⟩ .nil) <|
      .declaration ⟨['P'], rfl⟩ ⟨['1'], rfl⟩ false .nil
    let css : Text := ['p', '\x7b', 'q', ':', 'r']
    T.nesting ≤ 128
      ∧ T.print = "--Q:r;a:b\x7bColor:#fff !important;\x7d@Media print\x7b@X y;\x7dP:1;".toList
      ∧ (ofText (T.print ++ css)).declarations
        = [⟨['-', '-', 'Q'], ['r'], false, 4, 5⟩, ⟨['p'], ['1'], false, 54, 55⟩]
      ∧ (ofText (T.print ++ css)).rules
        = [.mk (.style ['a', ':', 'b']) [⟨['c', 'o', 'l', 'o', 'r'], ['#', 'f', 'f', 'f'], true, 16, 20⟩] [],
          .mk (.atRule ['m', 'e', 'd', 'i', 'a'] ['p', 'r', 'i', 'n', 't']) [] [.mk (.atRule ['x'] ['y']) [] []],
          .mk (.style ['p']) [⟨['q'], ['r'], false, 60, 61⟩] []] := by
  intro color T css
  have shallow : T.nesting ≤ 128 := by decide
  obtain ⟨declarations, rules⟩ := ofText_print T css shallow
  exact ⟨shallow, by decide, declarations.trans (by decide +kernel), rules.trans (by decide +kernel)⟩

end Stylesheet

end Translucent
