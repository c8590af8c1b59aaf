import Translucent.Stylesheet.Items

/-!
  # Reading a row, item by item

  `Items.ofContent` goes from component to component and keeps in mind what is pending.  Here are its
  steps from item to item:

  1. **Components** — `Content.take` and `Content.drop` cut a row behind a number of components; where
     `upTo` and `dropTo` cut it is such a place (`drop_length_upTo`).
  2. **Pending** — `ofContent_pass` and `ofContent_enter`: what is passed over, and the block of a rule
     behind it.
  3. **Items** — `ofContent_induction`: a row starts with something to be passed over, a declaration, a rule
     without a block, or a rule with one.
-/

namespace Translucent

namespace Content

/-! ## Components -/

/-- `take n c` = the first `n` components of the row `c`. -/
def take : Nat → Content → Content
  | 0, _ => nil
  | _ + 1, nil => nil
  | n + 1, leaf l rest => leaf l (take n rest)
  | n + 1, block o t body closed rest => block o t body closed (take n rest)

/-- `drop n c` = the row `c` behind its first `n` components. -/
def drop : Nat → Content → Content
  | 0, c => c
  | _ + 1, nil => nil
  | n + 1, leaf _ rest => drop n rest
  | n + 1, block _ _ _ _ rest => drop n rest

@[simp] theorem take_zero (c : Content) : c.take 0 = nil := by cases c <;> rfl

@[simp] theorem drop_zero (c : Content) : c.drop 0 = c := by cases c <;> rfl

@[simp] theorem take_nil (n : Nat) : take n nil = nil := by cases n <;> rfl

@[simp] theorem drop_nil (n : Nat) : drop n nil = nil := by cases n <;> rfl

/-- Cutting a row loses nothing. -/
theorem text_take_append_text_drop (n : Nat) (c : Content) :
    (c.take n).text ++ (c.drop n).text = c.text := by
  induction c generalizing n with
  | nil => simp
  | leaf l rest ih =>
    cases n with
    | zero => simp
    | succ n => simp [take, drop, ih n]
  | block o t body closed rest _ ih =>
    cases n with
    | zero => simp
    | succ n => simp [take, drop, ih n]

/-- Taking components in two parts. -/
theorem text_take_add (m n : Nat) (c : Content) :
    (c.take (m + n)).text = (c.take m).text ++ ((c.drop m).take n).text := by
  induction c generalizing m with
  | nil => simp
  | leaf l rest ih =>
    cases m with
    | zero => simp
    | succ m => rw [Nat.succ_add, take, take, drop, text_leaf, text_leaf, ih, List.append_assoc]
  | block o t body closed rest _ ih =>
    cases m with
    | zero => simp
    | succ m =>
      rw [Nat.succ_add, take, take, drop, text_block, text_block, ih]
      simp only [List.append_assoc]

/-- Where a condition holds first, the row is cut behind the components before that place. -/
theorem take_length_upTo (stop : Content → Bool) (c : Content) :
    c.take (c.upTo stop).length = c.upTo stop := by
  induction c with
  | nil => simp [upTo]
  | leaf l rest ih =>
    rw [upTo]
    split
    · simp [length]
    · rw [length, take, ih]
  | block o t body closed rest _ ih =>
    rw [upTo]
    split
    · simp [length]
    · rw [length, take, ih]

theorem drop_length_upTo (stop : Content → Bool) (c : Content) :
    c.drop (c.upTo stop).length = c.dropTo stop := by
  induction c with
  | nil => simp [dropTo]
  | leaf l rest ih =>
    rw [upTo, dropTo]
    split
    · simp [length]
    · rw [length, drop, ih]
  | block o t body closed rest _ ih =>
    rw [upTo, dropTo]
    split
    · simp [length]
    · rw [length, drop, ih]

/-- `size c` = how many components there are in `c`, at any depth. -/
def size : Content → Nat
  | nil => 0
  | leaf _ rest => size rest + 1
  | block _ _ body _ rest => size body + size rest + 1

theorem size_drop_le (n : Nat) (c : Content) : (c.drop n).size ≤ c.size := by
  induction c generalizing n with
  | nil => simp
  | leaf l rest ih =>
    cases n with
    | zero => simp
    | succ n => exact Nat.le_succ_of_le (ih n)
  | block o t body closed rest _ ih =>
    cases n with
    | zero => simp
    | succ n =>
      have := ih n
      rw [drop, size]
      omega

/-- A row gets smaller by dropping components. -/
theorem size_drop_lt (n : Nat) {c : Content} (h : c ≠ nil) : (c.drop (n + 1)).size < c.size := by
  cases c with
  | nil => exact absurd rfl h
  | leaf l rest => exact Nat.lt_succ_of_le (size_drop_le n rest)
  | block o t body closed rest =>
    have := size_drop_le n rest
    rw [drop, size]
    omega

/-- Whether `p` holds of all lexemes in `c`, those that start blocks among them. -/
def All (p : Lexeme → Prop) : Content → Prop
  | nil => True
  | leaf l rest => p l ∧ All p rest
  | block o t body _ rest => p ⟨.opening o, t⟩ ∧ All p body ∧ All p rest

theorem All.drop {p : Lexeme → Prop} {c : Content} (h : c.All p) (n : Nat) : (c.drop n).All p := by
  induction c generalizing n with
  | nil => cases n <;> exact h
  | leaf l rest ih =>
    cases n with
    | zero => exact h
    | succ n => exact ih h.2 n
  | block o t body closed rest _ ih =>
    cases n with
    | zero => exact h
    | succ n => exact ih h.2.2 n

/-- What holds of lexemes holds of all that is built from them. -/
theorem all_levels {p : Lexeme → Prop} (stack : List Bracket) (ls : List Lexeme)
    (h : ∀ l ∈ ls, p l) : ∀ level ∈ levels stack ls, level.content.All p := by
  induction ls generalizing stack with
  | nil => intro level hl; exact absurd hl List.not_mem_nil
  | cons l ls ih =>
    have ih stack := ih stack fun m hm => h m (List.mem_cons_of_mem _ hm)
    have first (found : List Level) (h : ∀ level ∈ found, level.content.All p) :
        (found.headD .ended).content.All p ∧ ∀ level ∈ found.tail, level.content.All p := by
      cases found with
      | nil => exact ⟨trivial, h⟩
      | cons level found =>
        exact ⟨h _ List.mem_cons_self, fun m hm => h m (List.mem_cons_of_mem _ hm)⟩
    have hp := h l List.mem_cons_self
    intro level hl
    rcases opens_or_closes_or_neither stack l with ⟨o, ho⟩ | ⟨b, hb, fits⟩ | ⟨ho, hc⟩
    · rw [levels_opening ho] at hl
      obtain ⟨body, outer⟩ := first _ (ih (o.shape :: stack))
      obtain ⟨rest, outer⟩ := first _ outer
      rcases List.mem_cons.mp hl with rfl | hl
      · exact ⟨ho ▸ hp, body, rest⟩
      · exact outer level hl
    · rw [levels_closing hb fits] at hl
      rcases List.mem_cons.mp hl with rfl | hl
      · trivial
      · exact ih stack.tail level hl
    · rw [levels_neither ho hc, levels.put] at hl
      obtain ⟨rest, outer⟩ := first _ (ih stack)
      rcases List.mem_cons.mp hl with rfl | hl
      · exact ⟨hp, rest⟩
      · exact outer level hl

theorem all_ofText {p : Lexeme → Prop} (t : Text) (h : ∀ l ∈ lexemes 0 t, p l) : (ofText t).All p := by
  rw [ofText, ofLexemes]
  have levels := all_levels [] (lexemes 0 t) h
  cases found : Content.levels [] (lexemes 0 t) with
  | nil => trivial
  | cons level found' => exact levels level (found ▸ List.mem_cons_self)

/-- No lexeme of a text is empty. -/
theorem text_ne_nil {s : Text} {k : Nat} : ∀ l ∈ lexemes k s, l.text ≠ [] := by
  induction s generalizing k with
  | nil => intro l hl; cases k <;> exact absurd hl List.not_mem_nil
  | cons c s ih =>
    cases k with
    | succ k => exact ih
    | zero =>
      intro l hl
      rw [lexemes] at hl
      rcases List.mem_cons.mp hl with rfl | hl
      · exact List.cons_ne_nil _ _
      · exact ih l hl

end Content

/-! ## Pending -/

namespace Items

open Content

/-- Components that are passed over. -/
theorem ofContent_pass (depth n pos : Nat) (c : Content) :
    ofContent depth (.pass n) pos c = ofContent depth (.pass 0) (pos + (c.take n).width) (c.drop n) := by
  induction c generalizing n pos with
  | nil => simp [ofContent]
  | leaf l rest ih =>
    cases n with
    | zero => simp [width]
    | succ n =>
      rw [take, drop, width, ← Nat.add_assoc, ← ih]
      rfl
  | block o t body closed rest _ ih =>
    cases n with
    | zero => simp [width]
    | succ n =>
      rw [take, drop, width, ← Nat.add_assoc, ← Nat.add_assoc, ← Nat.add_assoc, ← ih]
      rfl

/-- The block of a rule, behind components that are passed over. -/
theorem ofContent_enter (depth n pos : Nat) {c : Content} (h : Heading) {o : Opener} {t : Text}
    {body : Content} {closed : Bool} {rest : Content} (ahead : c.drop n = block o t body closed rest) :
    ofContent depth (.enter h n) pos c =
      let inner := pos + (c.take n).width + Text.byteLength t
      rule h (ofContent (depth + 1) (.pass 0) inner body)
        (ofContent depth (.pass 0) (inner + body.width + closingWidth closed) rest) := by
  induction c generalizing n pos with
  | nil => simp at ahead
  | leaf l rest' ih =>
    cases n with
    | zero => simp at ahead
    | succ n =>
      rw [take, width, ← Nat.add_assoc]
      exact ih n _ ahead
  | block o' t' body' closed' rest' _ ih =>
    cases n with
    | zero =>
      injection ahead with ho ht hb hc hr
      subst ho ht hb hc hr
      rfl
    | succ n =>
      rw [take, width, ← Nat.add_assoc, ← Nat.add_assoc, ← Nat.add_assoc]
      exact ih n _ ahead

end Items

/-! ## Assignments -/

open Content

/-- The components of an assignment at the start of the row `c`. -/
structure Assignment.Parts (c : Content) (a : Assignment) where
  /-- How the name is spelled. -/
  text : Text
  /-- What follows the name. -/
  rest : Content
  /-- How the colon is spelled. -/
  colon : Text
  /-- What follows the colon. -/
  behind : Content
  row : c = .leaf ⟨.ident a.name, text⟩ rest
  next : rest.dropTo startsWord = .leaf ⟨.colon, colon⟩ behind
  lead : a.lead = Text.byteLength text + (rest.upTo startsWord).width + Text.byteLength colon
  value : a.value = behind.upTo startsSemicolon
  count : a.count = (rest.upTo startsWord).length + a.value.length + 2 + 1

theorem Assignment.exists_parts {c : Content} {a : Assignment} (h : ofContent? c = some a) :
    Nonempty (Parts c a) := by
  unfold ofContent? at h
  split at h
  · next name text rest =>
    dsimp only at h
    split at h
    · next colon behind next =>
      obtain rfl := Option.some.inj h
      exact ⟨⟨text, rest, colon, behind, rfl, next, rfl, rfl, rfl⟩⟩
    · cases h
  · cases h

/-- The text of an assignment is a lead, the value, and a semicolon if there is one. -/
theorem Assignment.Parts.text_eq {c : Content} {a : Assignment} (h : Parts c a)
    (spelled : c.All fun l => l.text ≠ []) :
    ∃ lead after, lead ≠ [] ∧ Text.byteLength lead = a.lead
      ∧ (c.take a.count).text = lead ++ (a.value.text ++ after) := by
  obtain ⟨text, rest, colon, behind, rfl, next, lead, value, count⟩ := h
  refine ⟨text ++ (rest.upTo startsWord).text ++ colon,
    ((behind.dropTo startsSemicolon).take 1).text, ?_, ?_, ?_⟩
  · intro h
    exact spelled.1 (List.append_eq_nil_iff.mp (List.append_eq_nil_iff.mp h).1).1
  · rw [lead, width_eq]
    simp only [Text.byteLength_append]
  · have count : a.count = (rest.upTo startsWord).length + ((a.value.length + 1) + 1) + 1 := by omega
    rw [count, take, text_leaf, text_take_add, take_length_upTo, drop_length_upTo, next, take,
      text_leaf, text_take_add, value, take_length_upTo, drop_length_upTo]
    simp only [List.append_assoc]

namespace Items

/-! ## Items -/

/-- What is found without a block to enter comes first, and the components of it are passed over. -/
theorem ofContent_found {depth pos n : Nat} {c : Content} {found : Found} (hc : c ≠ .nil)
    (h : find depth pos c = (found, .pass (n + 1))) :
    ofContent depth (.pass 0) pos c
      = found.put (ofContent depth (.pass 0) (pos + (c.take (n + 1)).width) (c.drop (n + 1))) := by
  rw [← ofContent_pass]
  cases c with
  | nil => exact absurd rfl hc
  | leaf l rest => simp only [ofContent, turn, h]; rfl
  | block o t body closed rest => simp only [ofContent, turn, h]; rfl

/-- Where a block is to be entered, it is. -/
theorem ofContent_entered {depth pos n : Nat} {c : Content} {hd : Heading} {o : Opener} {t : Text}
    {body : Content} {closed : Bool} {rest : Content} (ahead : c.drop n = block o t body closed rest)
    (h : find depth pos c = (.nothing, .enter hd n)) :
    ofContent depth (.pass 0) pos c =
      let inner := pos + (c.take n).width + Text.byteLength t
      rule hd (ofContent (depth + 1) (.pass 0) inner body)
        (ofContent depth (.pass 0) (inner + body.width + closingWidth closed) rest) := by
  rw [← ofContent_enter depth n pos hd ahead]
  cases c with
  | nil => simp at ahead
  | leaf l rest => simp only [ofContent, turn, h]
  | block o t body closed rest => cases n <;> simp only [ofContent, turn, h]

/-- What may start a row. -/
inductive Starts (depth pos : Nat) (c : Content) : Found × Pending → Prop
  /-- Something that is no item. -/
  | nothing (n : Nat) : Starts depth pos c (.nothing, .pass (n + 1))
  /-- A declaration. -/
  | declaration {a : Assignment} (ha : Assignment.ofContent? c = some a) :
      Starts depth pos c
        (.declaration (.ofParts a.name (pos + a.lead) a.value.text), .pass a.count)
  /-- An at-rule without a block. -/
  | statement (name prelude : Text) (n : Nat) :
      Starts depth pos c (.statement (.atRule name prelude), .pass (n + 1))
  /-- A rule with a block in curly brackets that is not too deep. -/
  | rule (h : Heading) (n : Nat) {t : Text} {body : Content} {closed : Bool} {rest : Content}
      (shallow : depth < maxRuleDepth) (ahead : c.drop n = block (.bracket .curly) t body closed rest) :
      Starts depth pos c (.nothing, .enter h n)

/-- A block in curly brackets that comes next. -/
theorem block_of_startsCurly {c : Content} (h : c.startsCurly = true) :
    ∃ t body closed rest, c = block (.bracket .curly) t body closed rest := by
  cases c with
  | block o t body closed rest =>
    obtain rfl : o = .bracket .curly := eq_of_beq h
    exact ⟨t, body, closed, rest, rfl⟩
  | _ => cases h

theorem starts_enterBlock (depth pos : Nat) (h : Heading) {n : Nat} {c : Content}
    (curly : (c.drop n).startsCurly = true) :
    Starts depth pos c (.nothing, enterBlock depth n h) := by
  obtain ⟨t, body, closed, rest, ahead⟩ := block_of_startsCurly curly
  rw [enterBlock]
  split
  · next shallow => exact .rule h n shallow ahead
  · exact .nothing n

theorem starts_findStyle (depth pos : Nat) (c : Content) :
    Starts depth pos c (findStyle depth c) := by
  have style : Starts depth pos c (findStyle.styleRule depth c (c.upTo endsPrelude)) := by
    rw [findStyle.styleRule]
    split
    · next curly =>
      rw [← drop_length_upTo] at curly
      exact starts_enterBlock depth pos _ curly
    · exact .nothing _
  unfold findStyle
  dsimp only
  split
  · next a ha =>
    split
    · obtain ⟨parts⟩ := Assignment.exists_parts ha
      rw [parts.count]
      exact .nothing _
    · exact style
  · exact style

theorem starts_findAtRule (depth pos : Nat) (name : Text) (l : Lexeme) (rest : Content) :
    Starts depth pos (.leaf l rest) (findAtRule depth name rest) := by
  unfold findAtRule
  dsimp only
  split
  · next curly =>
    rw [← drop_length_upTo] at curly
    exact starts_enterBlock depth pos _ curly
  · exact .statement _ _ _

/-- **What starts a row** is one of four things. -/
theorem starts_find (depth pos : Nat) (c : Content) : Starts depth pos c (find depth pos c) := by
  unfold find
  split
  · next l rest =>
    split
    · exact .nothing 0
    · exact .nothing 0
    · exact .nothing 0
    · exact .nothing 0
    · exact starts_findAtRule depth pos _ l rest
    · unfold findNamed
      split
      · next a ha =>
        split
        · exact starts_findStyle depth pos _
        · exact .declaration ha
      · exact starts_findStyle depth pos _
    · exact starts_findStyle depth pos _
  · exact starts_findStyle depth pos _

/-! ## Induction from item to item -/

/-- **Induction**: what holds of the items of every row, if it holds of no items and is kept by each of
    the four things that may start a row. -/
theorem ofContent_induction {P : Nat → Nat → Content → Items → Prop}
    (nil : ∀ depth pos, P depth pos .nil .nil)
    (nothing : ∀ depth pos c n items, P depth (pos + (c.take n).width) (c.drop n) items →
      P depth pos c items)
    (declaration : ∀ depth pos c a items, Assignment.ofContent? c = some a →
      P depth (pos + (c.take a.count).width) (c.drop a.count) items →
      P depth pos c (.declaration (.ofParts a.name (pos + a.lead) a.value.text) items))
    (statement : ∀ depth pos c h n items, P depth (pos + (c.take n).width) (c.drop n) items →
      P depth pos c (.rule h .nil items))
    (rule : ∀ depth pos c h n o t body closed rest inner items,
      c.drop n = block o t body closed rest →
      P (depth + 1) (pos + (c.take n).width + Text.byteLength t) body inner →
      P depth (pos + (c.take n).width + Text.byteLength t + body.width + closingWidth closed) rest
        items →
      P depth pos c (.rule h inner items))
    (depth pos : Nat) (c : Content) : P depth pos c (ofContent depth (.pass 0) pos c) := by
  -- by the size of the row, as its components are passed over several at a time
  generalize size : c.size = n
  induction n using Nat.strongRecOn generalizing depth pos c with
  | ind n ih =>
    by_cases hc : c = .nil
    · rw [hc]
      exact nil depth pos
    have shorter (m : Nat) : (c.drop (m + 1)).size < n := size ▸ size_drop_lt m hc
    have starts := starts_find depth pos c
    generalize found : find depth pos c = r at starts
    cases starts with
    | nothing m =>
      rw [ofContent_found hc found]
      exact nothing depth pos c _ _ (ih _ (shorter m) depth _ _ rfl)
    | declaration ha =>
      obtain ⟨parts⟩ := Assignment.exists_parts ha
      rw [parts.count] at found
      rw [ofContent_found hc found]
      refine declaration depth pos c _ _ ha ?_
      rw [parts.count]
      exact ih _ (shorter _) depth _ _ rfl
    | statement name prelude m =>
      rw [ofContent_found hc found]
      exact statement depth pos c _ _ _ (ih _ (shorter m) depth _ _ rfl)
    | rule h m _ ahead =>
      have less := size_drop_le m c
      rw [ahead, Content.size] at less
      rw [ofContent_entered ahead found]
      exact rule depth pos c h m _ _ _ _ _ _ _ ahead (ih _ (by omega) _ _ _ rfl)
        (ih _ (by omega) _ _ _ rfl)

end Items

end Translucent
