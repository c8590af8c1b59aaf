import Translucent.Proofs.Stylesheet.Steps

/-!
  # Where values stand in the source

  The spans of declarations cut the source into gaps and values.

  1. **Placement** — `Placed` says that the values of declarations stand in a text one behind the other,
     each where its span says and with something before it.
  2. **Parsing places values** — `placed_ofContent`, by induction from item to item.
  3. **Order** — `inOrder_ofText`: sorted by their spans, the declarations of a sheet come in the order
     of the source, whatever lists they were put in.
-/

namespace Translucent

open Content

/-! ## Values within raw texts -/

namespace Text

theorem trimEnd_prefix (t : Text) : trimEnd t <+: t :=
  ⟨_, trimEnd_append_blanks t⟩

end Text

/-- What `splitImportant` keeps stands behind the blanks at the start. -/
theorem splitImportant_prefix (raw : Text) :
    (splitImportant raw).1 <+: Text.trimStart raw := by
  have trimmed : Text.trim raw <+: Text.trimStart raw := Text.trimEnd_prefix _
  unfold splitImportant
  dsimp only
  split
  · refine (Text.trimEnd_prefix _).trans ?_
    refine (List.dropLast_prefix _).trans ?_
    refine (Text.trimEnd_prefix _).trans ?_
    exact (List.take_prefix _ _).trans trimmed
  · exact trimmed

/-- The value of a declaration stands in the text behind its colon. -/
theorem Declaration.ofParts_parts (name : Text) (pos : Nat) (raw : Text) :
    ∃ blanks after, raw = blanks ++ ((ofParts name pos raw).value ++ after)
      ∧ (ofParts name pos raw).start = pos + Text.byteLength blanks
      ∧ (ofParts name pos raw).stop
        = (ofParts name pos raw).start + Text.byteLength (ofParts name pos raw).value := by
  obtain ⟨after, h⟩ := splitImportant_prefix raw
  refine ⟨raw.takeWhile Text.isBlank, after, ?_, rfl, rfl⟩
  show raw = _ ++ ((splitImportant raw).1 ++ after)
  rw [h, Text.blanks_append_trimStart]

/-! ## Placement -/

/-- Whether the values of declarations stand in a text that starts at the byte `pos`, in order, each at
    its span and with something before it. -/
inductive Placed : Nat → Text → List Declaration → Prop
  /-- No declaration. -/
  | nil (pos : Nat) (t : Text) : Placed pos t []
  /-- The first declaration, and those behind it. -/
  | cons {pos : Nat} {gap rest : Text} {d : Declaration} {ds : List Declaration} (lead : gap ≠ [])
      (start : d.start = pos + Text.byteLength gap)
      (stop : d.stop = d.start + Text.byteLength d.value) (behind : Placed d.stop rest ds) :
      Placed pos (gap ++ (d.value ++ rest)) (d :: ds)

namespace Placed

/-- Text before all declarations. -/
theorem prepend {pos : Nat} {t : Text} {ds : List Declaration} (g : Text)
    (h : Placed (pos + Text.byteLength g) t ds) : Placed pos (g ++ t) ds := by
  cases h with
  | nil => exact .nil _ _
  | cons lead start stop behind =>
    rw [← List.append_assoc]
    refine .cons (List.append_ne_nil_of_right_ne_nil _ lead) ?_ stop behind
    rw [start, Text.byteLength_append, Nat.add_assoc]

/-- One text behind another. -/
theorem append {pos : Nat} {s t : Text} {ds es : List Declaration} (hs : Placed pos s ds)
    (ht : Placed (pos + Text.byteLength s) t es) : Placed pos (s ++ t) (ds ++ es) := by
  induction hs with
  | nil pos s => exact ht.prepend s
  | cons lead start stop _ ih =>
    rw [List.append_assoc, List.append_assoc]
    refine .cons lead start stop (ih ?_)
    rw [stop, start]
    simpa only [Text.byteLength_append, Nat.add_assoc] using ht

/-- Values start one behind the other, behind the start of the text. -/
theorem pairwise {pos : Nat} {t : Text} {ds : List Declaration} (h : Placed pos t ds) :
    (∀ d ∈ ds, pos < d.start) ∧ ds.Pairwise fun d e => d.start < e.start := by
  induction h with
  | nil => exact ⟨fun _ hd => absurd hd List.not_mem_nil, .nil⟩
  | @cons pos gap rest d ds lead start stop _ ih =>
    have first : pos < d.start := by
      have := mt Text.byteLength_eq_zero_iff.mp lead
      omega
    have behind : ∀ e ∈ ds, d.start < e.start := fun e he => by
      have := ih.1 e he
      omega
    constructor
    · intro e he
      rcases List.mem_cons.mp he with rfl | he
      · exact first
      · exact Nat.lt_trans first (behind e he)
    · exact .cons behind ih.2

end Placed

/-! ## Parsing places values -/

namespace Items

/-- The declarations of all levels in the order of the source. -/
def inSource : Items → List Declaration
  | nil => []
  | declaration d rest => d :: inSource rest
  | rule _ inner rest => inSource inner ++ inSource rest

/-- Visiting declarations before rules is another order of the same declarations. -/
theorem perm_inSource (items : Items) :
    (items.declarations ++ Rule.visitAll items.rules).Perm items.inSource := by
  induction items with
  | nil => exact .refl _
  | declaration d rest ih => exact ih.cons d
  | rule h inner rest ihi ihr =>
    show (rest.declarations ++ (inner.declarations ++ Rule.visitAll inner.rules
      ++ Rule.visitAll rest.rules)).Perm (inner.inSource ++ rest.inSource)
    rw [← List.append_assoc]
    refine (List.perm_append_comm.append_right _).trans ?_
    rw [List.append_assoc]
    exact ihi.append ihr

/-- `map f i` = the items `i` with each declaration replaced by what `f` makes of it. -/
def map (f : Declaration → Declaration) : Items → Items
  | nil => nil
  | declaration d rest => .declaration (f d) (map f rest)
  | rule h inner rest => .rule h (map f inner) (map f rest)

variable (f : Declaration → Declaration)

theorem declarations_map (i : Items) : (i.map f).declarations = i.declarations.map f := by
  induction i with
  | nil => rfl
  | declaration d rest ih => exact congrArg (f d :: ·) ih
  | rule h inner rest _ ih => exact ih

theorem rules_map (i : Items) : (i.map f).rules = Rule.mapAll f i.rules := by
  induction i with
  | nil => rfl
  | declaration d rest ih => exact ih
  | rule h inner rest ihInner ih => rw [map, rules, rules, Rule.mapAll, Rule.map, declarations_map f, ihInner, ih]

/-- **Parsing places values**: the declarations of a row stand in its text. -/
theorem placed_ofContent (depth pos : Nat) (c : Content) (h : c.All fun l => l.text ≠ []) :
    Placed pos c.text (ofContent depth (.pass 0) pos c).inSource := by
  refine @ofContent_induction (fun _ pos c items => (c.All fun l => l.text ≠ []) →
    Placed pos c.text items.inSource) ?_ ?_ ?_ ?_ ?_ depth pos c h
  · intro depth pos _
    exact .nil _ _
  · intro depth pos c n items ih h
    rw [← text_take_append_text_drop n c]
    exact (width_eq _ ▸ ih (h.drop n)).prepend _
  · intro depth pos c a items ha ih h
    obtain ⟨parts⟩ := Assignment.exists_parts ha
    obtain ⟨lead, semicolon, nonempty, width, text⟩ := parts.text_eq h
    have value := Declaration.ofParts_parts a.name (pos + a.lead) a.value.text
    generalize Declaration.ofParts a.name (pos + a.lead) a.value.text = d at value ⊢
    obtain ⟨blanks, after, raw, start, stop⟩ := value
    have ih := ih (h.drop _)
    rw [width_eq, text, raw] at ih
    -- the gap is the lead with the blanks; behind the value come what is left of it and the semicolon
    have cut : c.text = (lead ++ blanks)
        ++ (d.value ++ ((after ++ semicolon) ++ (c.drop a.count).text)) := by
      rw [← text_take_append_text_drop a.count c, text, raw]
      simp only [List.append_assoc]
    rw [cut]
    refine .cons (List.append_ne_nil_of_left_ne_nil nonempty _) ?_ stop (Placed.prepend _ ?_)
    · rw [start, Text.byteLength_append, width, Nat.add_assoc]
    · have here : d.stop + Text.byteLength (after ++ semicolon)
          = pos + Text.byteLength (lead ++ (blanks ++ (d.value ++ after) ++ semicolon)) := by
        simp only [Text.byteLength_append]
        omega
      rw [here]
      exact ih
  · intro depth pos c h n items ih hc
    rw [← text_take_append_text_drop n c]
    exact (width_eq _ ▸ ih (hc.drop n)).prepend _
  · intro depth pos c h n o t body closed rest inner items ahead ihi ihr hc
    have hdrop := hc.drop n
    rw [ahead] at hdrop
    obtain ⟨-, hbody, hrest⟩ := hdrop
    have ihi := ihi hbody
    have ihr := ihr hrest
    have cut : c.text = ((c.take n).text ++ t) ++ (body.text ++ (closing o closed ++ rest.text)) := by
      rw [← text_take_append_text_drop n c, ahead, text_block]
      simp only [List.append_assoc]
    rw [cut]
    rw [← byteLength_closing o] at ihr
    rw [width_eq] at ihi ihr
    rw [width_eq body] at ihr
    refine Placed.prepend _ (Placed.append ?_ (Placed.prepend _ ?_))
    · simpa only [Text.byteLength_append, Nat.add_assoc] using ihi
    · simpa only [Text.byteLength_append, Nat.add_assoc] using ihr

end Items

/-! ## Order -/

namespace Stylesheet

/-- The declarations of a sheet, in the order of the source. -/
def inSource (css : Text) : List Declaration :=
  (Items.ofContent 0 (.pass 0) 0 (Content.ofText css)).inSource

theorem placed_inSource (css : Text) : Placed 0 css (inSource css) := by
  have placed := Items.placed_ofContent 0 0 (Content.ofText css) (all_ofText css text_ne_nil)
  rw [text_ofText] at placed
  exact placed

theorem perm_inSource (css : Text) : (ofText css).visit.Perm (inSource css) :=
  Items.perm_inSource _

theorem start_trans (d e f : Declaration) (hde : decide (d.start ≤ e.start) = true)
    (hef : decide (e.start ≤ f.start) = true) : decide (d.start ≤ f.start) = true :=
  decide_eq_true (Nat.le_trans (of_decide_eq_true hde) (of_decide_eq_true hef))

theorem start_total (d e : Declaration) : (decide (d.start ≤ e.start) || decide (e.start ≤ d.start)) = true := by
  have := Nat.le_total d.start e.start
  simpa using this

/-- Sorting puts declarations in the order in which they start. -/
theorem pairwise_inOrder (s : Stylesheet) : s.inOrder.Pairwise fun d e => d.start ≤ e.start :=
  (List.pairwise_mergeSort start_trans start_total s.visit).imp of_decide_eq_true

/-- Declarations that start one behind the other are equal if they start at the same byte. -/
theorem eq_of_start_eq {ds : List Declaration} (h : ds.Pairwise fun d e => d.start < e.start)
    {d e : Declaration} (hd : d ∈ ds) (he : e ∈ ds) (eq : d.start = e.start) : d = e := by
  induction h with
  | nil => exact absurd hd List.not_mem_nil
  | @cons f ds first _ ih =>
    rcases List.mem_cons.mp hd with rfl | hd' <;> rcases List.mem_cons.mp he with rfl | he'
    · rfl
    · exact absurd eq (Nat.ne_of_lt (first e he'))
    · exact absurd eq.symm (Nat.ne_of_lt (first d hd'))
    · exact ih hd' he'

/-- **Sorted by their spans, the declarations of a sheet are in the order of the source.** -/
theorem inOrder_ofText (css : Text) : (ofText css).inOrder = inSource css := by
  have strict := (placed_inSource css).pairwise.2
  have perm : (ofText css).inOrder.Perm (inSource css) :=
    (List.mergeSort_perm _ _).trans (perm_inSource css)
  refine List.Perm.eq_of_pairwise ?_ (pairwise_inOrder _) (strict.imp Nat.le_of_lt) perm
  intro d e hd he hde hed
  exact eq_of_start_eq strict (perm.mem_iff.mp hd) he (Nat.le_antisymm hde hed)

end Stylesheet

end Translucent
