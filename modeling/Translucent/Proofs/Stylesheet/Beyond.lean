import Translucent.Proofs.Content.Frame
import Translucent.Proofs.Stylesheet.Depth
import Translucent.Proofs.Stylesheet.Exchange

/-!
  # Beyond the last rule

  The block of a rule within `maxRuleDepth` others is passed over with its rule.  If another content takes its place,
  the same sheet is read, and the spans behind the block move with the text.

  1. **Frames of rules** — `Frame.InRules`: the block of the frame is that of a rule, and the blocks around it are
     those of its rules (`exists_frame_of_mem`).
  2. **What starts a frame** — nothing that starts a row is told from what is in a block in curly brackets, so that
     `turn_fill`: the same starts there whatever the block holds, and a declaration ends before the block.
  3. **Spans** — `Declaration.LiesIn`: where a declaration that is read lies.  Those far behind a place move as a whole
     (`ofContent_far`), those before it stay (`ofContent_near`).
  4. **Rows** — `ofContent_fill`: a content beyond the last rule only adds its width to the offsets behind it.

  **Main statement** — `ofText_beyond`.
-/

namespace Translucent

open Content

/-! ## Frames of rules -/

namespace Content.Frame

/-- Whether the first block on the way to the block of the frame stands in curly brackets. -/
def AtCurly : Frame → Prop
  | here o _ _ _ => o = .bracket .curly
  | leaf _ f => f.AtCurly
  | behind _ _ _ _ f => f.AtCurly
  | inside o _ _ _ _ => o = .bracket .curly

/-- Whether all blocks on the way to the block of the frame stand in curly brackets, and so does the block itself: it
    is `deep` blocks deep, if the row is `depth` blocks deep. -/
def InRules (deep depth : Nat) : Frame → Prop
  | here o _ _ _ => o = .bracket .curly ∧ depth = deep
  | leaf _ f => f.InRules deep depth
  | behind _ _ _ _ f => f.InRules deep depth
  | inside o _ f _ _ => o = .bracket .curly ∧ f.InRules deep (depth + 1)

variable {f : Frame} {deep depth : Nat}

theorem InRules.opener (h : f.InRules deep depth) : f.opener = .bracket .curly := by
  induction f generalizing depth with
  | here o t closed rest => exact h.1
  | leaf l f ih => exact ih h
  | behind o t body closed f ih => exact ih h
  | inside o t f closed rest ih => exact ih h.2

theorem InRules.atCurly (h : f.InRules deep depth) : f.AtCurly := by
  induction f with
  | here o t closed rest => exact h.1
  | leaf l f ih => exact ih h
  | behind o t body closed f ih => exact ih h
  | inside o t f closed rest ih => exact h.1

end Content.Frame

namespace Items

/-- The block of a rule is that of a frame. -/
theorem exists_frame_of_mem {c : Content} {p : Pending} {depth pos deep place : Nat} {hd : Heading}
    (ahead : p.Ahead c) (h : ⟨deep, hd, some place⟩ ∈ ruleStarts depth p pos c) :
    ∃ (f : Frame) (b : Content), c = f.fill b ∧ place = pos + Text.byteLength f.lead ∧ f.InRules deep depth := by
  induction c generalizing depth p pos with
  | nil => cases h
  | leaf l rest ih =>
    have ahead := ahead_turn ahead 0 pos
    rcases List.mem_append.mp h with here | behind
    · cases Found.block_of_mem here
    · obtain ⟨f, b, rfl, eq, rules⟩ := ih ahead.leaf behind
      exact ⟨.leaf l f, b, rfl, by rw [eq, Frame.place_leaf], rules⟩
  | block o t body closed rest ihb ihr =>
    have ahead := ahead_turn ahead 0 pos
    generalize found : turn p 0 pos (.block o t body closed rest) = r at ahead
    obtain ⟨item, pending⟩ := r
    have behind (p : Pending) (ahead' : p.Ahead rest) (h : ⟨deep, hd, some place⟩ ∈ ruleStarts depth p
        (pos + Text.byteLength t + body.width + closingWidth closed) rest) : ∃ (f : Frame) (b : Content),
          block o t body closed rest = f.fill b ∧ place = pos + Text.byteLength f.lead ∧ f.InRules deep depth := by
      obtain ⟨f, b, rfl, eq, rules⟩ := ihr ahead' h
      exact ⟨.behind o t body closed f, b, rfl, by rw [eq, Frame.place_behind], rules⟩
    by_cases enters : ∃ hd, pending = .enter hd 0
    · obtain ⟨hd', rfl⟩ := enters
      obtain rfl : o = .bracket .curly := eq_of_beq ahead
      rw [ruleStarts_enter found, List.mem_cons, List.mem_append] at h
      rcases h with eq | within | h
      · injection eq with eq _ eq'
        injection eq' with eq'
        subst eq eq'
        exact ⟨.here _ t closed rest, body, rfl, rfl, rfl, rfl⟩
      · split at within
        · obtain ⟨f, b, rfl, eq, rules⟩ := ihb (p := .pass 0) trivial within
          exact ⟨.inside _ t f closed rest, b, rfl, by rw [eq, Frame.place_inside], rfl, rules⟩
        · cases within
      · exact behind (.pass 0) trivial h
    · have other (hd : Heading) : pending ≠ .enter hd 0 := fun eq => enters ⟨hd, eq⟩
      rw [ruleStarts_other found other] at h
      rcases List.mem_append.mp h with here | h
      · cases Found.block_of_mem here
      · exact behind pending.advance (ahead.block other) h

end Items

/-! ## What starts a frame -/

namespace Content.Frame

variable {f : Frame}

/-- A row with a block in it is a quiet row before the end of a prelude, which the block does not stand in. -/
theorem exists_quiet (curly : f.AtCurly) : ∃ (p : Content) (g : Frame), p.Quiet
    ∧ (∀ c, f.fill c = p.append (g.fill c) ∧ (g.fill c).Ends) ∧ p.width ≤ Text.byteLength f.lead := by
  induction f with
  | here o t closed rest =>
    obtain rfl : o = .bracket .curly := curly
    exact ⟨.nil, .here _ t closed rest, trivial, fun _ => ⟨rfl, .inr rfl⟩, Nat.zero_le _⟩
  | inside o t f closed rest _ =>
    obtain rfl : o = .bracket .curly := curly
    exact ⟨.nil, .inside _ t f closed rest, trivial, fun _ => ⟨rfl, .inr rfl⟩, Nat.zero_le _⟩
  | leaf l f ih =>
    by_cases semicolon : l.token = .semicolon
    · exact ⟨.nil, .leaf l f, trivial,
        fun _ => ⟨rfl, .inr (by simp [fill, endsPrelude, startsSemicolon, semicolon])⟩, Nat.zero_le _⟩
    · obtain ⟨p, g, quiet, cut, le⟩ := ih curly
      refine ⟨.leaf l p, g, ⟨semicolon, quiet⟩, fun c => ⟨congrArg (Content.leaf l) (cut c).1, (cut c).2⟩, ?_⟩
      rw [width, lead, Text.byteLength_append]
      exact Nat.add_le_add_left le _
  | behind o t body closed f ih =>
    by_cases other : o = .bracket .curly
    · exact ⟨.nil, .behind o t body closed f, trivial,
        fun _ => ⟨rfl, .inr (by simp [fill, endsPrelude, startsCurly, other])⟩, Nat.zero_le _⟩
    · obtain ⟨p, g, quiet, cut, le⟩ := ih curly
      refine ⟨.block o t body closed p, g, ⟨other, quiet⟩,
        fun c => ⟨congrArg (Content.block o t body closed) (cut c).1, (cut c).2⟩, ?_⟩
      have place := place_behind 0 o t body closed f
      rw [width]
      omega

theorem startsCurly_fill (f : Frame) (c c' : Content) : (f.fill c).startsCurly = (f.fill c').startsCurly := by
  cases f <;> rfl

/-- A search for a semicolon passes over the same components. -/
theorem length_upTo_fill (f : Frame) (c c' : Content) :
    ((f.fill c).upTo startsSemicolon).length = ((f.fill c').upTo startsSemicolon).length := by
  induction f with
  | here o t closed rest => rfl
  | inside o t f closed rest _ => rfl
  | behind o t body closed f ih => exact congrArg (· + 1) ih
  | leaf l f ih =>
    rw [fill, fill, upTo, upTo,
      show startsSemicolon (.leaf l (f.fill c)) = startsSemicolon (.leaf l (f.fill c')) from rfl]
    split
    · rfl
    · exact congrArg (· + 1) ih

end Content.Frame

/-- The lead and the value of an assignment are parts of its row. -/
theorem Assignment.width_le {c : Content} {a : Assignment} (h : ofContent? c = some a) :
    a.lead + a.value.width ≤ c.width := by
  obtain ⟨text, rest, colon, behind, rfl, next, lead, value, -⟩ := exists_parts h
  have row := congrArg width (upTo_append_dropTo startsWord rest)
  have inside := congrArg width (upTo_append_dropTo startsSemicolon behind)
  rw [width_append, next] at row
  rw [width_append, ← value] at inside
  simp only [width] at row ⊢
  omega

namespace Items

variable {p : Pending} {depth pos : Nat}

/-- A declaration ends where the row of its assignment does, at the latest. -/
theorem stop_ofParts {c : Content} {a : Assignment} (h : Assignment.ofContent? c = some a) (pos : Nat) :
    (Declaration.ofParts a.name (pos + a.lead) a.value.text).stop ≤ pos + c.width := by
  obtain ⟨blanks, after, raw, start, stop⟩ := Declaration.ofParts_parts a.name (pos + a.lead) a.value.text
  have le := Assignment.width_le h
  have width := congrArg Text.byteLength raw
  simp only [Text.byteLength_append, ← width_eq] at width
  omega

/-- A rule with a selector is no item before its block is entered. -/
theorem findStyle_nothing (depth : Nat) (c : Content) : (findStyle depth c).1 = .nothing := by
  have rule (prelude : Content) : (findStyle.styleRule depth c prelude).1 = .nothing := by
    unfold findStyle.styleRule
    split <;> rfl
  unfold findStyle
  dsimp only
  split
  · split
    · rfl
    · exact rule _
  · exact rule _

section Fill

variable {f : Frame} (curly : f.AtCurly) (c c' : Content)
include curly

theorem findStyle_fill : findStyle depth (f.fill c) = findStyle depth (f.fill c') := by
  obtain ⟨p, g, quiet, cut, -⟩ := Frame.exists_quiet curly
  rw [(cut c).1, (cut c').1, findStyle_append quiet (cut c).2, findStyle_append quiet (cut c').2,
    g.startsCurly_fill c c', g.length_upTo_fill c c']

theorem findAtRule_fill (name : Text) : findAtRule depth name (f.fill c) = findAtRule depth name (f.fill c') := by
  obtain ⟨p, g, quiet, cut, -⟩ := Frame.exists_quiet curly
  rw [(cut c).1, (cut c').1, findAtRule_append quiet (cut c).2, findAtRule_append quiet (cut c').2,
    g.startsCurly_fill c c']

theorem findNamed_fill : findNamed depth pos (f.fill c) = findNamed depth pos (f.fill c')
    ∧ ∀ d, (findNamed depth pos (f.fill c)).1 = .declaration d → d.stop ≤ pos + Text.byteLength f.lead := by
  have style := @findStyle_fill depth f curly c c'
  have nothing := findStyle_nothing depth (f.fill c)
  obtain ⟨p, g, quiet, cut, le⟩ := Frame.exists_quiet curly
  rw [style] at nothing
  rw [(cut c).1, (cut c').1] at style ⊢
  rw [(cut c').1] at nothing
  rw [findNamed_append quiet (cut c).2, findNamed_append quiet (cut c').2, g.startsCurly_fill c c', style]
  cases ha : Assignment.ofContent? p with
  | none => exact ⟨rfl, fun d h => by cases nothing.symm.trans h⟩
  | some a =>
    refine ⟨rfl, fun d h => ?_⟩
    dsimp only at h
    split at h
    · cases nothing.symm.trans h
    · obtain rfl := Found.declaration.inj h
      exact Nat.le_trans (stop_ofParts ha pos) (Nat.add_le_add_left le pos)

/-- **The same starts a row** whatever the block in it holds, and a declaration that does ends before the block. -/
theorem turn_fill : turn p depth pos (f.fill c) = turn p depth pos (f.fill c')
    ∧ ∀ d, (turn p depth pos (f.fill c)).1 = .declaration d → d.stop ≤ pos + Text.byteLength f.lead := by
  have style : findStyle depth (f.fill c) = findStyle depth (f.fill c')
      ∧ ∀ d, (findStyle depth (f.fill c)).1 = .declaration d → d.stop ≤ pos + Text.byteLength f.lead :=
    ⟨findStyle_fill curly c c', fun d h => by cases (findStyle_nothing depth (f.fill c)).symm.trans h⟩
  have same : find depth pos (f.fill c) = find depth pos (f.fill c')
      ∧ ∀ d, (find depth pos (f.fill c)).1 = .declaration d → d.stop ≤ pos + Text.byteLength f.lead := by
    cases f with
    | leaf l f =>
      obtain ⟨k, t⟩ := l
      cases k with
      | space => exact ⟨rfl, fun d h => by cases h⟩
      | comment closed => exact ⟨rfl, fun d h => by cases h⟩
      | semicolon => exact ⟨rfl, fun d h => by cases h⟩
      | closing b =>
        cases b with
        | curly => exact ⟨rfl, fun d h => by cases h⟩
        | _ => exact style
      | atKeyword name =>
        refine ⟨@findAtRule_fill depth f curly c c' name, fun d h => ?_⟩
        rw [show find depth pos (Frame.fill c (.leaf ⟨.atKeyword name, t⟩ f)) = findAtRule depth name (f.fill c)
          from rfl, findAtRule] at h
        split at h <;> cases h
      | ident name => exact findNamed_fill (f := .leaf ⟨.ident name, t⟩ f) curly c c'
      | _ => exact style
    | _ => exact style
  unfold turn
  split
  · exact same
  · exact ⟨rfl, fun d h => by cases h⟩

end Fill

end Items

/-! ## Spans -/

/-- Where a declaration that is read lies: behind the byte `first`, and up to the byte `last`. -/
structure Declaration.LiesIn (first last : Nat) (d : Declaration) : Prop where
  /-- The span starts behind the first byte. -/
  first : first < d.start
  /-- The span is that of the value. -/
  sized : d.stop = d.start + Text.byteLength d.value
  /-- The span ends at the last byte at the latest. -/
  last : d.stop ≤ last

theorem Declaration.LiesIn.mono {first last first' last' : Nat} {d : Declaration} (h : d.LiesIn first last)
    (le : first' ≤ first) (le' : last ≤ last') : d.LiesIn first' last' :=
  ⟨Nat.lt_of_le_of_lt le h.first, h.sized, Nat.le_trans h.last le'⟩

/-- The declaration where it is once `old` bytes behind `place` gave way to `new` ones. -/
def Declaration.moved (place old new : Nat) (d : Declaration) : Declaration :=
  { d with start := Text.moved place old new d.start, stop := Text.moved place old new d.stop }

namespace Declaration.LiesIn

variable {first last : Nat} {d : Declaration} (h : d.LiesIn first last)
include h

/-- A declaration before a place stays. -/
theorem moved_of_le {place : Nat} (le : last ≤ place) (old new : Nat) : d.moved place old new = d := by
  have := h.sized
  have := h.last
  rw [moved, Text.moved_of_le (by omega), Text.moved_of_le (by omega)]

/-- A declaration behind a place moves as a whole. -/
theorem moved_of_lt {place : Nat} (le : place ≤ first) (n : Nat) : d.moved place 0 n = d.shift n := by
  have := h.first
  have := h.sized
  rw [moved, Text.moved_of_lt (by omega), Text.moved_of_lt (by omega)]
  rfl

end Declaration.LiesIn

/-- A declaration that is as long as its value lies on one side of a place, if it still is so once the text grows
    there. -/
theorem Declaration.apart {place : Nat} {d : Declaration} (sized : d.stop = d.start + Text.byteLength d.value)
    (sized' : (d.moved place 0 1).stop = (d.moved place 0 1).start + Text.byteLength d.value) :
    d.stop ≤ place ∨ place < d.start := by
  simp only [moved, Text.moved] at sized'
  split at sized' <;> split at sized' <;> omega

namespace Items

variable {p : Pending} {depth pos : Nat}

/-- What is found at the start of a row lies in the row. -/
theorem liesIn_turn {c : Content} (spelled : c.All fun l => l.text ≠ []) {d : Declaration}
    (h : (turn p depth pos c).1 = .declaration d) : d.LiesIn pos (pos + c.width) := by
  unfold turn at h
  split at h
  · have starts := starts_find depth pos c
    generalize find depth pos c = r at starts h
    cases starts with
    | @declaration a ha =>
      obtain rfl := Found.declaration.inj h
      obtain ⟨parts⟩ := Assignment.exists_parts ha
      obtain ⟨lead, -, nonempty, width, -⟩ := parts.text_eq spelled
      have some_lead := mt Text.byteLength_eq_zero_iff.mp nonempty
      obtain ⟨blanks, -, -, start, stop⟩ := Declaration.ofParts_parts a.name (pos + a.lead) a.value.text
      exact ⟨by omega, stop, stop_ofParts ha pos⟩
    | _ => cases h
  · cases h

theorem mem_inSource_put {found : Found} {i : Items} {d : Declaration} (h : d ∈ (found.put i).inSource) :
    found = .declaration d ∨ d ∈ i.inSource := by
  cases found with
  | nothing => exact .inr h
  | statement hd => exact .inr h
  | declaration e =>
    rcases List.mem_cons.mp h with rfl | h
    · exact .inl rfl
    · exact .inr h

/-- **What is read from a row lies in the row.** -/
theorem liesIn_ofContent {c : Content} (spelled : c.All fun l => l.text ≠ []) :
    ∀ d ∈ (ofContent depth p pos c).inSource, d.LiesIn pos (pos + c.width) := by
  induction c generalizing depth p pos with
  | nil => exact fun _ hd => absurd hd List.not_mem_nil
  | leaf l rest ih =>
    intro d hd
    rcases mem_inSource_put hd with here | behind
    · exact liesIn_turn spelled here
    · exact (ih spelled.2 d behind).mono (Nat.le_add_right _ _) (by rw [width]; omega)
  | block o t body closed rest ihb ihr =>
    intro d hd
    have behind {p' : Pending} (h : d ∈ (ofContent depth p'
        (pos + Text.byteLength t + body.width + closingWidth closed) rest).inSource) :
        d.LiesIn pos (pos + (block o t body closed rest).width) :=
      (ihr spelled.2.2 d h).mono (by omega) (by rw [width]; omega)
    by_cases enters : ∃ hd, (turn p depth pos (.block o t body closed rest)).2 = .enter hd 0
    · obtain ⟨h, eq⟩ := enters
      rw [ofContent_block_enter (Prod.ext rfl eq)] at hd
      rcases List.mem_append.mp hd with hd | hd
      · exact (ihb spelled.2.1 d hd).mono (Nat.le_add_right _ _) (by rw [width]; omega)
      · exact behind hd
    · rw [ofContent_block_other rfl fun h eq => enters ⟨h, eq⟩] at hd
      rcases mem_inSource_put hd with here | hd
      · exact liesIn_turn spelled here
      · exact behind hd

theorem map_congr {f g : Declaration → Declaration} {i : Items} (h : ∀ d ∈ i.inSource, f d = g d) :
    i.map f = i.map g := by
  induction i with
  | nil => rfl
  | declaration d rest ih =>
    obtain ⟨here, behind⟩ := List.forall_mem_cons.mp h
    rw [map, map, here, ih behind]
  | rule hd inner rest ihi ihr =>
    obtain ⟨inside, behind⟩ := List.forall_mem_append.mp h
    rw [map, map, ihi inside, ihr behind]

theorem map_map (f g : Declaration → Declaration) (i : Items) : (i.map f).map g = i.map (g ∘ f) := by
  induction i with
  | nil => rfl
  | declaration d rest ih => rw [map, map, map, ih]; rfl
  | rule hd inner rest ihi ihr => rw [map, map, map, ihi, ihr]

theorem map_id (i : Items) : i.map id = i := by
  induction i with
  | nil => rfl
  | declaration d rest ih => exact congrArg (Items.declaration d) ih
  | rule hd inner rest ihi ihr => rw [map, ihi, ihr]

theorem inSource_map (f : Declaration → Declaration) (i : Items) : (i.map f).inSource = i.inSource.map f := by
  induction i with
  | nil => rfl
  | declaration d rest ih => exact congrArg (f d :: ·) ih
  | rule hd inner rest ihi ihr => rw [map, inSource, inSource, ihi, ihr, List.map_append]

/-- What is found before others stays if it is kept. -/
theorem map_put {f : Declaration → Declaration} {found : Found} (h : ∀ d, found = .declaration d → f d = d)
    (i : Items) : (found.put i).map f = found.put (i.map f) := by
  cases found with
  | declaration d => exact congrArg (Items.declaration · (i.map f)) (h d rfl)
  | _ => rfl

section Row

variable {place : Nat} {c : Content} (spelled : c.All fun l => l.text ≠ [])
include spelled

/-- What is read behind a place moves as a whole. -/
theorem ofContent_far (le : place ≤ pos) (n : Nat) :
    ofContent depth p (pos + n) c = (ofContent depth p pos c).map (Declaration.moved place 0 n) := by
  rw [ofContent_shift]
  exact map_congr fun d hd => ((liesIn_ofContent spelled d hd).moved_of_lt le n).symm

/-- What is read up to a place stays. -/
theorem ofContent_near (le : pos + c.width ≤ place) (n : Nat) :
    (ofContent depth p pos c).map (Declaration.moved place 0 n) = ofContent depth p pos c :=
  (map_congr fun d hd => (liesIn_ofContent spelled d hd).moved_of_le le 0 n).trans (map_id _)

end Row

/-! ## Rows -/

/-- What starts a row with a block in it is kept when the content of the block grows. -/
theorem exists_turn {f : Frame} (curly : f.AtCurly) (spelled : (f.fill .nil).All fun l => l.text ≠ [])
    (held : p.Held depth) (pos : Nat) (c : Content) :
    ∃ found pending, turn p depth pos (f.fill c) = (found, pending) ∧ turn p depth pos (f.fill .nil) = (found, pending)
      ∧ pending.Held depth
      ∧ ∀ i, (found.put i).map (Declaration.moved (pos + Text.byteLength f.lead) 0 c.width)
        = found.put (i.map (Declaration.moved (pos + Text.byteLength f.lead) 0 c.width)) := by
  refine ⟨_, _, (turn_fill curly c .nil).1, rfl, held_turn held pos _, map_put fun d h => ?_⟩
  obtain ⟨first, sized, -⟩ := liesIn_turn spelled h
  have before : d.LiesIn pos (pos + Text.byteLength f.lead) := ⟨first, sized, (turn_fill curly .nil .nil).2 d h⟩
  exact before.moved_of_le (Nat.le_refl _) 0 _

/-- **A content beyond the last rule** only moves what is behind it. -/
theorem ofContent_fill (f : Frame) {depth : Nat} (rules : f.InRules maxRuleDepth depth)
    (spelled : (f.fill .nil).All fun l => l.text ≠ []) {p : Pending} (held : p.Held depth) (pos : Nat) (c : Content) :
    ofContent depth p pos (f.fill c) =
      (ofContent depth p pos (f.fill .nil)).map (Declaration.moved (pos + Text.byteLength f.lead) 0 c.width) := by
  induction f generalizing depth p pos with
  | here o t closed rest =>
    obtain ⟨found, pending, there, here, held, put⟩ := exists_turn rules.atCurly spelled held pos c
    -- the block is too deep to be entered
    have other (hd : Heading) : pending ≠ .enter hd 0 := by
      rintro rfl
      exact absurd held (rules.2 ▸ Nat.lt_irrefl _)
    have next : pos + Text.byteLength t + c.width + closingWidth closed
        = pos + Text.byteLength t + Content.nil.width + closingWidth closed + c.width := by
      simp only [width]
      omega
    rw [Frame.fill, ofContent_block_other there other, Frame.fill, ofContent_block_other here other, put, next]
    exact congrArg found.put (ofContent_far spelled.2.2 (by rw [Frame.lead]; omega) _)
  | leaf l f ih =>
    obtain ⟨found, pending, there, here, held, put⟩ := exists_turn rules.atCurly spelled held pos c
    rw [Frame.fill, ofContent_leaf there, Frame.fill, ofContent_leaf here, put, Frame.place_leaf]
    exact congrArg found.put (ih rules spelled.2 (Pending.held_advance held) _)
  | behind o t body closed f ih =>
    obtain ⟨found, pending, there, here, held, put⟩ := exists_turn rules.atCurly spelled held pos c
    rw [Frame.fill, Frame.fill]
    rw [Frame.place_behind] at put ⊢
    by_cases enters : ∃ hd, pending = .enter hd 0
    · obtain ⟨hd, rfl⟩ := enters
      rw [ofContent_block_enter there, ofContent_block_enter here, map, ih rules spelled.2.2 (p := .pass 0) trivial,
        ofContent_near spelled.2.1 (by omega)]
    · have other (hd : Heading) : pending ≠ .enter hd 0 := fun eq => enters ⟨hd, eq⟩
      rw [ofContent_block_other there other, ofContent_block_other here other, put]
      exact congrArg found.put (ih rules spelled.2.2 (Pending.held_advance held) _)
  | inside o t f closed rest ih =>
    obtain ⟨found, pending, there, here, held, put⟩ := exists_turn rules.atCurly spelled held pos c
    have le : pos + Text.byteLength t + Text.byteLength f.lead
        ≤ pos + Text.byteLength t + (f.fill .nil).width + closingWidth closed := by
      have := f.lead_le_width
      omega
    have next : pos + Text.byteLength t + (f.fill c).width + closingWidth closed
        = pos + Text.byteLength t + (f.fill .nil).width + closingWidth closed + c.width := by
      rw [f.width_fill c]
      omega
    rw [Frame.fill, Frame.fill]
    rw [Frame.place_inside] at put ⊢
    by_cases enters : ∃ hd, pending = .enter hd 0
    · obtain ⟨hd, rfl⟩ := enters
      rw [ofContent_block_enter there, ofContent_block_enter here, map, ih rules.2 spelled.2.1 (p := .pass 0) trivial,
        next, ofContent_far spelled.2.2 le]
    · have other (hd : Heading) : pending ≠ .enter hd 0 := fun eq => enters ⟨hd, eq⟩
      rw [ofContent_block_other there other, ofContent_block_other here other, put, next]
      exact congrArg found.put (ofContent_far spelled.2.2 le _)

end Items

/-- Another content in a block keeps what holds of all lexemes, if it holds of those of the content. -/
theorem Content.All.fill {q : Lexeme → Prop} {f : Frame} {c c' : Content} (h : (f.fill c).All q) (hc : c'.All q) :
    (f.fill c').All q := by
  induction f with
  | here o t closed rest => exact ⟨h.1, hc, h.2.2⟩
  | leaf l f ih => exact ⟨h.1, ih h.2⟩
  | behind o t body closed f ih => exact ⟨h.1, h.2.1, ih h.2.2⟩
  | inside o t f closed rest ih => exact ⟨h.1, ih h.2.1, h.2.2⟩

/-- What is read lies on one side of a content beyond the last rule. -/
theorem Items.apart_of_fill {f : Frame} {depth : Nat} (rules : f.InRules maxRuleDepth depth)
    (spelled : (f.fill .nil).All fun l => l.text ≠ []) {p : Pending} (held : p.Held depth) (pos : Nat) :
    ∀ d ∈ (ofContent depth p pos (f.fill .nil)).inSource,
      d.stop ≤ pos + Text.byteLength f.lead ∨ pos + Text.byteLength f.lead < d.start := by
  intro d hd
  -- with a blank in the block the declaration is as long as its value, too
  let blank : Content := .leaf ⟨.space, [' ']⟩ .nil
  have spelled' : (f.fill blank).All fun l => l.text ≠ [] := spelled.fill ⟨by simp, trivial⟩
  have mem : d.moved (pos + Text.byteLength f.lead) 0 1 ∈ (ofContent depth p pos (f.fill blank)).inSource := by
    rw [ofContent_fill f rules spelled held pos blank, inSource_map]
    exact List.mem_map_of_mem hd
  exact Declaration.apart (liesIn_ofContent spelled d hd).sized (liesIn_ofContent spelled' _ mem).sized

/-! ## Sheets -/

namespace Stylesheet

/-- Whether `v` is the content of a block that is passed over with its rule, because the rule stands in `maxRuleDepth`
    others: in the text `css` it stands behind `p`, which ends with the bracket of the block, and before `z`, which
    starts with the bracket that closes it or is empty. -/
structure PassedOver (css p v z : Text) : Prop where
  /-- The text consists of the three parts. -/
  text : css = p ++ (v ++ z)
  /-- A rule in `maxRuleDepth` others has its block behind the first part. -/
  start : ∃ h, ⟨maxRuleDepth, h, some (Text.byteLength p)⟩ ∈ ruleStarts css
  /-- The second part may fill a block. -/
  fills : FillsBlock v
  /-- The third part closes the block, unless it is left open. -/
  ends : ∀ m ∈ z.head?, m = '\x7d'

/-- Such a block is that of a frame. -/
theorem PassedOver.exists_frame {css p v z : Text} (h : PassedOver css p v z) :
    ∃ f : Frame, f.InRules maxRuleDepth 0 ∧ Text.byteLength f.lead = Text.byteLength p
      ∧ Content.ofText css = f.fill (Content.ofText v)
      ∧ ∀ w, FillsBlock w → Content.ofText (p ++ (w ++ z)) = f.fill (Content.ofText w) := by
  obtain ⟨rfl, ⟨hd, start⟩, fills, ends⟩ := h
  obtain ⟨f, b, tree, lead, rules⟩ := Items.exists_frame_of_mem (p := .pass 0) trivial start
  rw [Nat.zero_add] at lead
  obtain ⟨closed, s, cut, left⟩ : ∃ closed s, z = closing f.opener closed ++ s ∧ (closed = false → s = []) := by
    cases z with
    | nil => exact ⟨false, [], rfl, fun _ => rfl⟩
    | cons m s =>
      obtain rfl : m = '\x7d' := ends m rfl
      rw [rules.opener]
      exact ⟨true, s, rfl, nofun⟩
  have address : f.opener.mayBeAddress = false := by rw [rules.opener]; rfl
  rw [cut] at tree ⊢
  obtain ⟨-, rfl, -⟩ := Frame.ofText_fill address fills fills left tree lead.symm
  exact ⟨f, rules, lead.symm, tree, fun w fills' => (Frame.ofText_fill address fills fills' left tree lead.symm).2.2⟩

/-- `moved place old new s` = the sheet `s` once `old` bytes behind `place` gave way to `new` ones. -/
def moved (place old new : Nat) : Stylesheet → Stylesheet := map (Declaration.moved place old new)

theorem visit_moved (place old new : Nat) (s : Stylesheet) (source : Text) :
    visit { s.moved place old new with source := source } = s.visit.map (Declaration.moved place old new) :=
  visit_map _ s

/-- **A block that is passed over has no say** in what is read. -/
theorem PassedOver.ofText_eq {css p v z w : Text} (h : PassedOver css p v z) (fills' : FillsBlock w) :
    ofText (p ++ (w ++ z))
        = { (ofText css).moved (Text.byteLength p) (Text.byteLength v) (Text.byteLength w) with
            source := p ++ (w ++ z) }
      ∧ ∀ d ∈ (ofText css).visit, d.stop ≤ Text.byteLength p ∨ Text.byteLength p + Text.byteLength v < d.start := by
  obtain ⟨f, rules, lead, tree, tree'⟩ := h.exists_frame
  have spelled : (f.fill .nil).All fun l => l.text ≠ [] :=
    @All.fill _ f (Content.ofText v) .nil (tree ▸ all_ofText css text_ne_nil) trivial
  let items := Items.ofContent 0 (.pass 0) 0 (f.fill .nil)
  have read (c : Content) : Items.ofContent 0 (.pass 0) 0 (f.fill c)
      = items.map (Declaration.moved (Text.byteLength p) 0 c.width) := by
    have filled := Items.ofContent_fill f rules spelled (p := .pass 0) trivial 0 c
    rwa [Nat.zero_add, lead] at filled
  have here := read (Content.ofText v)
  have there := read (Content.ofText w)
  rw [← tree, width_eq, text_ofText] at here
  rw [← tree' w fills', width_eq, text_ofText] at there
  constructor
  · have exchange : Items.ofContent 0 (.pass 0) 0 (Content.ofText (p ++ (w ++ z)))
        = (Items.ofContent 0 (.pass 0) 0 (Content.ofText css)).map
          (Declaration.moved (Text.byteLength p) (Text.byteLength v) (Text.byteLength w)) := by
      rw [here, there, Items.map_map]
      refine Items.map_congr fun d _ => ?_
      simp only [Function.comp_apply, Declaration.moved, Text.moved_moved]
    show ofItems (p ++ (w ++ z)) (Items.ofContent 0 (.pass 0) 0 (Content.ofText (p ++ (w ++ z)))) = _
    have sheet := map_ofItems (Declaration.moved (Text.byteLength p) (Text.byteLength v) (Text.byteLength w)) css
      (Items.ofContent 0 (.pass 0) 0 (Content.ofText css))
    rw [exchange]
    exact congrArg (fun s : Stylesheet => { s with source := p ++ (w ++ z) }) sheet.symm
  · intro d hd
    have mem : d ∈ inSource css := (perm_inSource css).mem_iff.mp hd
    rw [inSource, here, Items.inSource_map] at mem
    obtain ⟨e, he, rfl⟩ := List.mem_map.mp mem
    have apart := Items.apart_of_fill rules spelled (p := .pass 0) trivial 0 e he
    rw [Nat.zero_add, lead] at apart
    rcases apart with before | behind
    · left
      show Text.moved _ _ _ e.stop ≤ _
      rwa [Text.moved_of_le before]
    · right
      show _ < Text.moved _ _ _ e.start
      rw [Text.moved_of_lt behind]
      omega

/-- **Nothing is read beyond the last rule, and what stands there has no say.**  All that is read has at most
    `maxRuleDepth` rules around it, and a rule with so many is an at-rule that holds nothing.  The rules that are read
    are those that start in the text, but for the ones with a block within `maxRuleDepth` others.  Whatever takes the
    place of the content of such a block, the same sheet is read, and all spans lie before the content or behind it;
    the latter move by the difference of the two lengths. -/
theorem ofText_beyond (css : Text) :
    (∀ n ds rs, (ofText css).HasLevel n ds rs → (ds ≠ [] ∨ rs ≠ [] → n ≤ maxRuleDepth)
        ∧ (n = maxRuleDepth → ∀ r ∈ rs, ∃ name prelude, r = .mk (.atRule name prelude) [] []))
      ∧ Rule.headingsAll 0 (ofText css).rules
        = ((ruleStarts css).filter RuleStart.isRead).map (fun r => (r.depth, r.heading))
      ∧ ∀ p v w z, PassedOver css p v z → FillsBlock w →
        ofText (p ++ (w ++ z)) = { (ofText css).moved (Text.byteLength p) (Text.byteLength v) (Text.byteLength w) with
            source := p ++ (w ++ z) }
          ∧ ∀ d ∈ (ofText css).visit, d.stop ≤ Text.byteLength p ∨ Text.byteLength p + Text.byteLength v < d.start :=
  ⟨fun _ _ _ level => level.bounded, headingsAll_ofText css, fun _ _ _ _ passed fills' => passed.ofText_eq fills'⟩

/-- A rule in the place of a declaration within 129 rules, of which 128 are read: a declaration and an at-rule without
    a block follow, and one with a block, which is not read. -/
theorem ofText_beyond_nested :
    let p : Text := (List.replicate 129 ['a', '\x7b']).flatten
    let v : Text := ['b', ':', 'c']
    let w : Text := ['b', '\x7b', 'c', ':', 'd', '\x7d']
    let z : Text := ['\x7d', 'd', ':', 'e', ';', '@', 'f', '\x7b', '\x7d', '@', 'g']
    PassedOver (p ++ (v ++ z)) p v z ∧ FillsBlock w
      ∧ (Rule.headingsAll 0 (ofText (p ++ (v ++ z))).rules).drop 128 = [(128, .atRule ['g'] [])]
      ∧ (ofText (p ++ (v ++ z))).visit = [⟨['d'], ['e'], false, 264, 265⟩]
      ∧ (ofText (p ++ (w ++ z))).visit = [⟨['d'], ['e'], false, 267, 268⟩] := by
  intro p v w z
  have start : ⟨maxRuleDepth, .style ['a'], some (Text.byteLength p)⟩ ∈ ruleStarts (p ++ (v ++ z)) := by
    decide +kernel
  have fills : FillsBlock v := ⟨⟨by decide, by decide⟩, by decide⟩
  have fills' : FillsBlock w := ⟨⟨by decide, by decide⟩, by decide⟩
  have passed : PassedOver (p ++ (v ++ z)) p v z := ⟨rfl, ⟨_, start⟩, fills, by simp [z]⟩
  obtain ⟨-, rules, beyond⟩ := ofText_beyond (p ++ (v ++ z))
  have last : (((ruleStarts (p ++ (v ++ z))).filter RuleStart.isRead).map (fun r => (r.depth, r.heading))).drop 128
      = [(128, .atRule ['g'] [])] := by
    decide +kernel
  have visited : (ofText (p ++ (v ++ z))).visit = [⟨['d'], ['e'], false, 264, 265⟩] := by
    decide +kernel
  refine ⟨passed, fills', rules ▸ last, visited, ?_⟩
  obtain ⟨same, -⟩ := beyond p v w z passed fills'
  rw [same, visit_moved, visited]
  decide +kernel

end Stylesheet

end Translucent
