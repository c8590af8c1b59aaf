import Translucent.Proofs.Content.Frame
import Translucent.Proofs.Value.Again
import Translucent.Proofs.Value.Parts

/-!
  # Beyond the depth of the search

  A block within `maxSearchDepth` others is passed over.  What stands in it has no say in what is found around it: if
  another content takes its place, the same shorthands are found, and their spans move with the text.

  1. **Blocks met** — `met` lists the blocks that the search of a row comes to, each with its depth; `Frame.Searched`
     says of a frame that the search comes to its block (`exists_frame_of_met`).
  2. **Spans** — what is found far behind a place moves as a whole (`occurrences_far`).  Right behind the block the
     first span may begin where the content of the block does, and that byte stays (`occurrences_late`).
  3. **Frames** — `occurrences_fill`: a content beyond the depth only adds its width to the offsets behind it.

  **Main statement** — `occurrencesIn_beyond`.
-/

namespace Translucent

open Content

namespace Content

/-! ## Blocks met -/

/-- `met depth pos c` = the blocks that the search comes to in the row `c`, `depth` blocks deep at the byte `pos`: how
    many blocks each stands in, the byte where its content starts, and what opens it. -/
def met (depth pos : Nat) : Content → List (Nat × Nat × Opener)
  | nil => []
  | leaf l rest => met depth (pos + Text.byteLength l.text) rest
  | block o t body closed rest =>
    let inner := pos + Text.byteLength t
    (depth, inner, o)
      :: ((if depth < maxSearchDepth ∧ isSearched o body = true then met (depth + 1) inner body else [])
        ++ met depth (inner + body.width + closingWidth closed) rest)

end Content

/-- Whether a call is one of the colours that are not searched. -/
def Opener.isColor : Opener → Bool
  | .call name => CallName.colors.contains name
  | .bracket _ => false

namespace Content

/-- Whether the search comes to the block of a frame, if it comes to the row, which lies `depth` blocks deep; the block
    is then `deep` blocks deep. -/
def Frame.Searched (deep depth : Nat) : Frame → Prop
  | here _ _ _ _ => depth = deep
  | leaf _ f => f.Searched deep depth
  | behind _ _ _ _ f => f.Searched deep depth
  | inside o _ f _ _ => depth < maxSearchDepth ∧ o.isColor = false ∧ f.Searched deep (depth + 1)

/-- A block that the search comes to is that of a frame. -/
theorem exists_frame_of_met {c : Content} {depth pos deep place : Nat} {o : Opener}
    (h : (deep, place, o) ∈ c.met depth pos) :
    ∃ (f : Frame) (b : Content), c = f.fill b ∧ f.opener = o ∧ place = pos + Text.byteLength f.lead
      ∧ f.Searched deep depth := by
  induction c generalizing depth pos with
  | nil => cases h
  | leaf l rest ih =>
    obtain ⟨f, b, rfl, opener, eq, searched⟩ := ih h
    exact ⟨.leaf l f, b, rfl, opener, by rw [eq, Frame.place_leaf], searched⟩
  | block o' t body closed rest ihb ihr =>
    rw [met, List.mem_cons, List.mem_append] at h
    rcases h with eq | within | behind
    · injection eq with eq eq'
      injection eq' with eq' opener
      subst eq eq' opener
      exact ⟨.here o t closed rest, body, rfl, rfl, rfl, rfl⟩
    · split at within
      · next shallow =>
        obtain ⟨f, b, rfl, opener, eq, searched⟩ := ihb within
        refine ⟨.inside o' t f closed rest, b, rfl, opener, by rw [eq, Frame.place_inside], shallow.1, ?_, searched⟩
        cases o' with
        | bracket b => rfl
        | call name =>
          have searched := shallow.2
          rw [isSearched, Bool.and_eq_true, Bool.not_eq_true'] at searched
          exact searched.2
      · cases within
    · obtain ⟨f, b, rfl, opener, eq, searched⟩ := ihr behind
      exact ⟨.behind o' t body closed f, b, rfl, opener, by rw [eq, Frame.place_behind], searched⟩

/-- A row with a block in it is no row of arguments, so that a call with it is searched if it is no colour. -/
theorem searched_fill (f : Frame) (c : Content) {o : Opener} (color : o.isColor = false) (closed : Bool) :
    whole? o (f.fill c) closed = none ∧ isSearched o (f.fill c) = true := by
  cases o with
  | bracket b => exact ⟨rfl, rfl⟩
  | call name =>
    have block : ¬(f.fill c).Flat := by
      induction f with
      | leaf l f ih => exact ih
      | _ => exact id
    have nothing : call? name (f.fill c) = none := by
      cases found : call? name (f.fill c) with
      | none => rfl
      | some s => exact absurd (flat_of_call? found color) block
    have color : CallName.colors.contains name = false := color
    rw [whole?, isSearched, nothing, color]
    exact ⟨ite_self _, rfl⟩

/-! ## Spans -/

/-- Whatever is found in a row lies between the place where a span could begin and the end of the row. -/
theorem occurrences_within (c : Content) (depth : Nat) {start pos : Nat} (le : start ≤ pos) :
    ∀ o ∈ c.occurrences depth start pos, start ≤ o.start ∧ o.start < o.stop ∧ o.stop ≤ pos + c.width := by
  -- the row is cut by what is found in it, whatever text stands before it
  have blank (n : Nat) : Text.byteLength (List.replicate n ' ') = n := by
    induction n with
    | zero => rfl
    | succ n ih =>
      rw [List.replicate_succ, Text.byteLength_cons, ih]
      exact Nat.add_comm 1 n
  have here : start + Text.byteLength (List.replicate (pos - start) ' ') = pos := by
    rw [blank]
    omega
  obtain ⟨out, cut⟩ := cuts c depth start (List.replicate (pos - start) ' ') [] [] [] (.rest _ [])
  rw [here, List.append_nil, List.append_nil] at cut
  intro o ho
  have first := cut.pairwise.1 o ho
  have last := cut.stop_le o ho
  have order := (cut.slices (List.replicate start ' ') (blank start).symm o ho).1
  rw [Text.byteLength_append, ← Nat.add_assoc, here, ← width_eq] at last
  exact ⟨first, order, last⟩

end Content

/-- The shorthand where it is once `old` bytes behind `place` gave way to `new` ones. -/
def Occurrence.moved (place old new : Nat) (o : Occurrence) : Occurrence :=
  ⟨Text.moved place old new o.start, Text.moved place old new o.stop, o.shorthand⟩

/-- A shorthand that ends at the place at the latest stays. -/
theorem Occurrence.moved_of_le {place : Nat} {o : Occurrence} (first : o.start ≤ place) (last : o.stop ≤ place)
    (old new : Nat) : o.moved place old new = o := by
  rw [moved, Text.moved_of_le first, Text.moved_of_le last]

namespace Content

/-- What is found behind a place moves as a whole. -/
theorem occurrences_far (c : Content) (depth n : Nat) {place start pos : Nat} (lt : place < start)
    (le : start ≤ pos) :
    c.occurrences depth (start + n) (pos + n) = (c.occurrences depth start pos).map (·.moved place 0 n) := by
  rw [occurrences_shift]
  refine List.map_congr_left fun o ho => ?_
  obtain ⟨first, order, -⟩ := occurrences_within c depth le o ho
  rw [Occurrence.moved, Text.moved_of_lt (by omega), Text.moved_of_lt (by omega)]
  rfl

/-- What is found up to a place stays. -/
theorem occurrences_near (c : Content) (depth n : Nat) {place start pos : Nat} (le : start ≤ pos)
    (last : pos + c.width ≤ place) :
    (c.occurrences depth start pos).map (·.moved place 0 n) = c.occurrences depth start pos := by
  refine (List.map_congr_left fun o ho => ?_).trans (List.map_id _)
  obtain ⟨-, order, within⟩ := occurrences_within c depth le o ho
  exact Occurrence.moved_of_le (by omega) (by omega) 0 n

/-- Behind a block that is passed over the first span may begin at a place within the block, which stays when the rest
    of the block grows. -/
theorem occurrences_late (c : Content) (depth n : Nat) {place pos : Nat} (lt : place < pos) :
    c.occurrences depth place (pos + n) = (c.occurrences depth place pos).map (·.moved place 0 n) := by
  cases c with
  | nil => rfl
  | leaf l rest =>
    have next : pos + n + Text.byteLength l.text = pos + Text.byteLength l.text + n := Nat.add_right_comm ..
    have after : place < pos + Text.byteLength l.text := by omega
    rw [occurrences, occurrences, next, occurrences_far rest depth n after (Nat.le_refl _)]
    cases hexShorthand? l rest with
    | none => rfl
    | some found =>
      have first : Text.moved place 0 n place = place := Text.moved_of_le (Nat.le_refl _) _ _
      have last : Text.moved place 0 n (pos + Text.byteLength l.text + Text.byteLength found.2.text)
          = pos + Text.byteLength l.text + n + Text.byteLength found.2.text := by
        rw [Text.moved_of_lt (by omega)]
        omega
      rw [List.map_cons, Occurrence.moved, first, last]
  | block o t body closed rest =>
    by_cases deep : maxSearchDepth ≤ depth
    · have inner : pos + n + Text.byteLength t = pos + Text.byteLength t + n := Nat.add_right_comm ..
      have next : pos + Text.byteLength t + n + body.width + closingWidth closed
          = pos + Text.byteLength t + body.width + closingWidth closed + n := by omega
      rw [occurrences_deep deep, occurrences_deep deep, inner, next]
      exact occurrences_far rest depth n (by omega) (by omega)
    · -- what is found in a block, or behind it, does not depend on what was passed over
      have shallow := Nat.lt_of_not_le deep
      have here (start pos : Nat) : (block o t body closed rest).occurrences depth start pos
          = (block o t body closed rest).occurrences depth pos pos := by
        rw [occurrences_shallow shallow, occurrences_shallow shallow]
      rw [here, here place pos]
      exact occurrences_far _ depth n lt (Nat.le_refl _)

/-! ## Frames -/

/-- Digits before a frame do not see what its block holds. -/
theorem hexShorthand?_fill (l : Lexeme) (f : Frame) (c c' : Content) :
    hexShorthand? l (f.fill c) = hexShorthand? l (f.fill c') := by
  cases f with
  | leaf n f =>
    have ends : (f.fill c).mayEndColor = (f.fill c').mayEndColor := by cases f <;> rfl
    unfold hexShorthand?
    cases l.token with
    | hash digits => simp only [Frame.fill, ends]
    | _ => rfl
  | _ => rw [hexShorthand?_of_next (by simp [Frame.fill]) l, hexShorthand?_of_next (by simp [Frame.fill]) l]

/-- **A content beyond the depth of the search** only moves what is behind it. -/
theorem occurrences_fill (f : Frame) {depth : Nat} (searched : f.Searched maxSearchDepth depth)
    (ends : f.isClosed = true) (c : Content) {start pos : Nat} (le : start ≤ pos) :
    (f.fill c).occurrences depth start pos
      = ((f.fill .nil).occurrences depth start pos).map (·.moved (pos + Text.byteLength f.lead) 0 c.width) := by
  induction f generalizing depth start pos with
  | here o t closed rest =>
    -- the block is passed over, and its closing bracket stands before the rest of the row
    obtain rfl : depth = maxSearchDepth := searched
    obtain rfl : closed = true := ends
    have next : pos + Text.byteLength t + c.width + closingWidth true
        = pos + Text.byteLength t + Content.nil.width + closingWidth true + c.width := by
      simp only [width]
      omega
    rw [Frame.fill, Frame.fill, occurrences_deep (Nat.le_refl _), occurrences_deep (Nat.le_refl _), next]
    exact occurrences_late rest _ _ (Nat.lt_succ_self _)
  | leaf l f ih =>
    have behind := ih searched ends (Nat.le_refl (pos + Text.byteLength l.text))
    rw [Frame.fill, Frame.fill, occurrences, occurrences, hexShorthand?_fill l f c .nil, Frame.place_leaf,
      behind]
    cases found : hexShorthand? l (f.fill .nil) with
    | none => rfl
    | some r =>
      -- the number stands before the block, too
      obtain ⟨s, n⟩ := r
      have before : Text.byteLength n.text ≤ Text.byteLength f.lead := by
        obtain ⟨-, -, after, eq⟩ := parts_of_hexShorthand? found
        cases f with
        | leaf m f =>
          injection eq with eq
          rw [Frame.lead, Text.byteLength_append, eq]
          exact Nat.le_add_right _ _
        | _ => cases eq
      dsimp only
      rw [List.map_cons, Occurrence.moved_of_le]
      · show start ≤ _
        omega
      · show pos + Text.byteLength l.text + Text.byteLength n.text ≤ _
        omega
  | behind o t body closed f ih =>
    rw [Frame.fill, Frame.fill, Frame.place_behind]
    by_cases deep : maxSearchDepth ≤ depth
    · rw [occurrences_deep deep, occurrences_deep deep]
      exact ih searched ends (by omega)
    · have shallow := Nat.lt_of_not_le deep
      rw [occurrences_shallow shallow, occurrences_shallow shallow]
      dsimp only
      rw [List.map_append, ih searched ends (Nat.le_refl _)]
      refine congrArg (· ++ _) ?_
      cases whole? o body closed with
      | some s =>
        dsimp only
        rw [List.map_singleton, Occurrence.moved_of_le]
        · show pos ≤ _
          omega
        · show pos + Text.byteLength t + body.width + closingWidth closed ≤ _
          omega
      | none =>
        dsimp only
        split
        · exact (occurrences_near body _ _ (Nat.le_refl _) (by omega)).symm
        · rfl
  | inside o t f closed rest ih =>
    obtain ⟨shallow, color, searched⟩ := searched
    obtain ⟨none_here, within⟩ := searched_fill f c color closed
    obtain ⟨none_here', within'⟩ := searched_fill f .nil color closed
    have lt := f.lead_lt_width ends
    have after : pos + Text.byteLength t + Text.byteLength f.lead
        < pos + Text.byteLength t + (f.fill .nil).width + closingWidth closed := by omega
    have next : pos + Text.byteLength t + ((f.fill .nil).width + c.width) + closingWidth closed
        = pos + Text.byteLength t + (f.fill .nil).width + closingWidth closed + c.width := by omega
    rw [Frame.fill, Frame.fill, occurrences_shallow shallow, occurrences_shallow shallow, none_here, none_here',
      Frame.place_inside]
    dsimp only
    rw [if_pos within, if_pos within', List.map_append, ih searched ends (Nat.le_refl _), f.width_fill c, next,
      occurrences_far rest depth _ after (Nat.le_refl _)]

end Content

/-! ## Whole values -/

/-- **What is beyond the depth of the search has no say**: let the search come to a block within `maxSearchDepth` others
    that starts behind `p` and holds `v`.  Whatever text that may fill a block is put in the place of `v`, the same
    shorthands are found in the same order.  No span begins or ends in that text, and those offsets that lie behind
    `p` move by the difference of the two lengths. -/
theorem occurrencesIn_beyond {p v w s : Text} {o : Opener} (address : o.mayBeAddress = false) (fills : FillsBlock v)
    (fills' : FillsBlock w)
    (met : (maxSearchDepth, Text.byteLength p, o) ∈ (ofText (p ++ (v ++ o.shape.closer :: s))).met 0 0) :
    occurrencesIn (p ++ (w ++ o.shape.closer :: s))
        = (occurrencesIn (p ++ (v ++ o.shape.closer :: s))).map
          (·.moved (Text.byteLength p) (Text.byteLength v) (Text.byteLength w))
      ∧ ∀ a ∈ occurrencesIn (p ++ (v ++ o.shape.closer :: s)), ∀ n ∈ [a.start, a.stop],
        n ≤ Text.byteLength p ∨ Text.byteLength p + Text.byteLength v < n := by
  obtain ⟨f, b, tree, rfl, lead, searched⟩ := exists_frame_of_met met
  rw [Nat.zero_add] at lead
  obtain ⟨ends, rfl, tree'⟩ := @Frame.ofText_fill f b p v w s true address fills fills' nofun tree lead.symm
  rw [show closing f.opener true ++ s = f.opener.shape.closer :: s from rfl] at tree'
  have found (u : Text) : (f.fill (ofText u)).occurrences 0 0 0
      = ((f.fill .nil).occurrences 0 0 0).map (·.moved (Text.byteLength p) 0 (Text.byteLength u)) := by
    have filled := occurrences_fill f searched ends (ofText u) (Nat.le_refl 0)
    rwa [Nat.zero_add, ← lead, width_eq, text_ofText] at filled
  rw [occurrencesIn_eq, occurrencesIn_eq, tree, tree', found v, found w]
  constructor
  · rw [List.map_map]
    refine List.map_congr_left fun a _ => ?_
    simp only [Function.comp_apply, Occurrence.moved, Text.moved_moved]
  · intro a ha
    obtain ⟨a, -, rfl⟩ := List.mem_map.mp ha
    simp only [List.forall_mem_cons, List.not_mem_nil, false_implies, implies_true, and_true]
    exact ⟨Text.moved_apart _ _ _, Text.moved_apart _ _ _⟩

/-- A call in the place of a name within 129 parentheses, before digits whose span begins in the innermost of them. -/
theorem occurrencesIn_beyond_parentheses :
    let p : Text := List.replicate 129 '('
    let call : Text := CallName.black ++ ['(', '.', '5', ')']
    let s : Text := ['#', 'f', 'f', 'f', '.', '5', ')']
    (maxSearchDepth, Text.byteLength p, .bracket .round) ∈ (ofText (p ++ (['x'] ++ ')' :: s))).met 0 0
      ∧ occurrencesIn (p ++ (['x'] ++ ')' :: s)) = [⟨129, 137, .shortHex .white (.fraction ['5'] (by decide))⟩]
      ∧ occurrencesIn (p ++ (call ++ ')' :: s)) = [⟨129, 145, .shortHex .white (.fraction ['5'] (by decide))⟩] := by
  intro p call s
  have met : (maxSearchDepth, Text.byteLength p, .bracket .round) ∈ (ofText (p ++ (['x'] ++ ')' :: s))).met 0 0 := by
    decide +kernel
  have found : occurrencesIn (p ++ (['x'] ++ ')' :: s))
      = [⟨129, 137, .shortHex .white (.fraction ['5'] (by decide))⟩] := by
    rw [occurrencesIn_eq]
    decide +kernel
  have name : FillsBlock ['x'] := ⟨⟨by decide, by decide⟩, by decide⟩
  have black : FillsBlock call := ⟨⟨by decide, by decide⟩, by decide⟩
  obtain ⟨moved, -⟩ := occurrencesIn_beyond rfl name black met
  exact ⟨met, found, moved.trans ((congrArg (List.map _) found).trans (by decide +kernel))⟩

end Translucent
