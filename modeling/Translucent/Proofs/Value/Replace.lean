import Translucent.Proofs.Value.Scan
import Translucent.Value.Expansion

/-!
  # Expanding along the tree

  `expand` cuts a value at the spans of its shorthands and puts the pieces together again.  The same text
  comes from a walk along the tree of the value that knows no positions.

  1. **Blocks** — a block is a shorthand itself (`whole?`), or it is searched (`isSearched`), or it is passed
     over; all that is found in it and written for it depends on these alone.
  2. **The walk** — `replaced render c`, the text of `c` with `render s` in place of each shorthand `s`.
  3. **Spans** — `replaceFrom_shorthands`: cutting at the spans of a row is the walk along it, and
     `expand_eq_replaced` for whole values.
-/

namespace Translucent

open Content

namespace Content

/-! ## Blocks -/

/-- The shorthand that a block is. -/
def whole? (o : Opener) (body : Content) (closed : Bool) : Option Shorthand :=
  match o with
  | .bracket _ => none
  | .call name => if endsInParenthesis body closed then call? name body else none

/-- Only calls of three names are shorthands. -/
theorem head_of_whole? {name : Text} {body : Content} {closed : Bool} {s : Shorthand}
    (h : whole? (.call name) body closed = some s) :
    name.head? = some 'b' ∨ name.head? = some 'w' ∨ name.head? = some 'r' := by
  unfold whole? at h
  dsimp only at h
  split at h
  · unfold call? at h
    split at h
    · next name => rw [name]; exact .inl rfl
    split at h
    · next name => rw [name]; exact .inr (.inl rfl)
    split at h
    · next name => rw [name]; exact .inr (.inr rfl)
    · cases h
  · cases h

/-- Whether shorthands are looked for inside a block. -/
def isSearched (o : Opener) (body : Content) : Bool :=
  match o with
  | .bracket _ => true
  | .call name => (call? name body).isNone && !CallName.colors.contains name

/-- What is found in a block, by the three things that can become of it. -/
theorem shorthands_block (o : Opener) (t : Text) (body : Content) (closed : Bool) (rest : Content)
    (pos : Nat) :
    (block o t body closed rest).shorthands pos =
      let inner := pos + Text.byteLength t
      let next := inner + body.width + closingWidth closed
      (match whole? o body closed with
        | some s => [⟨pos, next, s⟩]
        | none => if isSearched o body then body.shorthands inner else [])
      ++ rest.shorthands next := by
  cases o with
  | bracket b => rfl
  | call name =>
    rcases Option.eq_none_or_eq_some (call? name body) with nothing | ⟨s, found⟩
    · simp only [shorthands, whole?, isSearched, nothing, ite_self]
      cases CallName.colors.contains name <;> rfl
    · simp only [shorthands, whole?, isSearched, found]
      cases endsInParenthesis body closed <;> rfl

/-! ## The walk -/

/-- `replaced render c` = the text of `c` with `render s` in place of each shorthand `s`.  The number of
    a shorthand of digits is the first of what is written for the rest. -/
def replaced (render : Shorthand → Text) : Content → Text
  | nil => []
  | leaf l rest =>
    match hexShorthand? l rest with
    | some (s, number) => render s ++ (replaced render rest).drop number.text.length
    | none => l.text ++ replaced render rest
  | block o t body closed rest =>
    match whole? o body closed with
    | some s => render s ++ replaced render rest
    | none =>
      t ++ ((if isSearched o body then replaced render body else body.text)
        ++ (closing o closed ++ replaced render rest))

section Replaced

variable (render : Shorthand → Text)

theorem replaced_leaf {l : Lexeme} {rest : Content} (h : hexShorthand? l rest = none) :
    (leaf l rest).replaced render = l.text ++ rest.replaced render := by
  rw [replaced, h]

/-- Digits have their number right behind them. -/
theorem parts_of_hexShorthand? {l n : Lexeme} {s : Shorthand} {rest : Content}
    (h : hexShorthand? l rest = some (s, n)) :
    (∃ digits, l.token = .hash digits) ∧ n.token = .number ∧ ∃ after, rest = leaf n after := by
  unfold hexShorthand? at h
  split at h
  · next digits number after hash =>
    split at h
    · obtain ⟨c, -, h⟩ := Option.bind_eq_some_iff.mp h
      obtain ⟨a, alpha, h⟩ := Option.bind_eq_some_iff.mp h
      obtain ⟨-, rfl⟩ := Prod.mk.inj (Option.some.inj h)
      refine ⟨⟨digits, hash⟩, ?_, after, rfl⟩
      by_cases token : number.token = .number
      · exact token
      · rw [Lexeme.alpha?, if_neg token] at alpha
        cases alpha
    · cases h
  · cases h

/-- What is no hash starts no shorthand. -/
theorem hexShorthand?_of_ne {l : Lexeme} (h : ∀ digits, l.token ≠ .hash digits) (rest : Content) :
    hexShorthand? l rest = none := by
  cases found : hexShorthand? l rest with
  | none => rfl
  | some r =>
    obtain ⟨⟨digits, hash⟩, -⟩ := parts_of_hexShorthand? (s := r.1) (n := r.2) found
    exact absurd hash (h digits)

/-- Where no number follows there is no shorthand. -/
theorem hexShorthand?_of_next {rest : Content} (h : ∀ n after, rest = leaf n after → n.token ≠ .number)
    (l : Lexeme) : hexShorthand? l rest = none := by
  cases found : hexShorthand? l rest with
  | none => rfl
  | some r =>
    obtain ⟨-, number, after, eq⟩ := parts_of_hexShorthand? (s := r.1) (n := r.2) found
    exact absurd number (h r.2 after eq)

theorem replaced_digits {l n : Lexeme} {s : Shorthand} {after : Content}
    (h : hexShorthand? l (leaf n after) = some (s, n)) :
    (leaf l (leaf n after)).replaced render = render s ++ after.replaced render := by
  obtain ⟨-, number, -⟩ := parts_of_hexShorthand? h
  have next := replaced_leaf render (hexShorthand?_of_ne (l := n) (by rw [number]; simp) after)
  rw [replaced, h, next]
  show render s ++ (n.text ++ after.replaced render).drop n.text.length = _
  rw [List.drop_left]

end Replaced

/-- To prove something of every row along the walk: digits are one step with their number. -/
theorem found_induction {P : Content → Prop} (nil : P nil)
    (leaf : ∀ l rest, hexShorthand? l rest = none → P rest → P (leaf l rest))
    (digits : ∀ l n s after, hexShorthand? l (.leaf n after) = some (s, n) → P after
      → P (.leaf l (.leaf n after)))
    (block : ∀ o t body closed rest, P body → P rest → P (block o t body closed rest))
    (c : Content) : P c := by
  -- of a row that starts with a leaf, what is behind it is known too
  suffices h : P c ∧ ∀ n after, c = .leaf n after → P after from h.1
  induction c with
  | nil => exact ⟨nil, by simp⟩
  | leaf l rest ih =>
    refine ⟨?_, fun n after h => ?_⟩
    · cases found : hexShorthand? l rest with
      | none => exact leaf l rest found ih.1
      | some r =>
        obtain ⟨s, n⟩ := r
        obtain ⟨-, -, after, rfl⟩ := parts_of_hexShorthand? found
        exact digits l n s after found (ih.2 n after rfl)
    · injection h with _ h
      exact h ▸ ih.1
  | block o t body closed rest ihb ihr => exact ⟨block o t body closed rest ihb.1 ihr.1, by simp⟩

end Content

/-! ## Spans -/

theorem Text.dropBytes_byteLength (s t : Text) : dropBytes (byteLength s) (s ++ t) = some t := by
  have := dropBytes_append s t 0
  rwa [Nat.add_zero, dropBytes_zero] at this

theorem Text.takeBytes_append_add (s t : Text) (n : Nat) :
    takeBytes (byteLength s + n) (s ++ t) = (takeBytes n t).map (s ++ ·) := by
  induction s with
  | nil => simp
  | cons c s ih =>
    rw [byteLength_cons, Nat.add_assoc, List.cons_append, takeBytes_cons, ih, Option.map_map]
    rfl

/-- A slice can begin earlier, at a known place. -/
theorem Text.slice?_before {done a z between : Text} {stop : Nat}
    (h : slice? (byteLength (done ++ a)) stop (done ++ (a ++ z)) = some between) :
    slice? (byteLength done) stop (done ++ (a ++ z)) = some (a ++ between) := by
  unfold slice? at h ⊢
  split at h
  · next le =>
    rw [byteLength_append] at le
    rw [← List.append_assoc, dropBytes_byteLength, Option.bind_some] at h
    have size : stop - byteLength done = byteLength a + (stop - byteLength (done ++ a)) := by
      rw [byteLength_append]; omega
    rw [if_pos (by omega), dropBytes_byteLength, Option.bind_some, size, takeBytes_append_add, h]
    rfl
  · cases h

/-- What stands before the first span is kept. -/
theorem replaceFrom_before {done a z w : Text} {os : List Occurrence}
    (h : replaceFrom (Text.byteLength (done ++ a)) (done ++ (a ++ z)) os = some w) :
    replaceFrom (Text.byteLength done) (done ++ (a ++ z)) os = some (a ++ w) := by
  cases os with
  | nil =>
    rw [replaceFrom, ← List.append_assoc, Text.dropBytes_byteLength] at h
    obtain rfl := Option.some.inj h
    rw [replaceFrom, Text.dropBytes_byteLength]
  | cons o os =>
    rw [replaceFrom] at h ⊢
    obtain ⟨between, slice, h⟩ := Option.bind_eq_some_iff.mp h
    obtain ⟨rest, replaced, h⟩ := Option.bind_eq_some_iff.mp h
    obtain rfl := Option.some.inj h
    rw [Text.slice?_before slice, replaced]
    simp

/-- A span right here is replaced. -/
theorem replaceFrom_here {done w : Text} {os : List Occurrence} {v : Text} {stop : Nat} {s : Shorthand}
    (h : replaceFrom stop v os = some w) {z : Text} (hv : v = done ++ z) :
    replaceFrom (Text.byteLength done) v (⟨Text.byteLength done, stop, s⟩ :: os)
      = some (s.standard ++ w) := by
  have nothing : Text.slice? (Text.byteLength done) (Text.byteLength done) v = some [] := by
    rw [hv]
    exact Text.slice?_append done [] z
  rw [replaceFrom, nothing, h]
  rfl

/-- **Cutting at the spans of a row is the walk along it**: if what lies behind the row becomes `w`, then
    the row and what lies behind it become the replaced row and `w`. -/
theorem replaceFrom_shorthands (c : Content) (done z w : Text) (os : List Occurrence)
    (h : replaceFrom (Text.byteLength (done ++ c.text)) (done ++ (c.text ++ z)) os = some w) :
    replaceFrom (Text.byteLength done) (done ++ (c.text ++ z)) (c.shorthands (Text.byteLength done) ++ os)
      = some (c.replaced Shorthand.standard ++ w) := by
  induction c using Content.found_induction generalizing done z w os with
  | nil =>
    rw [text_nil, List.append_nil] at h
    exact h
  | leaf l rest none_found ih =>
    have split : done ++ ((leaf l rest).text ++ z) = (done ++ l.text) ++ (rest.text ++ z) := by
      simp only [text_leaf, List.append_assoc]
    have behind : done ++ (leaf l rest).text = (done ++ l.text) ++ rest.text := by
      rw [text_leaf, List.append_assoc]
    rw [split, behind] at h
    have step := ih (done ++ l.text) z w os h
    rw [List.append_assoc] at step
    rw [shorthands, none_found, replaced_leaf _ none_found, text_leaf, List.append_assoc, List.append_assoc,
      ← Text.byteLength_append]
    exact replaceFrom_before step
  | digits l n s after found ih =>
    have split : done ++ ((leaf l (leaf n after)).text ++ z)
        = (done ++ l.text ++ n.text) ++ (after.text ++ z) := by
      simp only [text_leaf, List.append_assoc]
    have behind : done ++ (leaf l (leaf n after)).text = (done ++ l.text ++ n.text) ++ after.text := by
      simp only [text_leaf, List.append_assoc]
    rw [split, behind] at h
    have step := ih (done ++ l.text ++ n.text) z w os h
    obtain ⟨-, number, -⟩ := parts_of_hexShorthand? found
    have none_found := hexShorthand?_of_ne (l := n) (by rw [number]; simp) after
    rw [replaced_digits _ found, shorthands, found, List.append_assoc]
    dsimp only
    rw [shorthands, none_found, ← Text.byteLength_append, ← Text.byteLength_append, split]
    exact replaceFrom_here step (by simp only [List.append_assoc]; rfl)
  | block o t body closed rest ihb ihr =>
    rw [shorthands_block, replaced]
    have next : Text.byteLength done + Text.byteLength t + body.width + closingWidth closed
        = Text.byteLength (done ++ t ++ body.text ++ closing o closed) := by
      simp only [Text.byteLength_append, width_eq, byteLength_closing]
    have split : done ++ ((block o t body closed rest).text ++ z)
        = (done ++ t ++ body.text ++ closing o closed) ++ (rest.text ++ z) := by
      simp only [text_block, List.append_assoc]
    have behind : done ++ (block o t body closed rest).text
        = (done ++ t ++ body.text ++ closing o closed) ++ rest.text := by
      simp only [text_block, List.append_assoc]
    rw [split, behind] at h
    have step := ihr _ z w os h
    simp only [next]
    cases whole? o body closed with
    | some s =>
      -- the whole block is one span
      dsimp only
      rw [split, List.append_assoc s.standard]
      exact replaceFrom_here step (by simp only [List.append_assoc]; rfl)
    | none =>
      dsimp only
      rw [List.append_assoc (done ++ t ++ body.text)] at step
      have closed_kept := replaceFrom_before step
      have inside : replaceFrom (Text.byteLength (done ++ t))
          ((done ++ t) ++ (body.text ++ (closing o closed ++ (rest.text ++ z))))
          ((if isSearched o body then body.shorthands (Text.byteLength (done ++ t)) else [])
            ++ (rest.shorthands (Text.byteLength (done ++ t ++ body.text ++ closing o closed)) ++ os))
          = some ((if isSearched o body then body.replaced Shorthand.standard else body.text)
            ++ (closing o closed ++ (rest.replaced Shorthand.standard ++ w))) := by
        rw [List.append_assoc (done ++ t)] at closed_kept
        split
        · exact ihb _ _ _ _ closed_kept
        · exact replaceFrom_before closed_kept
      rw [List.append_assoc done] at inside
      have opened_kept := replaceFrom_before inside
      rw [Text.byteLength_append done] at opened_kept
      simp only [text_block, List.append_assoc] at opened_kept ⊢
      exact opened_kept

/-- **The expansion of a value** is the walk along its tree, if anything is found on it. -/
theorem expand_eq_replaced {v : Text} (h : (ofText v).depth ≤ maxSearchDepth) :
    expand v
      = if occurrencesIn v = [] then none else some ((ofText v).replaced Shorthand.standard) := by
  have walk := replaceFrom_shorthands (ofText v) [] [] [] [] (by
    rw [List.nil_append, List.append_nil]
    have all := Text.dropBytes_byteLength (ofText v).text []
    rwa [List.append_nil] at all)
  rw [List.nil_append, List.append_nil, List.append_nil, List.append_nil, text_ofText] at walk
  rw [expand, occurrencesIn_eq, occurrences_outside h]
  split
  · next none_found => rw [if_pos none_found]
  · next some_found => rw [if_neg some_found]; exact walk

namespace Content

/-- The walk asks for nothing but the shorthands of the row. -/
theorem replaced_congr {f g : Shorthand → Text} (c : Content) (pos : Nat)
    (h : ∀ o ∈ c.shorthands pos, f o.shorthand = g o.shorthand) : c.replaced f = c.replaced g := by
  induction c using found_induction generalizing pos with
  | nil => rfl
  | leaf l rest none_found ih =>
    rw [shorthands, none_found] at h
    rw [replaced_leaf f none_found, replaced_leaf g none_found, ih _ h]
  | digits l n s after found ih =>
    obtain ⟨-, number, -⟩ := parts_of_hexShorthand? found
    rw [shorthands, found] at h
    dsimp only at h
    rw [shorthands, hexShorthand?_of_ne (by rw [number]; simp)] at h
    rw [replaced_digits f found, replaced_digits g found, h _ List.mem_cons_self,
      ih _ fun o ho => h o (List.mem_cons_of_mem _ ho)]
  | block o t body closed rest ihb ihr =>
    rw [shorthands_block] at h
    have behind := ihr _ fun o ho => h o (List.mem_append_right _ ho)
    rw [replaced, replaced, behind]
    cases found : whole? o body closed with
    | some s =>
      rw [found] at h
      exact congrArg (· ++ rest.replaced g) (h _ List.mem_cons_self)
    | none =>
      by_cases searched : isSearched o body = true
      · simp only [found, if_pos searched] at h
        simp only [if_pos searched]
        rw [ihb _ fun o ho => h o (List.mem_append_left _ ho)]
      · simp only [if_neg searched]

end Content

end Translucent
