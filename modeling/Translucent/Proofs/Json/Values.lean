import Translucent.Proofs.Json.Tokens
import Translucent.Text.Blank

/-!
  # The checker reads all values

  1. **Ends** — `Ended`: a value has ended, although it may be a number that could still go on.  What follows a
     value in a container ends it (`Ended.step`).
  2. **Starts** — `Written.first`: the first character of a value tells objects and arrays from the rest, and is
     never blank.
  3. **Whole values** — `run_layout`, by induction on how a value is written, with one lemma for each kind of
     container.
-/

namespace Translucent.Json

/-! ## Ends -/

namespace State

/-- Whether a value has ended within the containers `stack`. -/
def Ended (stack : List Container) (s : State) : Prop :=
  s = ⟨stack, .after⟩ ∨ ∃ p : NumberPlace, p.complete = true ∧ s = ⟨stack, .number p⟩

/-- What may follow a value. -/
def isEnd (c : Char) : Bool := isSpace c || c == ',' || c == ']' || c == '\x7d'

/-- **Behind a value** a number is like any other. -/
theorem Ended.step {stack : List Container} {s : State} (h : Ended stack s) {c : Char} (hc : isEnd c = true) :
    s.step c = stepAfter stack c := by
  rcases h with rfl | ⟨p, complete, rfl⟩
  · rfl
  · have ends : p.step c = none := by
      simp only [isEnd, isSpace, Bool.or_eq_true, beq_iff_eq] at hc
      rcases hc with (((((rfl | rfl) | rfl) | rfl) | rfl) | rfl) | rfl
      all_goals
        cases p with
        | sign | point | exponent | exponentSign => cases complete
        | zero | whole | fraction | exponentDigits => rfl
    simp only [State.step, ends, complete, if_true]

/-- White space behind a value. -/
theorem Ended.gap {stack : List Container} {s : State} (h : Ended stack s) {g : Text} (hg : IsGap g) :
    ∃ s', s.run g = some s' ∧ Ended stack s' := by
  cases g with
  | nil => exact ⟨s, rfl, h⟩
  | cons c g =>
    have space := hg c List.mem_cons_self
    have one : s.step c = some ⟨stack, .after⟩ := (h.step (by simp [isEnd, space])).trans (if_pos space)
    refine ⟨⟨stack, .after⟩, ?_, .inl rfl⟩
    rw [run_cons one]
    exact run_gap rfl (fun d hd => hg d (List.mem_cons_of_mem _ hd)) stack

end State

/-! ## Starts -/

/-- `v.Opens c`: the character `c` may be the first one of the value `v`. -/
def Value.Opens : Value → Char → Prop
  | .object _, c => c = '\x7b'
  | .array _, c => c = '['
  | _, c => c = 'n' ∨ c = 't' ∨ c = 'f' ∨ c = '\x22' ∨ c = '-' ∨ c.isDigit = true

/-- A value starts with a character of its kind. -/
theorem Written.first {v : Value} {t : Text} (h : Written v t) : ∃ c u, t = c :: u ∧ v.Opens c := by
  cases h with
  | null => exact ⟨'n', _, rfl, .inl rfl⟩
  | yes => exact ⟨'t', _, rfl, .inr (.inl rfl)⟩
  | no => exact ⟨'f', _, rfl, .inr (.inr (.inl rfl))⟩
  | number literal valid =>
    obtain ⟨c, u, -, -, rfl, first, -⟩ := NumberPlace.run_number valid
    exact ⟨c, u, rfl, .inr (.inr (.inr (.inr first)))⟩
  | string h =>
    obtain ⟨u, -, rfl⟩ := h
    exact ⟨'\x22', _, rfl, .inr (.inr (.inr (.inl rfl)))⟩
  | emptyArray hg => exact ⟨'[', _, rfl, rfl⟩
  | array h => exact ⟨'[', _, rfl, rfl⟩
  | emptyObject hg => exact ⟨'\x7b', _, rfl, rfl⟩
  | object h => exact ⟨'\x7b', _, rfl, rfl⟩

/-- White space of JSON is blank. -/
theorem isBlank_of_isSpace {c : Char} (h : isSpace c = true) : Text.isBlank c = true := by
  simp only [isSpace, Bool.or_eq_true, beq_iff_eq] at h
  rcases h with ((rfl | rfl) | rfl) | rfl <;> rfl

/-- What starts a value is not blank, and closes no array. -/
theorem Value.Opens.ne {v : Value} {c : Char} (h : v.Opens c) :
    Text.isBlank c = false ∧ isSpace c = false ∧ c ≠ ']' := by
  suffices apart : Text.isBlank c = false ∧ c ≠ ']' by
    refine ⟨apart.1, Bool.eq_false_iff.mpr fun space => ?_, apart.2⟩
    exact Bool.false_ne_true (apart.1.symm.trans (isBlank_of_isSpace space))
  have digit (hc : c.isDigit = true) : Text.isBlank c = false ∧ c ≠ ']' := by
    constructor
    · refine Bool.eq_false_iff.mpr fun blank => ?_
      unfold Char.isDigit at hc
      unfold Text.isBlank Char.toNat at blank
      simp only [Bool.and_eq_true, decide_eq_true_eq, UInt32.le_iff_toNat_le, ge_iff_le, Char.reduceVal,
        UInt32.reduceToNat] at hc
      simp only [Bool.or_eq_true, Bool.and_eq_true, decide_eq_true_eq, beq_iff_eq] at blank
      omega
    · rintro rfl
      exact absurd hc (by decide)
  cases v with
  | object ms =>
    obtain rfl := h
    decide
  | array vs =>
    obtain rfl := h
    decide
  | null | bool | number | string =>
    rcases h with rfl | rfl | rfl | rfl | rfl | hc
    · decide
    · decide
    · decide
    · decide
    · decide
    · exact digit hc

/-! ## Whole values -/

namespace State

/-- Whether a value comes next. -/
def ExpectsValue (p : Place) : Prop := p = .value ∨ p = .firstValue

/-- Whether a name comes next. -/
def ExpectsName (p : Place) : Prop := p = .name ∨ p = .firstName

/-- Where a value comes next, its first character is read as such. -/
theorem step_opens {v : Value} {c : Char} (h : v.Opens c) {p : Place} (hp : ExpectsValue p) (stack : List Container) :
    step ⟨stack, p⟩ c = stepValue stack c := by
  obtain ⟨-, space, close⟩ := h.ne
  rcases hp with rfl | rfl
  · simp [step, space]
  · simp [step, space, close]

/-- **A name is read** with the gaps around it. -/
theorem run_name {n t : Text} (h : NameLayout n t) {p : Place} (hp : ExpectsName p) (stack : List Container) :
    run ⟨stack, p⟩ t = some ⟨stack, .colon⟩ := by
  obtain ⟨g, q, g', hg, ⟨u, spelled, rfl⟩, hg', rfl⟩ := h
  have between : p.isBetween = true := by rcases hp with rfl | rfl <;> rfl
  have opens : step ⟨stack, p⟩ '\x22' = some ⟨stack, .string true (stack.length == 1) .body⟩ := by
    rcases hp with rfl | rfl <;> rfl
  have chars : ∀ x ∈ n.map Symbol.char, ∃ c, x = .char c := by
    intro x hx
    obtain ⟨c, -, rfl⟩ := List.mem_map.mp hx
    exact ⟨c, rfl⟩
  rw [run_append (run_gap between hg stack), List.cons_append, run_cons opens,
    run_append (run_quoted spelled (fun _ => chars) stack true)]
  exact run_gap rfl hg' stack

/-- **A container is read** from its first bracket to its last, if what is in it is read to its end. -/
theorem run_container {k : Container} {o c : Char} {p : Place} {t : Text} {stack : List Container}
    (opens : step ⟨stack, .value⟩ o = some ⟨k :: stack, p⟩)
    (inside : ∃ s, run ⟨k :: stack, p⟩ t = some s ∧ Ended (k :: stack) s) (ends : isEnd c = true)
    (closes : stepAfter (k :: stack) c = some ⟨stack, .after⟩) :
    run ⟨stack, .value⟩ (o :: (t ++ [c])) = some ⟨stack, .after⟩ := by
  obtain ⟨s, read, ended⟩ := inside
  rw [run_cons opens, run_append read, run_cons ((ended.step ends).trans closes)]
  rfl

/-- **A number is read** wherever a value may stand. -/
theorem run_literal {t : Text} (h : IsNumber t) (stack : List Container) :
    ∃ s, run ⟨stack, .value⟩ t = some s ∧ Ended stack s := by
  have first := (Written.number t h).first
  obtain ⟨c, u, p, q, rfl, -, start, read, complete⟩ := NumberPlace.run_number h
  obtain ⟨d, w, cut, opens⟩ := first
  obtain ⟨rfl, rfl⟩ := List.cons.inj cut
  refine ⟨⟨stack, .number q⟩, ?_, .inr ⟨q, complete, rfl⟩⟩
  have one := (step_opens opens (.inl rfl) stack).trans (stepValue_number start stack)
  rw [run_cons one]
  exact run_place read stack

mutual

/-- A value is read from its first character to its end. -/
theorem run_written {v : Value} {t : Text} (h : Written v t) (stack : List Container) :
    ∃ s, run ⟨stack, .value⟩ t = some s ∧ Ended stack s :=
  match h with
  | .null => ⟨_, rfl, .inl rfl⟩
  | .yes => ⟨_, rfl, .inl rfl⟩
  | .no => ⟨_, rfl, .inl rfl⟩
  | .number _ valid => run_literal valid stack
  | .string (t := t) h => by
    obtain ⟨u, spelled, rfl⟩ := h
    refine ⟨⟨stack, .after⟩, ?_, .inl rfl⟩
    exact run_quoted spelled (fun proper : false = true => absurd proper Bool.false_ne_true) stack false
  | .emptyArray hg => by
    refine ⟨⟨stack, .after⟩, ?_, .inl rfl⟩
    show run ⟨.array :: stack, .firstValue⟩ _ = _
    rw [run_append (run_gap rfl hg _)]
    rfl
  | .array h => ⟨_, run_container rfl (run_elements h stack (.inr rfl)) rfl rfl, .inl rfl⟩
  | .emptyObject hg => by
    refine ⟨⟨stack, .after⟩, ?_, .inl rfl⟩
    show run ⟨.object :: stack, .firstName⟩ _ = _
    rw [run_append (run_gap rfl hg _)]
    rfl
  | .object h => ⟨_, run_container rfl (run_members h stack (.inr rfl)) rfl rfl, .inl rfl⟩

/-- **A value is read** with the gaps around it. -/
theorem run_layout {v : Value} {t : Text} (h : Layout v t) (stack : List Container) {p : Place}
    (hp : ExpectsValue p) : ∃ s, run ⟨stack, p⟩ t = some s ∧ Ended stack s :=
  match h with
  | .mk (g := g) hg h hg' => by
    obtain ⟨s, read, ended⟩ := run_written h stack
    obtain ⟨c, u, rfl, opens⟩ := h.first
    have between : p.isBetween = true := by rcases hp with rfl | rfl <;> rfl
    have same : run ⟨stack, p⟩ (c :: u) = some s := by
      rw [← read, run, run, List.foldlM_cons, List.foldlM_cons, step_opens opens hp, step_opens opens (.inl rfl)]
    obtain ⟨s', behind, ended'⟩ := ended.gap hg'
    refine ⟨s', ?_, ended'⟩
    rw [run_append (run_gap between hg stack), run_append same, behind]

/-- The elements of an array. -/
theorem run_elements {vs : List Value} {t : Text} (h : Elements vs t) (stack : List Container) {p : Place}
    (hp : ExpectsValue p) : ∃ s, run ⟨.array :: stack, p⟩ t = some s ∧ Ended (.array :: stack) s :=
  match h with
  | .last h => run_layout h (.array :: stack) hp
  | .more h rest => by
    obtain ⟨s, read, ended⟩ := run_layout h (.array :: stack) hp
    obtain ⟨s', behind, ended'⟩ := run_elements rest stack (.inl rfl)
    refine ⟨s', ?_, ended'⟩
    rw [run_append read, run_cons (ended.step (c := ',') rfl)]
    exact behind

/-- The members of an object. -/
theorem run_members {ms : List (Text × Value)} {t : Text} (h : Members ms t) (stack : List Container) {p : Place}
    (hp : ExpectsName p) : ∃ s, run ⟨.object :: stack, p⟩ t = some s ∧ Ended (.object :: stack) s :=
  match h with
  | .last name h => by
    obtain ⟨s, read, ended⟩ := run_layout h (.object :: stack) (.inl rfl)
    refine ⟨s, ?_, ended⟩
    rw [run_append (run_name name hp _)]
    exact read
  | .more name h rest => by
    obtain ⟨s, read, ended⟩ := run_layout h (.object :: stack) (.inl rfl)
    obtain ⟨s', behind, ended'⟩ := run_members rest stack (.inl rfl)
    refine ⟨s', ?_, ended'⟩
    rw [run_append (run_name name hp _)]
    show run ⟨.object :: stack, .value⟩ _ = _
    rw [run_append read, run_cons (ended.step (c := ',') rfl)]
    exact behind

end

end State

end Translucent.Json
