import Translucent.Options
import Translucent.Proofs.Json.Values

/-!
  # Which texts are options

  1. **Behind the end** — `run_finish`: when the value of the whole text has been read, nothing but white space may
     follow.
  2. **The last bracket** — one step opens a container, closes one, or does neither (`step_cases`).  So outside all
     containers the checker is before the value of the text or behind it (`Rooted`), and it gets from one to
     the other by closing a bracket (`Rooted.lastBracket`).
  3. **Whole texts** — of all values, objects and the empty array are accepted (`isObject_layout`).

  **Main statement** — `Options.ofJson_exact`.
-/

namespace Translucent.Json

/-- `BeforeBracket body t`: behind `body`, the text `t` goes on with a closing bracket and then with white space only.
    So it is the last bracket of `t`, and there is one `body` at most. -/
def BeforeBracket (body t : Text) : Prop := ∃ b g, t = body ++ b :: g ∧ (b = '\x7d' ∨ b = ']') ∧ IsGap g

namespace State

/-! ## Behind the end -/

/-- The state behind the value of the whole text. -/
def finish : State := ⟨[], .after⟩

theorem complete_iff {s : State} : s.complete = true ↔ s = finish := by
  obtain ⟨stack, place⟩ := s
  rw [complete, finish, Bool.and_eq_true, List.isEmpty_iff, beq_iff_eq, State.mk.injEq]

theorem step_finish {c : Char} {s : State} (h : finish.step c = some s) : isSpace c = true ∧ s = finish := by
  by_cases space : isSpace c = true
  · have same : finish.step c = some finish := if_pos space
    exact ⟨space, Option.some.inj (h.symm.trans same)⟩
  · have none : finish.step c = none := if_neg space
    cases none.symm.trans h

/-- **Behind the end** there is only white space. -/
theorem run_finish {t : Text} {s : State} (h : finish.run t = some s) : IsGap t := by
  induction t with
  | nil => exact isGap_nil
  | cons c t ih =>
    obtain ⟨s', one, rest⟩ := Option.bind_eq_some_iff.mp h
    obtain ⟨space, rfl⟩ := step_finish one
    intro d hd
    rcases List.mem_cons.mp hd with rfl | hd
    · exact space
    · exact ih rest d hd

/-! ## The last bracket -/

/-- `s.Change c s'`: how the open containers may change from `s` to `s'` at the character `c`. -/
inductive Change (s : State) (c : Char) (s' : State) : Prop
  /-- None is opened or closed. -/
  | keeps (same : s'.stack = s.stack)
  /-- One is opened. -/
  | opens (k : Container) (inner : s'.stack = k :: s.stack)
  /-- The innermost one is closed, by a bracket, and the value that it is has been read. -/
  | closes (k : Container) (outer : s.stack = k :: s'.stack) (behind : s'.place = .after)
      (bracket : c = '\x7d' ∨ c = ']')

namespace Change

variable {stack : List Container} {p q : Place} {c : Char} {s' : State}

theorem of_same (h : some (State.mk stack q) = some s') : Change ⟨stack, p⟩ c s' := by
  obtain rfl := Option.some.inj h
  exact .keeps rfl

theorem of_inner {k : Container} (h : some (State.mk (k :: stack) q) = some s') : Change ⟨stack, p⟩ c s' := by
  obtain rfl := Option.some.inj h
  exact .opens k rfl

/-- A closing bracket, where there may be no container to close. -/
theorem of_tail (bracket : c = '\x7d' ∨ c = ']') (h : some (State.mk stack.tail .after) = some s') :
    Change ⟨stack, p⟩ c s' := by
  obtain rfl := Option.some.inj h
  cases stack with
  | nil => exact .keeps rfl
  | cons k outer => exact .closes k rfl rfl bracket

theorem of_stepValue (h : stepValue stack c = some s') : Change ⟨stack, p⟩ c s' := by
  unfold stepValue at h
  split at h
  · exact of_inner h
  · exact of_inner h
  · exact of_same h
  · exact of_same h
  · exact of_same h
  · exact of_same h
  · obtain ⟨n, -, h⟩ := Option.bind_eq_some_iff.mp h
    exact of_same h

theorem of_stepName (h : stepName stack c = some s') : Change ⟨stack, p⟩ c s' := by
  unfold stepName at h
  split at h
  · exact of_same h
  · cases h

theorem of_stepAfter (h : stepAfter stack c = some s') : Change ⟨stack, p⟩ c s' := by
  unfold stepAfter at h
  split at h
  · exact of_same h
  · split at h
    · exact of_same h
    · exact of_same h
    · exact of_tail (.inl rfl) h
    · exact of_tail (.inr rfl) h
    · cases h

end Change

/-- **One step** opens a container, closes one, or does neither. -/
theorem step_cases {s s' : State} {c : Char} (h : s.step c = some s') : Change s c s' := by
  obtain ⟨stack, place⟩ := s
  cases place with
  | document =>
    simp only [step] at h
    split at h
    · exact .of_same h
    · split at h
      · exact .of_inner h
      · split at h
        · exact .of_inner h
        · cases h
  | emptyArray =>
    simp only [step] at h
    split at h
    · exact .of_same h
    · split at h
      · next bracket => exact .of_tail (.inr bracket) h
      · cases h
  | value =>
    simp only [step] at h
    split at h
    · exact .of_same h
    · exact .of_stepValue h
  | firstValue =>
    simp only [step] at h
    split at h
    · exact .of_same h
    · split at h
      · next bracket => exact .of_tail (.inr bracket) h
      · exact .of_stepValue h
  | firstName =>
    simp only [step] at h
    split at h
    · exact .of_same h
    · split at h
      · next bracket => exact .of_tail (.inl bracket) h
      · exact .of_stepName h
  | name =>
    simp only [step] at h
    split at h
    · exact .of_same h
    · exact .of_stepName h
  | colon =>
    simp only [step] at h
    split at h
    · exact .of_same h
    · split at h
      · exact .of_same h
      · cases h
  | after => exact .of_stepAfter h
  | string isName proper p =>
    obtain ⟨q, -, h⟩ := Option.bind_eq_some_iff.mp h
    cases q with
    | done => exact .of_same h
    | body | escape | code | half | halfEscape | halfCode => exact .of_same h
  | number p =>
    simp only [step] at h
    split at h
    · exact .of_same h
    · split at h
      · exact .of_stepAfter h
      · cases h
  | word rest =>
    cases rest with
    | nil => cases h
    | cons d more =>
      simp only [step] at h
      split at h
      · exact .of_same h
      · cases h

/-- Outside all containers a state is before the value of the whole text or behind it. -/
def Rooted (s : State) : Prop := s.stack = [] → s = start ∨ s = finish

theorem step_start {c : Char} {s : State} (h : start.step c = some s) (outside : s.stack = []) : s = start := by
  simp only [step, start] at h
  split at h
  · exact (Option.some.inj h).symm
  · split at h
    · obtain rfl := Option.some.inj h
      cases outside
    · split at h
      · obtain rfl := Option.some.inj h
        cases outside
      · cases h

theorem Rooted.step {s s' : State} {c : Char} (rooted : s.Rooted) (h : s.step c = some s') : s'.Rooted := by
  intro outside
  cases step_cases h with
  | keeps same =>
    rcases rooted (same.symm.trans outside) with rfl | rfl
    · exact .inl (step_start h outside)
    · exact .inr (step_finish h).2
  | opens k inner => cases inner.symm.trans outside
  | closes k outer behind bracket =>
    obtain ⟨stack, place⟩ := s'
    obtain rfl : stack = [] := outside
    obtain rfl : place = .after := behind
    exact .inr rfl

/-- Only a bracket leads to the end. -/
theorem Rooted.lastStep {s : State} {c : Char} (rooted : s.Rooted) (h : s.step c = some finish) :
    s = finish ∨ c = '\x7d' ∨ c = ']' := by
  cases step_cases h with
  | keeps same =>
    rcases rooted same.symm with rfl | rfl
    · cases step_start h rfl
    · exact .inl rfl
  | opens k inner => cases inner
  | closes k outer behind bracket => exact .inr bracket

/-- **Whatever has been read**, the state is rooted. -/
theorem Rooted.run {s s' : State} {t : Text} (rooted : s.Rooted) (h : s.run t = some s') : s'.Rooted := by
  induction t generalizing s with
  | nil =>
    obtain rfl := Option.some.inj h
    exact rooted
  | cons c t ih =>
    obtain ⟨r, one, rest⟩ := Option.bind_eq_some_iff.mp h
    exact ih (rooted.step one) rest

/-- **What leads to the end** is white space if it starts there, and has a last bracket if not. -/
theorem Rooted.lastBracket {s : State} {t : Text} (rooted : s.Rooted) (h : s.run t = some finish) :
    (s = finish ∧ IsGap t) ∨ ∃ body, BeforeBracket body t := by
  induction t generalizing s with
  | nil => exact .inl ⟨Option.some.inj h, isGap_nil⟩
  | cons c t ih =>
    obtain ⟨r, one, rest⟩ := Option.bind_eq_some_iff.mp h
    rcases ih (rooted.step one) rest with ⟨rfl, gap⟩ | ⟨body, b, g, rfl, bracket, gap⟩
    · rcases rooted.lastStep one with rfl | bracket
      · exact .inl ⟨rfl, run_finish h⟩
      · exact .inr ⟨[], c, t, rfl, bracket, gap⟩
    · exact .inr ⟨c :: body, b, g, rfl, bracket, gap⟩

theorem rooted_start : start.Rooted := fun _ => .inl rfl

end State

/-! ## Whole texts -/

theorem isObject_iff {t : Text} : isObject t = true ↔ State.start.run t = some State.finish := by
  unfold isObject
  cases State.start.run t with
  | none => simp only [Option.map_none, Option.getD_none, Bool.false_eq_true, reduceCtorEq]
  | some s => rw [Option.map_some, Option.getD_some, State.complete_iff, Option.some.injEq]

theorem Layout.first {v : Value} {t : Text} (h : Layout v t) :
    ∃ g c u, t = g ++ c :: u ∧ IsGap g ∧ v.Opens c := by
  obtain ⟨hg, written, -⟩ := h
  obtain ⟨c, u, rfl, opens⟩ := written.first
  exact ⟨_, c, _, rfl, hg, opens⟩

theorem Elements.first {vs : List Value} {t : Text} (h : Elements vs t) :
    ∃ g c u, t = g ++ c :: u ∧ IsGap g ∧ isSpace c = false ∧ c ≠ ']' := by
  cases h with
  | last h =>
    obtain ⟨g, c, u, rfl, gap, opens⟩ := h.first
    exact ⟨g, c, u, rfl, gap, opens.ne.2⟩
  | more h rest =>
    obtain ⟨g, c, u, rfl, gap, opens⟩ := h.first
    exact ⟨g, c, _, List.append_assoc .., gap, opens.ne.2⟩

namespace State

/-- An object is read to the end. -/
theorem run_object {ms : List (Text × Value)} {t : Text} (h : Written (.object ms) t) :
    start.run t = some finish := by
  obtain ⟨s, read, ended⟩ := run_written h []
  obtain ⟨c, u, rfl, rfl⟩ := h.first
  -- the text and what is in a container take an opening bracket alike
  have whole : start.run ('\x7b' :: u) = some s := read
  rcases ended with rfl | ⟨p, -, rfl⟩
  · exact whole
  · rcases rooted_start.run whole rfl with same | same
    · cases same
    · cases same

/-- So is an empty array. -/
theorem run_emptyArray {t : Text} (h : Written (.array []) t) : start.run t = some finish := by
  cases h with
  | emptyArray hg =>
    show run ⟨[.array], .emptyArray⟩ _ = _
    rw [run_append (run_gap rfl hg _)]
    rfl
  | array elements => cases elements

/-- Another array is not: its first element is no closing bracket. -/
theorem run_array {v : Value} {vs : List Value} {t : Text} (h : Written (.array (v :: vs)) t) :
    start.run t = none := by
  cases h with
  | @array _ t elements =>
    obtain ⟨g, c, u, rfl, gap, space, close⟩ := elements.first
    have stuck : step ⟨[.array], .emptyArray⟩ c = none := by simp [step, space, close]
    show run ⟨[.array], .emptyArray⟩ _ = _
    rw [List.append_assoc, run_append (run_gap rfl gap _), List.cons_append, run_cons_none stuck]

/-- Nor is a value that is no container. -/
theorem run_other {v : Value} {t : Text} (h : Written v t) (no_object : ∀ ms, v ≠ .object ms)
    (no_array : ∀ vs, v ≠ .array vs) : start.run t = none := by
  obtain ⟨c, u, rfl, opens⟩ := h.first
  have space := opens.ne.2.1
  have stuck : start.step c = none := by
    cases v with
    | object ms => exact absurd rfl (no_object ms)
    | array vs => exact absurd rfl (no_array vs)
    | null | bool | number | string =>
      change c = 'n' ∨ c = 't' ∨ c = 'f' ∨ c = '\x22' ∨ c = '-' ∨ c.isDigit = true at opens
      have no_brace : c ≠ '\x7b' := by
        rintro rfl
        exact absurd opens (by decide)
      have no_bracket : c ≠ '[' := by
        rintro rfl
        exact absurd opens (by decide)
      simp [step, start, space, no_brace, no_bracket]
  exact run_cons_none stuck u

end State

/-- **Of all values**, in any layout, objects and the empty array are accepted. -/
theorem isObject_layout {v : Value} {t : Text} (h : Layout v t) :
    isObject t = true ↔ (∃ ms, v = .object ms) ∨ v = .array [] := by
  obtain @⟨_, g, t, g', hg, written, hg'⟩ := h
  rw [isObject_iff, State.run_append (State.run_gap rfl hg _)]
  have read (h : State.start.run t = some State.finish) : State.start.run (t ++ g') = some State.finish :=
    (State.run_append h g').trans (State.run_gap rfl hg' _)
  have stuck (h : State.start.run t = none) : State.start.run (t ++ g') ≠ some State.finish := by
    rw [State.run_append_none h]
    exact nofun
  cases v with
  | object ms => exact iff_of_true (read (State.run_object written)) (.inl ⟨ms, rfl⟩)
  | array vs =>
    cases vs with
    | nil => exact iff_of_true (read (State.run_emptyArray written)) (.inr rfl)
    | cons v vs =>
      refine iff_of_false (stuck (State.run_array written)) ?_
      rintro (⟨ms, same⟩ | same)
      · cases same
      · cases same
  | null | bool | number | string =>
    refine iff_of_false (stuck (State.run_other written (fun _ same => ?_) (fun _ same => ?_))) ?_
    · cases same
    · cases same
    · rintro (⟨ms, same⟩ | same)
      · cases same
      · cases same

/-- No layout is blank. -/
theorem Layout.not_blank {v : Value} {t : Text} (h : Layout v t) : ¬Text.Blank t := by
  obtain ⟨g, c, u, rfl, -, opens⟩ := h.first
  intro blank
  have one := blank c (List.mem_append_right g List.mem_cons_self)
  exact Bool.false_ne_true (opens.ne.1.symm.trans one)

end Translucent.Json

namespace Translucent.Options

/-! ## Options -/

/-- A text is accepted if it is blank or an object; otherwise it is malformed. -/
theorem ofJson_cases (t : Text) : (ofJson t = .ok {} ∧ (Text.Blank t ∨ Json.isObject t = true))
    ∨ (ofJson t = .error .malformed ∧ ¬Text.Blank t ∧ Json.isObject t ≠ true) := by
  have blank_iff : (Text.trim t).isEmpty = true ↔ Text.Blank t := List.isEmpty_iff.trans Text.trim_eq_nil_iff
  unfold ofJson
  split
  · next blank => exact .inl ⟨rfl, .inl (blank_iff.mp blank)⟩
  · next blank =>
    split
    · next object => exact .inl ⟨rfl, .inr object⟩
    · next object => exact .inr ⟨rfl, blank ∘ blank_iff.mpr, object⟩

theorem ofJson_eq_ok_iff {t : Text} : ofJson t = .ok {} ↔ Text.Blank t ∨ Json.isObject t = true := by
  rcases ofJson_cases t with ⟨h, accepted⟩ | ⟨h, blank, object⟩
  · exact iff_of_true h accepted
  · refine iff_of_false (fun ok => ?_) (fun accepted => accepted.elim blank object)
    cases h.symm.trans ok

theorem ofJson_eq_error {t : Text} (h : ofJson t ≠ .ok {}) : ofJson t = .error .malformed := by
  rcases ofJson_cases t with ⟨ok, -⟩ | ⟨error, -⟩
  · exact absurd ok h
  · exact error

/-- What is accepted and not blank is read to its end. -/
theorem run_of_ofJson {t : Text} (accepted : ofJson t = .ok {}) (blank : ¬Text.Blank t) :
    Json.State.start.run t = some Json.State.finish :=
  Json.isObject_iff.mp ((ofJson_eq_ok_iff.mp accepted).resolve_left blank)

/-- **Behind an object** anything but white space is an error. -/
theorem ofJson_append {t u : Text} (accepted : ofJson t = .ok {}) (blank : ¬Text.Blank t) {c : Char} (hc : c ∈ u)
    (space : Json.isSpace c = false) : ofJson (t ++ u) = .error .malformed := by
  refine ofJson_eq_error fun both => ?_
  have blank' : ¬Text.Blank (t ++ u) := fun h => blank fun d hd => h d (List.mem_append_left u hd)
  have read := run_of_ofJson both blank'
  rw [Json.State.run_append (run_of_ofJson accepted blank)] at read
  have gap := Json.State.run_finish read
  exact Bool.false_ne_true (space.symm.trans (gap c hc))

/-- **Before its last bracket** a text may not end. -/
theorem ofJson_prefix {t body p : Text} (accepted : ofJson t = .ok {}) (cut : Json.BeforeBracket body t)
    (first : p <+: body) (blank : ¬Text.Blank p) : ofJson p = .error .malformed := by
  obtain ⟨rest, rfl⟩ := first
  obtain ⟨b, g, rfl, bracket, -⟩ := cut
  have space : Json.isSpace b = false := by rcases bracket with rfl | rfl <;> rfl
  refine ofJson_eq_error fun early => ?_
  have late : b ∈ rest ++ b :: g := List.mem_append_right rest List.mem_cons_self
  have error := ofJson_append early blank late space
  rw [← List.append_assoc] at error
  cases accepted.symm.trans error

/-- **Options are read from objects only.**  In every layout, of all JSON values the objects and the empty array are
    accepted and give the options that are preset.  An accepted text that is not blank has a last bracket with
    white space behind it: anything else that is added there is malformed, and so is a part of the text that ends before
    that bracket, unless it is blank.  Blank texts are accepted, in the sense of Unicode. -/
theorem ofJson_exact :
    (∀ v t, Json.Layout v t → (ofJson t = .ok {} ↔ (∃ ms, v = .object ms) ∨ v = .array []))
      ∧ (∀ t, ofJson t = .ok {} → ¬Text.Blank t →
        (∀ u : Text, (∃ c ∈ u, Json.isSpace c = false) → ofJson (t ++ u) = .error .malformed)
          ∧ (∃ body, Json.BeforeBracket body t)
          ∧ ∀ body p, Json.BeforeBracket body t → p <+: body → ¬Text.Blank p → ofJson p = .error .malformed)
      ∧ ∀ t, Text.Blank t → ofJson t = .ok {} := by
  refine ⟨fun v t h => ?_, fun t accepted blank => ⟨?_, ?_, ?_⟩, fun t blank => ofJson_eq_ok_iff.mpr (.inl blank)⟩
  · rw [ofJson_eq_ok_iff, or_iff_right h.not_blank, Json.isObject_layout h]
  · rintro u ⟨c, hc, space⟩
    exact ofJson_append accepted blank hc space
  · rcases Json.State.rooted_start.lastBracket (run_of_ofJson accepted blank) with ⟨same, -⟩ | last
    · cases same
    · exact last
  · intro body p cut first nonblank
    exact ofJson_prefix accepted cut first nonblank

/-- An object with one name twice, once with an escape, and with an array and a number among its values. -/
theorem ofJson_exact_sameName :
    let name : Text := ['\x22', 'a', '\\', 'u', '0', '0', '6', '2', '\x22']
    let array : Text := ['[', '-', '0', '.', '5', 'e', '2', ' ', ']']
    let again : Text := ['\x22', 'a', 'b', '\x22', ' ']
    let body : Text := ['\n'] ++ '\x7b' :: (name ++ ':' :: (array ++ ',' :: (again ++ ':' :: ['n', 'u', 'l', 'l'])))
    let t : Text := body ++ ['\x7d', '\t']
    (∃ v w, Json.Layout (.object [(['a', 'b'], v), (['a', 'b'], w)]) t) ∧ ofJson t = .ok {}
      ∧ ofJson (t ++ [' ', '\x7d']) = .error .malformed ∧ ofJson body = .error .malformed
      ∧ ofJson ['\u00a0'] = .ok {} := by
  intro name array again body t
  obtain ⟨layouts, ends, blanks⟩ := ofJson_exact
  have number : Json.IsNumber ['-', '0', '.', '5', 'e', '2'] :=
    ⟨['-'], ['0'], ['.', '5'], ['e', '2'], .inr rfl, .inl rfl, .inr ⟨['5'], by unfold IsDigits; decide, rfl⟩,
      .inr ⟨'e', [], ['2'], .inl rfl, .inl rfl, by unfold IsDigits; decide, rfl⟩, rfl⟩
  have newline : Json.IsGap ['\n'] := by decide
  have tab : Json.IsGap ['\t'] := by decide
  have plain (c : Char) (h : c ≠ '\x22' ∧ c ≠ '\\' ∧ 0x20 ≤ c.toNat) : (Json.Symbol.char c).Spelled [c] :=
    .plain h.1 h.2.1 h.2.2
  have code : Json.IsCode ('b').toNat ['0', '0', '6', '2'] := .digits (x := 0) (y := 0) (z := 6) (w := 2) rfl rfl rfl rfl
  have first : Json.NameLayout ['a', 'b'] name :=
    ⟨[], name, [], Json.isGap_nil, ⟨_, .cons (plain 'a' (by decide)) (.cons (.code code) .nil), rfl⟩,
      Json.isGap_nil, rfl⟩
  have second : Json.NameLayout ['a', 'b'] again :=
    ⟨[], _, [' '], Json.isGap_nil, ⟨_, .cons (plain 'a' (by decide)) (.cons (plain 'b' (by decide)) .nil), rfl⟩,
      by decide, rfl⟩
  have element : Json.Elements [.number _ number] ['-', '0', '.', '5', 'e', '2', ' '] :=
    .last (.mk Json.isGap_nil (.number _ number) (by decide))
  have members : Json.Members [(['a', 'b'], .array [.number _ number]), (['a', 'b'], .null)]
      (name ++ ':' :: (array ++ ',' :: (again ++ ':' :: ['n', 'u', 'l', 'l']))) :=
    .more first (.mk Json.isGap_nil (.array element) Json.isGap_nil)
      (.last second (.mk Json.isGap_nil .null Json.isGap_nil))
  have layout : Json.Layout (.object [(['a', 'b'], .array [.number _ number]), (['a', 'b'], .null)]) t :=
    .mk newline (.object members) tab
  have nonblank : ¬Text.Blank t := by decide
  have accepted := (layouts _ t layout).mpr (.inl ⟨_, rfl⟩)
  obtain ⟨behind, -, before⟩ := ends t accepted nonblank
  refine ⟨⟨_, _, layout⟩, accepted, behind _ ⟨'\x7d', by decide, rfl⟩, ?_, blanks _ (by decide)⟩
  have cut : Json.BeforeBracket body t := ⟨'\x7d', ['\t'], rfl, .inl rfl, by decide⟩
  exact before body body cut (List.prefix_refl body) (by decide)

end Translucent.Options
