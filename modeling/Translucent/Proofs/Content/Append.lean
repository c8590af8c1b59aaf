import Translucent.Proofs.Stylesheet.Steps
import Translucent.Proofs.Token.Edge

/-!
  # Rows one behind the other

  A text in two parts need not have a tree in two parts: what is open at the end of the first goes on in
  the second.  Where nothing is open, it has.

  1. **Rows** — `append` puts one row behind another; `prepend` puts a row in front of the innermost of
     the levels that are left.  A leaf is a row of its own, and so is a block (`levels_leaf`,
     `levels_block`, `levels_open`).
  2. **Quiet rows** — a row without semicolons and blocks in curly brackets is passed over whole by
     whoever looks for one of these.
  3. **Plain text** — `levels_plain`: before a stop, a plain text with balanced parentheses is a quiet row of
     its own, whatever its tokens are.
-/

namespace Translucent

namespace Content

/-! ## Rows -/

/-- `append c d` = the row `c` with the row `d` behind it. -/
def append : Content → Content → Content
  | nil, d => d
  | leaf l rest, d => leaf l (append rest d)
  | block o t body closed rest, d => block o t body closed (append rest d)

@[simp] theorem nil_append (d : Content) : append nil d = d := rfl

@[simp] theorem leaf_append (l : Lexeme) (rest d : Content) :
    append (leaf l rest) d = leaf l (append rest d) := rfl

@[simp] theorem block_append (o : Opener) (t : Text) (body : Content) (closed : Bool)
    (rest d : Content) : append (block o t body closed rest) d = block o t body closed (append rest d) :=
  rfl

@[simp] theorem append_nil (c : Content) : append c nil = c := by
  induction c with
  | nil => rfl
  | leaf l rest ih => rw [leaf_append, ih]
  | block o t body closed rest _ ih => rw [block_append, ih]

theorem append_assoc (c d e : Content) : append (append c d) e = append c (append d e) := by
  induction c with
  | nil => rfl
  | leaf l rest ih => rw [leaf_append, leaf_append, leaf_append, ih]
  | block o t body closed rest _ ih => rw [block_append, block_append, block_append, ih]

theorem text_append (c d : Content) : (append c d).text = c.text ++ d.text := by
  induction c with
  | nil => rfl
  | leaf l rest ih => simp [ih]
  | block o t body closed rest _ ih => simp [ih]

theorem take_length_append (c d : Content) : (append c d).take c.length = c := by
  induction c with
  | nil => exact take_zero d
  | leaf l rest ih => rw [leaf_append, length, take, ih]
  | block o t body closed rest _ ih => rw [block_append, length, take, ih]

theorem drop_length_append (c d : Content) : (append c d).drop c.length = d := by
  induction c with
  | nil => exact drop_zero d
  | leaf l rest ih => rw [leaf_append, length, drop, ih]
  | block o t body closed rest _ ih => rw [block_append, length, drop, ih]

/-- `prepend c found` = the levels `found` with the row `c` in front of the innermost one. -/
def prepend : Content → List Level → List Level
  | nil, found => found
  | leaf l rest, found => levels.put l (prepend rest found)
  | block o t body closed rest, found =>
    let next := (prepend rest found).headD .ended
    ⟨.block o t body closed next.content, next.closed⟩ :: (prepend rest found).tail

theorem prepend_append (c d : Content) (found : List Level) :
    prepend (append c d) found = prepend c (prepend d found) := by
  induction c with
  | nil => rfl
  | leaf l rest ih => rw [leaf_append, prepend, prepend, ih]
  | block o t body closed rest _ ih => rw [block_append, prepend, prepend, ih]

theorem prepend_eq (c : Content) (level : Level) (found : List Level) :
    prepend c (level :: found) = ⟨c.append level.content, level.closed⟩ :: found := by
  induction c with
  | nil => rfl
  | leaf l rest ih => rw [prepend, ih]; rfl
  | block o t body closed rest _ ih => rw [prepend, ih]; rfl

theorem content_prepend (c : Content) (found : List Level) :
    ((prepend c found).headD .ended).content = c.append (found.headD .ended).content := by
  induction c with
  | nil => rfl
  | leaf l rest ih => exact congrArg (leaf l) ih
  | block o t body closed rest _ ih => exact congrArg (block o t body closed) ih

theorem textOf_prepend (c : Content) (stack : List Bracket) (found : List Level) :
    Level.textOf stack (prepend c found) = c.text ++ Level.textOf stack found := by
  induction c with
  | nil => rfl
  | leaf l rest ih => rw [prepend, Level.textOf_put, ih, text_leaf, List.append_assoc]
  | block o t body closed rest _ ih =>
    rw [Level.textOf_eq] at ih
    rw [prepend, Level.textOf, text_block, text_block, List.append_assoc _ rest.text, ← ih]
    simp only [Level.closing, List.append_assoc]

/-- A lexeme that neither opens nor closes a block is a row of its own. -/
theorem levels_leaf {l : Lexeme} {stack : List Bracket} (ho : ∀ o, l.token ≠ .opening o)
    (hc : ∀ b, l.token = .closing b → stack.head? ≠ some b) (ls : List Lexeme) :
    levels stack (l :: ls) = prepend (leaf l nil) (levels stack ls) :=
  levels_neither ho hc ls

/-- A block that is closed is a row of its own. -/
theorem levels_block {o : Opener} (t : Text) {stack : List Bracket} {ls : List Lexeme} {body : Content}
    {found : List Level} (h : levels (o.shape :: stack) ls = ⟨body, true⟩ :: found) :
    levels stack (⟨.opening o, t⟩ :: ls) = prepend (block o t body true nil) found := by
  rw [levels_opening rfl, h]
  rfl

/-- A block that is left open ends with the text. -/
theorem levels_open {o : Opener} (t : Text) {stack : List Bracket} {ls : List Lexeme} {body : Content}
    (h : levels (o.shape :: stack) ls = prepend body []) :
    levels stack (⟨.opening o, t⟩ :: ls) = prepend (block o t body false nil) [] := by
  have ends (c : Content) : (prepend c []).headD .ended = ⟨c, false⟩ ∧ (prepend c []).tail = [] := by
    induction c with
    | nil => exact ⟨rfl, rfl⟩
    | leaf l rest ih => rw [prepend, levels.put, ih.1, ih.2]; exact ⟨rfl, rfl⟩
    | block o t body closed rest _ ih => rw [prepend, ih.1, ih.2]; exact ⟨rfl, rfl⟩
  rw [levels_opening rfl, h]
  dsimp only
  rw [(ends body).1, (ends body).2]
  rfl

/-! ## Quiet rows -/

/-- Whether a row holds neither semicolons nor blocks in curly brackets. -/
def Quiet : Content → Prop
  | nil => True
  | leaf l rest => l.token ≠ .semicolon ∧ Quiet rest
  | block o _ _ _ rest => o ≠ .bracket .curly ∧ Quiet rest

theorem Quiet.append {c d : Content} (hc : c.Quiet) (hd : d.Quiet) : (c.append d).Quiet := by
  induction c with
  | nil => exact hd
  | leaf l rest ih => exact ⟨hc.1, ih hc.2⟩
  | block o t body closed rest _ ih => exact ⟨hc.1, ih hc.2⟩

/-- Whoever does not stop in a row goes on behind it. -/
theorem upTo_append {stop : Content → Bool} {c : Content} (hc : c.Quiet)
    (leaves : ∀ l rest, l.token ≠ .semicolon → stop (.leaf l rest) = false)
    (blocks : ∀ o t body closed rest, o ≠ .bracket .curly → stop (.block o t body closed rest) = false)
    (d : Content) :
    (c.append d).upTo stop = c.append (d.upTo stop) ∧ (c.append d).dropTo stop = d.dropTo stop := by
  induction c with
  | nil => exact ⟨rfl, rfl⟩
  | leaf l rest ih =>
    obtain ⟨up, drop⟩ := ih hc.2
    have go : ¬stop (.leaf l (rest.append d)) = true := by
      rw [leaves l _ hc.1]; exact Bool.false_ne_true
    rw [leaf_append, upTo, if_neg go, dropTo, if_neg go, up]
    exact ⟨rfl, drop⟩
  | block o t body closed rest _ ih =>
    obtain ⟨up, drop⟩ := ih hc.2
    have go : ¬stop (.block o t body closed (rest.append d)) = true := by
      rw [blocks o _ _ _ _ hc.1]; exact Bool.false_ne_true
    rw [block_append, upTo, if_neg go, dropTo, if_neg go, up]
    exact ⟨rfl, drop⟩

/-! ## Plain text -/

/-- A lexeme in front of levels is in front of the innermost one. -/
theorem put_levels {inner : List Level} {c : Content} {n : Nat} (length : inner.length = n)
    (quiet : c.Quiet) {l : Lexeme} (hl : n = 0 → l.token ≠ .semicolon) (outer : List Level) :
    ∃ inner' c', inner'.length = n ∧ c'.Quiet
      ∧ levels.put l (inner ++ prepend c outer) = inner' ++ prepend c' outer := by
  cases inner with
  | nil => exact ⟨[], .leaf l c, length, ⟨hl length.symm, quiet⟩, rfl⟩
  | cons level inner => exact ⟨⟨.leaf l level.content, level.closed⟩ :: inner, c, length, quiet, rfl⟩

/-- What opens a block makes one level of two. -/
theorem block_levels {inner : List Level} {c : Content} {n : Nat} {o : Opener} (t : Text)
    (length : inner.length = n + 1) (quiet : c.Quiet) (ho : n = 0 → o ≠ .bracket .curly)
    (outer : List Level) :
    ∃ inner' c', inner'.length = n ∧ c'.Quiet ∧
      (let found := inner ++ prepend c outer
        let body := found.headD .ended
        let next := found.tail.headD .ended
        (⟨.block o t body.content body.closed next.content, next.closed⟩ : Level) :: found.tail.tail)
        = inner' ++ prepend c' outer := by
  rcases inner with _ | ⟨body, _ | ⟨next, inner⟩⟩
  · simp at length
  · exact ⟨[], .block o t body.content body.closed c, Nat.succ.inj length, ⟨ho (Nat.succ.inj length).symm, quiet⟩, rfl⟩
  · exact ⟨⟨.block o t body.content body.closed next.content, next.closed⟩ :: inner, c,
      Nat.succ.inj length, quiet, rfl⟩

/-- **Plain text is a row of its own**: if `opened` parentheses are open for the lexemes and no fewer in
    the text, which closes them all, then before a stop it ends the levels of those parentheses and puts a
    quiet row in front of the level around them. -/
theorem levels_plain {z : Text} (stop : Stop z) {stack : List Bracket}
    (hs : stack.head? ≠ some .round) (w : Text) (plain : ∀ c ∈ w, Character.isPlain c = true)
    (opened d : Nat) (le : opened ≤ d) (balanced : parens d w = some 0) :
    ∃ inner c, inner.length = opened ∧ c.Quiet
      ∧ levels (List.replicate opened .round ++ stack) (lexemes 0 (w ++ z))
        = inner ++ prepend c (levels stack (lexemes 0 z)) := by
  -- by the length of the text, of which each lexeme takes a part
  generalize size : w.length = n
  induction n using Nat.strongRecOn generalizing w opened d with
  | ind n ih =>
    cases w with
    | nil =>
      obtain rfl : d = 0 := Option.some.inj balanced
      obtain rfl : opened = 0 := Nat.le_zero.mp le
      exact ⟨[], .nil, rfl, trivial, rfl⟩
    | cons a w =>
      obtain ⟨l, w', cut, nonempty, isPlain, lexed⟩ := lexeme_plain stop plain balanced
      have shorter : w'.length < n := by
        have := congrArg List.length cut
        have := List.length_pos_iff.mpr nonempty
        rw [List.length_append] at *
        omega
      have plain' : ∀ c ∈ w', Character.isPlain c = true := fun c hc =>
        plain c (cut ▸ List.mem_append_right _ hc)
      rw [cut, parens_append] at balanced
      rw [List.cons_append, lexed]
      rcases isPlain.kind with ⟨o, token, round, text⟩ | ⟨token, text⟩ | ⟨inert, keeps⟩
      · -- one level more is open behind the lexeme
        rw [text, Option.bind_some] at balanced
        obtain ⟨inner, c, length, quiet, levels_eq⟩ :=
          ih _ shorter w' plain' (opened + 1) (d + 1) (Nat.succ_le_succ le) balanced rfl
        have stack_eq : o.shape :: (List.replicate opened .round ++ stack)
            = List.replicate (opened + 1) .round ++ stack := by
          rw [round, List.replicate_succ, List.cons_append]
        rw [levels_opening token, stack_eq, levels_eq]
        exact block_levels l.text length quiet (fun _ h => by rw [h] at round; cases round) _
      · -- one level ends, if one of the parentheses is open here
        rw [text] at balanced
        obtain ⟨d, rfl⟩ : ∃ d', d = d' + 1 := by
          cases d with
          | zero => cases balanced
          | succ d => exact ⟨d, rfl⟩
        cases opened with
        | zero =>
          obtain ⟨inner, c, length, quiet, levels_eq⟩ :=
            ih _ shorter w' plain' 0 d (Nat.zero_le d) balanced rfl
          have other (b : Bracket) (hb : l.token = .closing b) : stack.head? ≠ some b := by
            rw [token] at hb
            injection hb with hb
            exact hb ▸ hs
          have noOpening (o : Opener) : l.token ≠ .opening o := by rw [token]; simp
          rw [List.replicate_zero, List.nil_append, levels_neither noOpening other]
          rw [List.replicate_zero, List.nil_append] at levels_eq
          rw [levels_eq]
          exact put_levels length quiet (fun _ => by rw [token]; simp) _
        | succ opened =>
          obtain ⟨inner, c, length, quiet, levels_eq⟩ :=
            ih _ shorter w' plain' opened d (Nat.le_of_succ_le_succ le) balanced rfl
          refine ⟨⟨.nil, true⟩ :: inner, c, congrArg (· + 1) length, quiet, ?_⟩
          rw [List.replicate_succ, List.cons_append, levels_closing token rfl]
          exact congrArg (_ :: ·) levels_eq
      · -- the level at hand goes on
        obtain ⟨d', le', text⟩ := keeps d
        rw [text, Option.bind_some] at balanced
        obtain ⟨inner, c, length, quiet, levels_eq⟩ :=
          ih _ shorter w' plain' opened d' (Nat.le_trans le le') balanced rfl
        have noOpening (o : Opener) : l.token ≠ .opening o := by
          rintro h; rw [h] at inert; cases inert
        have noClosing (b : Bracket) : l.token ≠ .closing b := by
          rintro h; rw [h] at inert; cases inert
        rw [levels_neither noOpening fun b hb => absurd hb (noClosing b), levels_eq]
        refine put_levels length quiet ?_ _
        rintro - h; rw [h] at inert; cases inert

/-- A quiet row has the text that it was read from. -/
theorem text_of_levels {w t : Text} {c : Content} {stack : List Bracket}
    (h : levels stack (lexemes 0 (w ++ t)) = prepend c (levels stack (lexemes 0 t))) : c.text = w := by
  have whole := textOf_levels stack (lexemes 0 (w ++ t)) fun _ hl _ hb => text_of_closing hl hb
  have rest := textOf_levels stack (lexemes 0 t) fun _ hl _ hb => text_of_closing hl hb
  rw [h, textOf_prepend, rest, textOf_lexemes_zero, textOf_lexemes_zero] at whole
  exact List.append_cancel_right whole

end Content

end Translucent
