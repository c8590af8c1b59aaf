import Translucent.Proofs.Value.Grown

/-!
  # The tokens of an expansion

  The tokens of an expanded value are those of the value, with the tokens of each standard text in place of
  those of the shorthand.  That is so where nothing can grow together: a name, a number or a lone mark right
  before digits takes in the `r` of `rgba(`, and `#000` and `#FFF` take in a name right behind them.

  1. **Substitution** — `Substituted` says what becomes of the tokens.
  2. **Apart** — what may not stand next to a shorthand.

  **Main statement** — `lexemes_expand`.
-/

namespace Translucent

open Content

/-! ## Substitution -/

/-- `Substituted pos ls os out`: `out` are the lexemes `ls`, which start at the byte `pos`, with those inside the span
    of each of `os` replaced by the lexemes of its standard text alone.  The others stay as they are. -/
inductive Substituted : Nat → List Lexeme → List Occurrence → List Lexeme → Prop
  /-- No span is left. -/
  | rest (pos : Nat) (ls : List Lexeme) : Substituted pos ls [] ls
  /-- The first span, and those behind it. -/
  | shorthand {pos : Nat} {before inside behind out : List Lexeme} {o : Occurrence} {os : List Occurrence}
      (start : o.start = pos + Text.byteLength (Lexeme.textOf before))
      (stop : o.stop = o.start + Text.byteLength (Lexeme.textOf inside)) (rest : Substituted o.stop behind os out) :
      Substituted pos (before ++ (inside ++ behind)) (o :: os)
        (before ++ (lexemes 0 o.shorthand.standard ++ out))

/-- Where nothing is stuck to a shorthand, lexemes do not grow. -/
theorem Grown.substituted {pos : Nat} {ls ms : List Lexeme} {os : List Occurrence} (h : Grown pos ls os ms)
    (apart : ∀ o ∈ os, ∀ as l bs, ls = as ++ l :: bs →
      o.start = pos + Text.byteLength (Lexeme.textOf (as ++ [l])) → l.sticks = false) :
    Substituted pos ls os ms := by
  induction h with
  | rest pos ls => exact .rest pos ls
  | @shorthand pos before stuck inside behind new out o os start stop grows _ _ _ ih =>
    rcases grows with ⟨rfl, rfl⟩ | ⟨first, l, rfl, sticks⟩
    · rw [List.append_nil] at start
      show Substituted pos (before ++ (inside ++ behind)) (o :: os) (before ++ (lexemes 0 o.shorthand.standard ++ out))
      refine .shorthand start stop (ih fun p hp as l bs cut start' => ?_)
      refine apart p (List.mem_cons_of_mem _ hp) (before ++ (inside ++ as)) l bs ?_ ?_
      · simp only [cut, List.nil_append, List.append_assoc]
      · simp only [Lexeme.textOf_append, Text.byteLength_append] at start' ⊢
        omega
    · have alone := apart o List.mem_cons_self (before ++ first) l (inside ++ behind)
        (by simp only [List.append_assoc, List.singleton_append]) (by rw [List.append_assoc]; exact start)
      rw [alone] at sticks
      cases sticks

/-! ## Apart -/

/-- Whether nothing in a value grows together when its shorthands are expanded: no lexeme right before one sticks
    to it, and no name goes on right behind black or white of opacity 1. -/
structure Apart (v : Text) : Prop where
  before : ∀ o ∈ occurrencesIn v, ∀ as l bs, lexemes 0 v = as ++ l :: bs →
    o.start = Text.byteLength (Lexeme.textOf (as ++ [l])) → l.sticks = false
  behind : ∀ o ∈ occurrencesIn v, o.shorthand.solid?.isSome = true → ∀ u t, v = u ++ t →
    o.stop = Text.byteLength u → Free (occurrencesIn v) o.stop t

/-- **The tokens of an expansion**: where shorthands stand apart from what they could grow together with, expanding a
    value puts the tokens of each standard text in place of those of its shorthand and keeps all others. -/
theorem lexemes_expand (v out : Text) (h : expand v = some out) (shallow : (ofText v).depth ≤ maxSearchDepth)
    (apart : Apart v) : Substituted 0 (lexemes 0 v) (occurrencesIn v) (lexemes 0 out) := by
  obtain ⟨ms, expanded⟩ := exists_expanded (.refl []) (marked_occurrencesIn shallow) (.lexemes v) (fun o ho => ho)
    (fun o ho => .inl ho) (fun o ho solid u t cut stop => by
      rw [textOf_lexemes_zero, List.append_nil] at cut
      rw [Nat.zero_add] at stop
      exact apart.behind o ho solid u t cut stop)
  have some_found : occurrencesIn v ≠ [] := by
    intro none_found
    rw [expand, none_found] at h
    cases h
  have cut := expanded.respelled
  rw [textOf_lexemes_zero] at cut
  rw [cut.expand_eq some_found] at h
  obtain rfl := Option.some.inj h
  rw [expanded.lexed.whole]
  exact expanded.grown.substituted fun o ho as l bs cut start => apart.before o ho as l bs cut (by omega)

/-- Black of opacity 1 before a parenthesis, and digits in the parentheses: `black(1)(#fff.5)`. -/
theorem lexemes_expand_in_parentheses :
    let v := ['b', 'l', 'a', 'c', 'k', '(', '1', ')', '(', '#', 'f', 'f', 'f', '.', '5', ')']
    let out := ['#', '0', '0', '0', '(', 'r', 'g', 'b', 'a', '(', '2', '5', '5', ',', ' ', '2', '5', '5', ',', ' ',
      '2', '5', '5', ',', ' ', '0', '.', '5', ')', ')']
    expand v = some out ∧ (ofText v).depth ≤ maxSearchDepth ∧ Apart v
      ∧ Substituted 0 (lexemes 0 v) (occurrencesIn v) (lexemes 0 out) := by
  intro v out
  have shallow : (ofText v).depth ≤ maxSearchDepth := by decide
  have found : occurrencesIn v = (ofText v).shorthands 0 := (occurrencesIn_eq v).trans (occurrences_outside shallow)
  have expanded : expand v = some out := by
    rw [expand_eq_replaced shallow, found]
    decide
  have apart : Apart v := by
    constructor
    · rw [found]
      intro o ho as l bs cut start
      have tokens : ∀ n < 8, ∀ o ∈ (ofText v).shorthands 0,
          o.start = Text.byteLength (Lexeme.textOf ((lexemes 0 v).take n)) →
          ∀ l ∈ ((lexemes 0 v).take n).getLast?, l.sticks = false := by decide
      have cut : lexemes 0 v = (as ++ [l]) ++ bs := by
        rw [cut, List.append_assoc]
        rfl
      have size := congrArg List.length cut
      rw [show (lexemes 0 v).length = 7 by decide, List.length_append] at size
      have init : (lexemes 0 v).take (as ++ [l]).length = as ++ [l] := by rw [cut, List.take_left]
      refine tokens (as ++ [l]).length (by omega) o ho (by rw [init]; exact start) l ?_
      rw [init, List.getLast?_concat]
      rfl
    · rw [found]
      intro o ho solid u t cut stop
      have first : o = ⟨0, 8, .black .full⟩ := by
        have only : ∀ p ∈ (ofText v).shorthands 0, p.shorthand.solid?.isSome = true → p = ⟨0, 8, .black .full⟩ := by
          decide
        exact only o ho solid
      subst first
      have rest : Text.dropBytes 8 v = some t := by
        rw [cut, show 8 = Text.byteLength u from stop]
        exact Text.dropBytes_byteLength u t
      obtain rfl : ['(', '#', 'f', 'f', 'f', '.', '5', ')'] = t := Option.some.inj rest
      exact ⟨by decide, fun _ => rfl⟩
  exact ⟨expanded, shallow, apart, lexemes_expand v out expanded shallow apart⟩

/-- A name right before digits takes in the name of the standard call: `x#fff.5` becomes `xrgba(255, 255, 255, 0.5)`. -/
theorem not_lexemes_expand_behind_name :
    ¬∀ v out, expand v = some out → Substituted 0 (lexemes 0 v) (occurrencesIn v) (lexemes 0 out) := by
  intro always
  let v := ['x', '#', 'f', 'f', 'f', '.', '5']
  let out := ['x', 'r', 'g', 'b', 'a', '(', '2', '5', '5', ',', ' ', '2', '5', '5', ',', ' ', '2', '5', '5', ',', ' ',
    '0', '.', '5', ')']
  have shallow : (ofText v).depth ≤ maxSearchDepth := by decide
  have found : occurrencesIn v = (ofText v).shorthands 0 := (occurrencesIn_eq v).trans (occurrences_outside shallow)
  have expanded : expand v = some out := by
    rw [expand_eq_replaced shallow, found]
    decide
  have substituted := always v out expanded
  have spans : (ofText v).shorthands 0 = [⟨1, 7, .shortHex ⟨255, 255, 255⟩ ((Alpha.ofLiteral? ['.', '5']).getD .full)⟩] := by
    decide
  rw [found, spans] at substituted
  generalize first : lexemes 0 v = ls at substituted
  generalize second : lexemes 0 out = ms at substituted
  cases substituted with
  | @shorthand _ before inside behind _ _ _ start =>
    -- the first token would have to stay
    cases before with
    | nil => cases start
    | cons l before =>
      have name : (lexemes 0 v).head? = some l := by rw [first]; rfl
      have call : (lexemes 0 out).head? = some l := by rw [second]; rfl
      have ne : (lexemes 0 v).head? ≠ (lexemes 0 out).head? := by decide
      exact ne (name.trans call.symm)

end Translucent
