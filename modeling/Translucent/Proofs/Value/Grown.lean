import Translucent.Proofs.Content.Nest
import Translucent.Proofs.Token.Edge
import Translucent.Proofs.Value.Spans
import Translucent.Proofs.Value.Standard

/-!
  # The lexemes of an expansion

  Expanding a value puts the lexemes of each standard text in place of those of its shorthand.  A name, a number
  or a lone mark right before digits grows together with the name of the standard call, which still leaves a block
  of its own; `#000` and `#FFF` may not grow at all, as what follows could be torn apart.

  1. **Marks** — `Marked`: spans begin and end with lexemes.  Those found in a row do (`marked_shorthands`), and the
     same spans do in all lexemes around them or in fewer (`Marked.append`, `Marked.window`).
  2. **What becomes of lexemes** — `Grown`, which keeps what brackets are open (`Grown.nest`).
  3. **Standard texts** — `lexemes_standard`: they are read before what follows as they are read alone.
  4. **Step by step** — `Expanded` is what is kept of the lexemes from a place on; `exists_expanded` goes from span
     to span, where each is `Free` of names behind it.
-/

namespace Translucent

open Content

/-! ## Marks -/

/-- Whether a lexeme is the first one of a shorthand. -/
def Shorthand.Heads (s : Shorthand) (l : Lexeme) : Prop :=
  (∃ digits, l.token = .hash digits) ∧ s.solid? = none
    ∨ ∃ name, l.token = .opening (.call name)
      ∧ (name.head? = some 'b' ∨ name.head? = some 'w' ∨ name.head? = some 'r')

/-- The first lexeme of a shorthand starts like one, and digits are not black or white of opacity 1. -/
theorem Shorthand.Heads.like {s : Shorthand} {l : Lexeme} {z : Text} (h : s.Heads l) (reads : l.Reads z) :
    ∃ m y, l.text ++ z = m :: y ∧ LikeShorthand m y ∧ (m = '#' → s.solid? = none) := by
  rcases h with ⟨⟨digits, hash⟩, translucent⟩ | ⟨name, token, head⟩
  · obtain ⟨t, text⟩ := reads.hash hash
    exact ⟨'#', t ++ z, by rw [text]; rfl, .inl rfl, fun _ => translucent⟩
  · obtain ⟨k, t⟩ := l
    obtain rfl : k = .opening (.call name) := token
    obtain ⟨m, y, text, ne, like⟩ := reads.call head
    exact ⟨m, y, text, like, fun hash => absurd hash ne⟩

/-- Digits are never black or white of opacity 1. -/
theorem solid?_of_hexShorthand? {l n : Lexeme} {s : Shorthand} {rest : Content}
    (h : hexShorthand? l rest = some (s, n)) : s.solid? = none := by
  unfold hexShorthand? at h
  split at h
  · split at h
    · obtain ⟨c, -, h⟩ := Option.bind_eq_some_iff.mp h
      obtain ⟨a, -, h⟩ := Option.bind_eq_some_iff.mp h
      obtain ⟨rfl, -⟩ := Prod.mk.inj (Option.some.inj h)
      split <;> rfl
    · cases h
  · cases h

/-- `Marked pos ls os`: the spans of `os` stand one behind the other in the lexemes `ls`, which start at the byte
    `pos`.  They begin and end with lexemes, and the brackets inside are closed there, but for the last one. -/
inductive Marked : Nat → List Lexeme → List Occurrence → Prop
  /-- No span. -/
  | rest (pos : Nat) (ls : List Lexeme) : Marked pos ls []
  /-- The first span, and those behind it. -/
  | shorthand {pos : Nat} {before more behind : List Lexeme} {first : Lexeme} {o : Occurrence} {os : List Occurrence}
      (start : o.start = pos + Text.byteLength (Lexeme.textOf before))
      (stop : o.stop = o.start + Text.byteLength (Lexeme.textOf (first :: more))) (heads : o.shorthand.Heads first)
      (nests : Neutral (first :: more) ∨ Opens (first :: more) ∧ behind = [])
      (rest : Marked o.stop behind os) : Marked pos (before ++ (first :: more ++ behind)) (o :: os)

/-- Lexemes before all spans. -/
theorem Marked.prepend {pos : Nat} {zs : List Lexeme} {os : List Occurrence} (ls : List Lexeme)
    (h : Marked (pos + Text.byteLength (Lexeme.textOf ls)) zs os) : Marked pos (ls ++ zs) os := by
  cases h with
  | rest => exact .rest _ _
  | shorthand start stop heads nests rest =>
    rw [← List.append_assoc]
    refine .shorthand ?_ stop heads nests rest
    rw [start, Lexeme.textOf_append, Text.byteLength_append, Nat.add_assoc]

/-- Lexemes behind all spans, where no bracket is left open. -/
theorem Marked.append {pos : Nat} {ls : List Lexeme} {os : List Occurrence} (h : Marked pos ls os)
    {outer : Option Bracket} {inner : List Bracket} (balanced : nest outer inner ls = some []) (zs : List Lexeme) :
    Marked pos (ls ++ zs) os := by
  induction h generalizing inner with
  | rest => exact .rest _ _
  | @shorthand pos before more behind first o os start stop heads nests _ ih =>
    rw [nest_append] at balanced
    obtain ⟨reached, -, balanced⟩ := Option.bind_eq_some_iff.mp balanced
    rw [nest_append] at balanced
    rcases nests with neutral | ⟨opens, rfl⟩
    · rw [neutral, Option.bind_some] at balanced
      rw [List.append_assoc, List.append_assoc]
      exact .shorthand start stop heads (.inl neutral) (ih balanced)
    · obtain ⟨open_brackets, nonempty, eq⟩ := opens outer reached
      rw [eq, Option.bind_some] at balanced
      have none_open : open_brackets ++ reached = [] := Option.some.inj balanced
      exact absurd (List.append_eq_nil_iff.mp none_open).1 nonempty

/-- Spans in lexemes that start later. -/
theorem Marked.shift (n : Nat) {pos : Nat} {ls : List Lexeme} {os : List Occurrence} (h : Marked pos ls os) :
    Marked (pos + n) ls (os.map (·.shift n)) := by
  induction h with
  | rest pos ls => exact .rest _ ls
  | shorthand start stop heads nests _ ih =>
    refine .shorthand ?_ ?_ heads nests ih
    · show _ + n = _
      omega
    · show _ + n = _ + n + _
      omega

theorem Marked.le {pos : Nat} {ls : List Lexeme} {os : List Occurrence} (h : Marked pos ls os) :
    ∀ o ∈ os, pos ≤ o.start := by
  induction h with
  | rest => exact fun _ ho => absurd ho List.not_mem_nil
  | shorthand start stop _ _ _ ih =>
    intro p hp
    rcases List.mem_cons.mp hp with rfl | hp
    · omega
    · have := ih p hp
      omega

/-- Spans are marked in those lexemes that they stand in. -/
theorem Marked.window {pos : Nat} {ls : List Lexeme} {os : List Occurrence} (h : Marked pos ls os)
    {front inner behind : List Lexeme} {s : Text} (lexed : Lexed (front ++ (inner ++ behind)) s)
    (cut : ls = front ++ (inner ++ behind))
    (first : ∀ o ∈ os, pos + Text.byteLength (Lexeme.textOf front) ≤ o.start)
    (last : ∀ o ∈ os, o.stop ≤ pos + Text.byteLength (Lexeme.textOf (front ++ inner))) :
    Marked (pos + Text.byteLength (Lexeme.textOf front)) inner os := by
  induction h generalizing front inner with
  | rest => exact .rest _ _
  | @shorthand pos before more rest l o os start stop heads nests marked ih =>
    have o_first := first o List.mem_cons_self
    have o_last := last o List.mem_cons_self
    rw [Lexeme.textOf_append, Text.byteLength_append] at o_last
    -- the span starts behind the front, and ends before what is behind
    obtain ⟨lead, rfl, eq⟩ := lexed.exists_between cut (by omega)
    rw [Lexeme.textOf_append, Text.byteLength_append] at start
    have lexed' := lexed.parts.2
    rw [eq, ← List.append_assoc] at lexed'
    rw [← List.append_assoc] at eq
    obtain ⟨inner', rfl, rfl⟩ := lexed'.exists_between eq (by
      rw [Lexeme.textOf_append, Text.byteLength_append]
      omega)
    rw [List.append_assoc]
    refine .shorthand (by omega) stop heads ?_ ?_
    · exact nests.imp_right fun opens => ⟨opens.1, (List.append_eq_nil_iff.mp opens.2).1⟩
    · have marked' := @ih [] inner' lexed'.parts.2 rfl (fun p hp => ?_) (fun p hp => ?_)
      · exact marked'
      · exact marked.le p hp
      · have := last p (List.mem_cons_of_mem _ hp)
        simp only [Lexeme.textOf_append, Text.byteLength_append, List.nil_append] at this ⊢
        omega

/-- Digits with their number are marked. -/
theorem Marked.digits {pos : Nat} {l n : Lexeme} {s : Shorthand} {rest : Content} {zs : List Lexeme}
    {os : List Occurrence} (found : hexShorthand? l (.leaf n rest) = some (s, n))
    (h : Marked (pos + Text.byteLength l.text + Text.byteLength n.text) zs os) :
    Marked pos (l :: n :: zs) (⟨pos, pos + Text.byteLength l.text + Text.byteLength n.text, s⟩ :: os) := by
  obtain ⟨⟨digits, hash⟩, number, -⟩ := parts_of_hexShorthand? found
  have neutral : Neutral [l, n] :=
    neutral_leaf (by rw [hash]; simp) (by rw [hash]; simp) (by rw [hash]; simp)
      (neutral_leaf (by rw [number]; simp) (by rw [number]; simp) (by rw [number]; simp) neutral_nil)
  refine @Marked.shorthand pos [] [n] _ l _ _ rfl ?_ (.inl ⟨⟨digits, hash⟩, ?_⟩) (.inl neutral) h
  · rw [Lexeme.textOf_cons, Lexeme.textOf_cons, Lexeme.textOf_nil, List.append_nil, Text.byteLength_append,
      ← Nat.add_assoc]
  · exact solid?_of_hexShorthand? found

/-- A call that is a shorthand is marked. -/
theorem Marked.call {pos : Nat} {name t z : Text} {body : Content} {closed : Bool} {s : Shorthand}
    {stack : List Bracket} {zs : List Lexeme} {os : List Occurrence}
    (whole : whole? (.call name) body closed = some s)
    (inside : body.Spelled (.round :: stack) (closing (.call name) closed ++ z)) (left : closed = false → zs = [])
    (h : Marked (pos + Text.byteLength t + body.width + closingWidth closed) zs os) :
    Marked pos (⟨.opening (.call name), t⟩ :: (body.leaves ++ (closer (.call name) closed ++ zs)))
      (⟨pos, pos + Text.byteLength t + body.width + closingWidth closed, s⟩ :: os) := by
  rw [← List.append_assoc body.leaves]
  refine @Marked.shorthand pos [] _ _ _ _ _ rfl ?_ (.inr ⟨name, rfl, head_of_whole? whole⟩) ?_ h
  · rw [Lexeme.textOf_cons, Lexeme.textOf_append, textOf_closer, textOf_leaves]
    simp only [Text.byteLength_append, width_eq, byteLength_closing, Nat.add_assoc]
  · rcases nest_round (o := .call name) (t := t) rfl inside with ⟨-, neutral⟩ | ⟨unclosed, opens⟩
    · exact .inl neutral
    · exact .inr ⟨opens, left unclosed⟩

/-- **What is found in a spelled row is marked** in its lexemes. -/
theorem marked_shorthands (c : Content) {stack : List Bracket} {pos : Nat} {zs : List Lexeme} {os : List Occurrence}
    (spelled : c.Spelled stack (Lexeme.textOf zs)) (lexed : Lexed zs []) (behind : Marked (pos + c.width) zs os) :
    Marked pos (c.leaves ++ zs) (c.shorthands pos ++ os) := by
  induction c using Content.found_induction generalizing stack pos zs os with
  | nil => exact behind
  | leaf l rest none_found ih =>
    obtain ⟨-, -, -, spelled⟩ := spelled
    rw [width, ← Nat.add_assoc] at behind
    rw [shorthands, none_found]
    refine Marked.prepend [l] ?_
    rw [Lexeme.textOf_cons, Lexeme.textOf_nil, List.append_nil]
    exact ih spelled lexed behind
  | digits l n s after found ih =>
    obtain ⟨-, -, -, -, -, -, spelled⟩ := spelled
    obtain ⟨-, number, -⟩ := parts_of_hexShorthand? found
    rw [width, width, ← Nat.add_assoc, ← Nat.add_assoc] at behind
    rw [shorthands, found]
    dsimp only
    rw [shorthands, hexShorthand?_of_ne (by rw [number]; simp)]
    exact .digits found (ih spelled lexed behind)
  | block o t body closed rest ihb ihr =>
    obtain ⟨-, left, inside, spelled⟩ := spelled
    simp only [width, ← Nat.add_assoc] at behind
    have after := ihr spelled lexed behind
    rw [shorthands_block, List.append_assoc]
    simp only [leaves, List.cons_append, List.append_assoc]
    cases whole : whole? o body closed with
    | some s =>
      cases o with
      | bracket b => cases whole
      | call name =>
        refine .call whole inside (fun unclosed => ?_) after
        -- nothing is behind a call that is left open
        obtain ⟨rfl, empty⟩ := left unclosed
        exact lexed.eq_nil empty
    | none =>
      dsimp only
      -- the closing bracket is passed over
      have behind_body : Marked (pos + Text.byteLength t + body.width) (closer o closed ++ (rest.leaves ++ zs))
          (rest.shorthands (pos + Text.byteLength t + body.width + closingWidth closed) ++ os) := by
        refine Marked.prepend _ ?_
        rw [textOf_closer, byteLength_closing]
        exact after
      refine Marked.prepend [⟨.opening o, t⟩] ?_
      rw [Lexeme.textOf_cons, Lexeme.textOf_nil, List.append_nil]
      split
      · have inside' : body.Spelled (o.shape :: stack) (Lexeme.textOf (closer o closed ++ (rest.leaves ++ zs))) := by
          rw [Lexeme.textOf_append, Lexeme.textOf_append, textOf_closer, textOf_leaves]
          exact inside
        have rest_lexed := spelled.lexed
        rw [← List.append_nil (Lexeme.textOf zs)] at rest_lexed
        exact ihb inside' (.append (lexed_closer o closed _) (.append rest_lexed lexed)) behind_body
      · refine Marked.prepend _ ?_
        rw [textOf_leaves, ← width_eq]
        exact behind_body

/-- The shorthands of a value are marked in its lexemes. -/
theorem marked_occurrencesIn {v : Text} (shallow : (ofText v).depth ≤ maxSearchDepth) :
    Marked 0 (lexemes 0 v) (occurrencesIn v) := by
  have found : occurrencesIn v = (ofText v).shorthands 0 := (occurrencesIn_eq v).trans (occurrences_outside shallow)
  have marked := @marked_shorthands (ofText v) [] 0 [] [] (spelled_ofText v) (.nil []) (.rest _ [])
  rw [List.append_nil, List.append_nil] at marked
  rw [found, ← leaves_ofText]
  exact marked

/-! ## What becomes of lexemes -/

/-- `Grown pos ls os out`: `out` are the lexemes `ls`, which start at the byte `pos`, once the spans of `os` are
    expanded.  Either those inside a span are replaced by the lexemes of its standard text alone, or they and what
    is stuck to them make other lexemes that leave no brackets open, too. -/
inductive Grown : Nat → List Lexeme → List Occurrence → List Lexeme → Prop
  /-- No span is left. -/
  | rest (pos : Nat) (ls : List Lexeme) : Grown pos ls [] ls
  /-- The first span, and those behind it. -/
  | shorthand {pos : Nat} {before stuck inside behind new out : List Lexeme} {o : Occurrence} {os : List Occurrence}
      (start : o.start = pos + Text.byteLength (Lexeme.textOf (before ++ stuck)))
      (stop : o.stop = o.start + Text.byteLength (Lexeme.textOf inside))
      (grows : stuck = [] ∧ new = lexemes 0 o.shorthand.standard
        ∨ ∃ first l, stuck = first ++ [l] ∧ l.sticks = true)
      (nests : Neutral (stuck ++ inside) ∨ Opens (stuck ++ inside) ∧ behind = []) (neutral : Neutral new)
      (rest : Grown o.stop behind os out) :
      Grown pos (before ++ (stuck ++ (inside ++ behind))) (o :: os) (before ++ (new ++ out))

/-- **The brackets that are open stay so**, except where the last span leaves some open and its standard text does
    not. -/
theorem Grown.nest {pos : Nat} {ls ms : List Lexeme} {os : List Occurrence} (h : Grown pos ls os ms)
    {outer : Option Bracket} {inner left : List Bracket} (nested : Content.nest outer inner ls = some left) :
    ∃ left', Content.nest outer inner ms = some left' ∧ (left' = left ∨ left ≠ []) := by
  induction h generalizing inner left with
  | rest => exact ⟨left, nested, .inl rfl⟩
  | @shorthand pos before stuck inside behind new out o os _ _ _ nests neutral _ ih =>
    rw [nest_append] at nested
    obtain ⟨reached, first, nested⟩ := Option.bind_eq_some_iff.mp nested
    rw [← List.append_assoc, nest_append] at nested
    rw [nest_append, first, Option.bind_some, nest_append, neutral, Option.bind_some]
    rcases nests with closed | ⟨opens, rfl⟩
    · rw [closed, Option.bind_some] at nested
      exact ih nested
    · obtain ⟨more, nonempty, eq⟩ := opens outer reached
      rw [eq, Option.bind_some] at nested
      obtain rfl : more ++ reached = left := Option.some.inj nested
      obtain ⟨left', eq, -⟩ := @ih reached reached rfl
      exact ⟨left', eq, .inr (List.append_ne_nil_of_left_ne_nil nonempty _)⟩

/-! ## Standard texts -/

/-- The lexemes of the arguments of the standard call, and of the parenthesis behind them. -/
def Color.argumentLexemes (c : Color) : List Lexeme := c.row.leaves ++ [⟨.closing .round, [')']⟩]

namespace Color

/-- What opens a block in parentheses leaves no brackets open with the arguments behind it. -/
theorem neutral_arguments (c : Color) {o : Opener} (round : o.shape = .round) (t : Text) :
    Neutral (⟨.opening o, t⟩ :: c.argumentLexemes) := by
  have spelled : c.row.Spelled (o.shape :: []) (closing o true ++ []) := by
    rw [closing, if_pos rfl, round]
    exact c.spelled_row _ []
  have closer_eq : closer o true = [⟨.closing .round, [')']⟩] := by
    rw [closer, if_pos rfl, round]
    rfl
  rcases nest_round (t := t) round spelled with ⟨-, neutral⟩ | ⟨unclosed, -⟩
  · rw [closer_eq] at neutral
    exact neutral
  · cases unclosed

/-- The arguments are read before anything. -/
theorem lexed_arguments (c : Color) (z : Text) : Lexed c.argumentLexemes z :=
  .append (c.spelled_row [] z).lexed (lexed_closer (.call CallName.rgba) true z)

theorem textOf_argumentLexemes (c : Color) : c.text = CallName.rgba ++ '(' :: Lexeme.textOf c.argumentLexemes := by
  have text := c.text_append []
  rw [List.append_nil] at text
  rw [text, argumentLexemes, Lexeme.textOf_append, textOf_leaves]
  rfl

/-- The lexemes of the text of a colour. -/
theorem lexemes_text (c : Color) :
    lexemes 0 c.text = ⟨.opening (.call CallName.rgba), CallName.rgba ++ ['(']⟩ :: c.argumentLexemes := by
  have lexed : Lexed (⟨.opening (.call CallName.rgba), CallName.rgba ++ ['(']⟩ :: c.argumentLexemes) [] :=
    .cons (reads_standard _) (c.lexed_arguments [])
  rw [textOf_argumentLexemes, ← lexed.whole, Lexeme.textOf_cons, List.append_assoc]
  rfl

end Color

namespace Shorthand

/-- Black and white of opacity 1 are three digits of one kind. -/
theorem solid_eq {s : Shorthand} {t : Text} (h : s.solid? = some t) :
    t = ['#', '0', '0', '0'] ∨ t = ['#', 'F', 'F', 'F'] := by
  unfold solid? at h
  split at h
  · exact .inl (Option.some.inj h).symm
  · exact .inr (Option.some.inj h).symm
  · cases h

/-- All others are calls. -/
theorem standard_of_none {s : Shorthand} (h : s.solid? = none) : s.standard = s.color.text := by
  rw [standard, h, Option.getD_none]

/-- A standard text starts with the name of its call or, where it is none, with `#`. -/
theorem exists_standard (s : Shorthand) :
    ∃ m y, s.standard = m :: y ∧ (m = 'r' ∧ s.solid? = none ∨ m = '#' ∧ s.solid?.isSome = true) := by
  cases solid : s.solid? with
  | none => exact ⟨'r', _, (standard_of_none solid).trans rfl, .inl ⟨rfl, rfl⟩⟩
  | some t =>
    rw [standard, solid, Option.getD_some]
    rcases solid_eq solid with rfl | rfl
    · exact ⟨'#', _, rfl, .inr ⟨rfl, rfl⟩⟩
    · exact ⟨'#', _, rfl, .inr ⟨rfl, rfl⟩⟩

/-- A standard text ends with its parenthesis or with a digit. -/
theorem exists_last (s : Shorthand) : ∃ y q, s.standard = y ++ [q] ∧ (q = ')' ∨ q = '0' ∨ q = 'F') := by
  cases solid : s.solid? with
  | none => exact ⟨_, ')', standard_of_none solid, .inl rfl⟩
  | some t =>
    rw [standard, solid, Option.getD_some]
    rcases solid_eq solid with rfl | rfl
    · exact ⟨['#', '0', '0'], '0', rfl, .inr (.inl rfl)⟩
    · exact ⟨['#', 'F', 'F'], 'F', rfl, .inr (.inr rfl)⟩

end Shorthand

/-- Three digits are one hash where no name goes on. -/
theorem reads_digits {c : Char} (starts : ∀ z, Token.startsHash (c :: z) = true)
    (digit : Character.isNameChar c = true) {z : Text} (h : nameLength 0 z = 0) :
    Lexeme.Reads ⟨.hash (unescape 0 [c, c, c]), ['#', c, c, c]⟩ z := by
  have length : nameLength 0 (c :: c :: c :: z) = 3 := by
    simp only [nameLength_zero, digit, if_true, h]
  apply reads_of_read
  rw [Token.read_eq, show Token.start '#' _ = .hash from rfl]
  show Token.readHash (c :: c :: c :: z) = _
  rw [Token.readHash_eq, if_pos (starts _), length]
  rfl

/-- **A standard text is read before what follows** as it is read alone, and leaves no brackets open. -/
theorem lexemes_standard (s : Shorthand) :
    Neutral (lexemes 0 s.standard)
      ∧ ∀ z, (s.solid?.isSome = true → nameLength 0 z = 0) → Lexed (lexemes 0 s.standard) z := by
  cases solid : s.solid? with
  | none =>
    rw [Shorthand.standard_of_none solid, s.color.lexemes_text]
    refine ⟨s.color.neutral_arguments (o := .call CallName.rgba) rfl _, fun z _ => ?_⟩
    exact .cons (Color.reads_standard _) (s.color.lexed_arguments z)
  | some t =>
    rw [Shorthand.standard, solid, Option.getD_some]
    have digits : ∃ name, lexemes 0 t = [⟨.hash name, t⟩]
        ∧ ∀ z, nameLength 0 z = 0 → Lexeme.Reads ⟨.hash name, t⟩ z := by
      rcases Shorthand.solid_eq solid with rfl | rfl
      · exact ⟨_, rfl, fun z => reads_digits (fun _ => rfl) rfl⟩
      · exact ⟨_, rfl, fun z => reads_digits (fun _ => rfl) rfl⟩
    obtain ⟨name, alone, reads⟩ := digits
    rw [alone]
    refine ⟨neutral_leaf (by simp) (by simp) (by simp) neutral_nil, fun z free => ?_⟩
    exact .cons (reads z (free rfl)) (.nil z)

/-- A call of any name, or a parenthesis behind a lexeme, with the arguments of a colour. -/
theorem Color.exists_called (c : Color) (z t : Text)
    (h : (∃ n, Lexeme.Reads ⟨.opening (.call n), t ++ ['(']⟩ (Lexeme.textOf c.argumentLexemes ++ z))
      ∨ ∃ k : Token, k.endsInName = true ∧ Lexeme.Reads ⟨k, t⟩ ('(' :: (Lexeme.textOf c.argumentLexemes ++ z))) :
    ∃ new, Lexeme.textOf new = t ++ '(' :: Lexeme.textOf c.argumentLexemes ∧ Neutral new ∧ Lexed new z := by
  rcases h with ⟨n, reads⟩ | ⟨k, name, reads⟩
  · refine ⟨⟨.opening (.call n), t ++ ['(']⟩ :: c.argumentLexemes, ?_, c.neutral_arguments rfl _, ?_⟩
    · simp
    · exact .cons reads (c.lexed_arguments z)
  · refine ⟨⟨k, t⟩ :: ⟨.opening (.bracket .round), ['(']⟩ :: c.argumentLexemes, ?_, ?_, ?_⟩
    · simp
    · have opens (o : Opener) : k ≠ .opening o := by rintro rfl; cases name
      have closes (b : Bracket) : k ≠ .closing b := by rintro rfl; cases name
      have semicolon : k ≠ .semicolon := by rintro rfl; cases name
      exact neutral_leaf opens closes semicolon (c.neutral_arguments rfl _)
    · exact .cons reads (.cons (reads_mark rfl _) (c.lexed_arguments z))

/-- What sticks to digits is read with the standard call, and leaves no brackets open. -/
theorem exists_stuck {p : Lexeme} {y : Text} (reads : p.Reads ('#' :: y)) (sticks : p.sticks = true) (c : Color)
    (z : Text) : ∃ new, Lexeme.textOf new = p.text ++ c.text ∧ Neutral new ∧ Lexed new z := by
  have stuck := reads.stuck sticks (Lexeme.textOf c.argumentLexemes ++ z)
  rw [← List.append_assoc] at stuck
  obtain ⟨new, text, kept⟩ := c.exists_called z (p.text ++ CallName.rgba) stuck
  refine ⟨new, ?_, kept⟩
  rw [text, c.textOf_argumentLexemes, List.append_assoc]

/-- The same for what sticks to a hyphen and digits. -/
theorem exists_stuckFar {q : Lexeme} {y : Text} (reads : q.Reads ('-' :: '#' :: y)) (sticks : q.sticksFar = true)
    (c : Color) (z : Text) : ∃ new, Lexeme.textOf new = q.text ++ '-' :: c.text ∧ Neutral new ∧ Lexed new z := by
  have stuck := reads.stuckFar sticks (Lexeme.textOf c.argumentLexemes ++ z)
  obtain ⟨new, text, kept⟩ := c.exists_called z (q.text ++ '-' :: CallName.rgba) (.inr stuck)
  refine ⟨new, ?_, kept⟩
  rw [text, c.textOf_argumentLexemes, List.append_assoc]
  rfl

/-- What sticks leaves the brackets as they are. -/
theorem neutral_stuck {l : Lexeme} (sticks : l.sticks = true ∨ l.sticksFar = true) {ls : List Lexeme}
    (h : Neutral ls) : Neutral (l :: ls) := by
  have none_of {k : Token} (token : l.token = k)
      (none_sticks : Lexeme.sticks ⟨k, l.text⟩ = false ∧ Lexeme.sticksFar ⟨k, l.text⟩ = false) : False := by
    rw [← token] at none_sticks
    rcases sticks with sticks | sticks
    · exact Bool.false_ne_true (none_sticks.1.symm.trans sticks)
    · exact Bool.false_ne_true (none_sticks.2.symm.trans sticks)
  exact neutral_leaf (fun o token => none_of token ⟨rfl, rfl⟩) (fun b token => none_of token ⟨rfl, rfl⟩)
    (fun token => none_of token ⟨rfl, rfl⟩) h

/-! ## Step by step -/

/-- Whether no name goes on at the byte `pos`, where the text `t` starts, once the spans of `os` are expanded. -/
structure Free (os : List Occurrence) (pos : Nat) (t : Text) : Prop where
  /-- What starts there becomes `#000` or `#FFF`. -/
  solid : ∀ o ∈ os, o.start = pos → o.shorthand.solid?.isSome = true
  /-- Where nothing does, no name goes on. -/
  name : (∀ o ∈ os, o.start ≠ pos) → nameLength 0 t = 0

/-- Spans that start elsewhere do not matter. -/
theorem Free.of_others {os all : List Occurrence} {pos : Nat} {t : Text} (h : Free all pos t)
    (sub : ∀ o ∈ os, o ∈ all) (others : ∀ o ∈ all, o ∈ os ∨ o.start < pos) : Free os pos t where
  solid := fun o ho => h.solid o (sub o ho)
  name := by
    intro elsewhere
    refine h.name fun o ho => ?_
    rcases others o ho with ho | before
    · exact elsewhere o ho
    · exact Nat.ne_of_lt before

/-- The same in a text that starts later. -/
theorem Free.shift {os : List Occurrence} {pos : Nat} {t : Text} (h : Free os pos t) (n : Nat) :
    Free (os.map (·.shift n)) (pos + n) t where
  solid := by
    intro o ho start
    obtain ⟨p, hp, rfl⟩ := List.mem_map.mp ho
    exact h.solid p hp (Nat.add_right_cancel start)
  name := fun elsewhere => h.name fun p hp start =>
    elsewhere _ (List.mem_map_of_mem hp) (congrArg (· + n) start)

/-- What the lexemes `ms` are for the lexemes `ls`, which start at the byte `pos` before the text `s`, if the spans of
    `os` are expanded and `s'` is behind them. -/
structure Expanded (s s' : Text) (pos : Nat) (ls : List Lexeme) (os : List Occurrence) (ms : List Lexeme) : Prop where
  respelled : Respelled pos (Lexeme.textOf ls) os (Lexeme.textOf ms)
  lexed : Lexed ms s'
  grown : Grown pos ls os ms
  free : Free os pos (Lexeme.textOf ls ++ s) → nameLength 0 (Lexeme.textOf ms ++ s') = 0

namespace Expanded

variable {s s' : Text} {pos : Nat} {os : List Occurrence}

/-- Where no span is left, nothing changes. -/
theorem rest {ls : List Lexeme} (lexed : Lexed ls s) (parted : Parted s s') (pos : Nat) :
    Expanded s s' pos ls [] ls where
  respelled := .rest _ _
  lexed := lexed.parted parted
  grown := .rest _ _
  free := fun h => (parted.behind _).nameLength (h.name (by simp))

variable {before stuck more behind new ms : List Lexeme} {first : Lexeme} {o : Occurrence}

/-- The first span, where the lexemes `new` are read instead of those in it and what is stuck to it. -/
theorem shorthand (h : Expanded s s' o.stop behind os ms)
    (lexed : Lexed (before ++ (stuck ++ (first :: more ++ behind))) s)
    (start : o.start = pos + Text.byteLength (Lexeme.textOf (before ++ stuck)))
    (stop : o.stop = o.start + Text.byteLength (Lexeme.textOf (first :: more))) (heads : o.shorthand.Heads first)
    (nests : Neutral (stuck ++ first :: more) ∨ Opens (stuck ++ first :: more) ∧ behind = [])
    (text : Lexeme.textOf new = Lexeme.textOf stuck ++ o.shorthand.standard)
    (grows : stuck = [] ∧ new = lexemes 0 o.shorthand.standard ∨ ∃ first l, stuck = first ++ [l] ∧ l.sticks = true)
    (neutral : Neutral new) (read : Lexed (before ++ new) (Lexeme.textOf ms ++ s')) :
    Expanded s s' pos (before ++ (stuck ++ (first :: more ++ behind))) (o :: os) (before ++ (new ++ ms)) := by
  have inside : Lexed (first :: (more ++ behind)) s := lexed.parts.2.parts.2
  have some_text : Lexeme.textOf (first :: more) ≠ [] := by
    intro empty
    rw [Lexeme.textOf_cons] at empty
    exact inside.uncons.1.1 (List.append_eq_nil_iff.mp empty).1
  have spelled : Lexeme.textOf (before ++ (stuck ++ (first :: more ++ behind)))
      = Lexeme.textOf (before ++ stuck) ++ (Lexeme.textOf (first :: more) ++ Lexeme.textOf behind) := by
    simp only [Lexeme.textOf_append, List.append_assoc]
  have spelled' : Lexeme.textOf (before ++ (new ++ ms))
      = Lexeme.textOf (before ++ stuck) ++ (o.shorthand.standard ++ Lexeme.textOf ms) := by
    simp only [Lexeme.textOf_append, text, List.append_assoc]
  constructor
  · rw [spelled, spelled']
    exact .shorthand start stop some_text h.respelled
  · rw [← List.append_assoc]
    exact read.append h.lexed
  · exact .shorthand start stop grows nests neutral h.grown
  · intro free
    obtain ⟨m, y, standard, kind⟩ := o.shorthand.exists_standard
    rw [spelled', standard, List.append_assoc]
    by_cases here : Lexeme.textOf (before ++ stuck) = []
    · -- the span starts here
      rw [here] at start ⊢
      have solid := free.solid o List.mem_cons_self start
      rcases kind with ⟨-, translucent⟩ | ⟨rfl, -⟩
      · rw [translucent] at solid
        cases solid
      · rfl
    · have elsewhere : ∀ p ∈ o :: os, p.start ≠ pos := by
        have positive := mt Text.byteLength_eq_zero_iff.mp here
        intro p hp
        rcases List.mem_cons.mp hp with rfl | hp
        · omega
        · have := h.respelled.pairwise.1 p hp
          omega
      have none_here := free.name elsewhere
      obtain ⟨m', y', start', like, -⟩ := heads.like inside.uncons.1
      rw [spelled, Lexeme.textOf_cons, List.append_assoc, List.append_assoc, List.append_assoc] at none_here
      rw [Lexeme.textOf_append, List.append_assoc] at start'
      rw [start'] at none_here
      refine like.nameLength here none_here ?_ _
      rcases kind with ⟨rfl, -⟩ | ⟨rfl, -⟩ <;> rfl

/-- The first span is expanded with what is stuck to it. -/
theorem exists_grown (h : Expanded s s' o.stop behind os ms) {all : List Lexeme} (cut : before ++ stuck = all)
    (lexed : Lexed (all ++ (first :: more ++ behind)) s) (start : o.start = pos + Text.byteLength (Lexeme.textOf all))
    (stop : o.stop = o.start + Text.byteLength (Lexeme.textOf (first :: more))) (heads : o.shorthand.Heads first)
    (nests : Neutral (first :: more) ∨ Opens (first :: more) ∧ behind = []) {y : Text}
    (lead : Lexed before (Lexeme.textOf stuck ++ '#' :: y)) (some_text : Lexeme.textOf stuck ≠ [])
    (far : ∀ l ∈ before.getLast?, Lexeme.textOf stuck = ['-'] → l.sticksFar = false)
    (sticks : ∃ first l, stuck = first ++ [l] ∧ l.sticks = true) (neutral : Neutral stuck)
    (text : Lexeme.textOf new = Lexeme.textOf stuck ++ o.shorthand.color.text)
    (kept : Neutral new ∧ Lexed new (Lexeme.textOf ms ++ s')) (none_solid : o.shorthand.solid? = none) :
    ∃ ms', Expanded s s' pos (all ++ (first :: more ++ behind)) (o :: os) ms' := by
  subst cut
  rw [List.append_assoc] at lexed ⊢
  have color := Shorthand.standard_of_none none_solid
  refine ⟨_, h.shorthand lexed start stop heads ?_ (color ▸ text) (.inr sticks) kept.1 (.append ?_ kept.2)⟩
  · exact nests.imp neutral.append fun opens => ⟨neutral.opens opens.1, opens.2⟩
  · rw [text, List.append_assoc]
    exact lead.swap (.inl rfl) (fun _ _ empty => absurd empty some_text) (fun l hl hyphen _ => far l hl hyphen) _

/-- The first span is expanded where nothing is stuck to it. -/
theorem exists_kept (h : Expanded s s' o.stop behind os ms) (lexed : Lexed (before ++ (first :: more ++ behind)) s)
    (start : o.start = pos + Text.byteLength (Lexeme.textOf before))
    (stop : o.stop = o.start + Text.byteLength (Lexeme.textOf (first :: more))) (heads : o.shorthand.Heads first)
    (nests : Neutral (first :: more) ∨ Opens (first :: more) ∧ behind = [])
    (free : o.shorthand.solid?.isSome = true → nameLength 0 (Lexeme.textOf ms ++ s') = 0)
    (read : Lexed before (o.shorthand.standard ++ (Lexeme.textOf ms ++ s'))) :
    ∃ ms', Expanded s s' pos (before ++ (first :: more ++ behind)) (o :: os) ms' := by
  have text : Lexeme.textOf (lexemes 0 o.shorthand.standard) = o.shorthand.standard := textOf_lexemes_zero _
  obtain ⟨neutral, standard_lexed⟩ := lexemes_standard o.shorthand
  refine ⟨_, @Expanded.shorthand s s' pos os before [] more behind (lexemes 0 o.shorthand.standard) ms first o h
    lexed ?_ stop heads nests text (.inl ⟨rfl, rfl⟩) neutral (.append ?_ (standard_lexed _ free))⟩
  · rw [List.append_nil]
    exact start
  · rw [text]
    exact read

/-- **The first span is expanded**, whatever is before it. -/
theorem exists_shorthand (h : Expanded s s' o.stop behind os ms) (lexed : Lexed (before ++ (first :: more ++ behind)) s)
    (start : o.start = pos + Text.byteLength (Lexeme.textOf before))
    (stop : o.stop = o.start + Text.byteLength (Lexeme.textOf (first :: more))) (heads : o.shorthand.Heads first)
    (nests : Neutral (first :: more) ∨ Opens (first :: more) ∧ behind = [])
    (free : o.shorthand.solid?.isSome = true → nameLength 0 (Lexeme.textOf ms ++ s') = 0) :
    ∃ ms', Expanded s s' pos (before ++ (first :: more ++ behind)) (o :: os) ms' := by
  have inside : Lexed (first :: (more ++ behind)) s := lexed.parts.2
  obtain ⟨m, y, text, like, translucent⟩ := heads.like inside.uncons.1
  have lead := lexed.parts.1
  rw [List.cons_append, Lexeme.textOf_cons, List.append_assoc, text] at lead
  have alone := h.exists_kept lexed start stop heads nests free
  obtain ⟨n, z, standard, ⟨rfl, none_solid⟩ | ⟨rfl, -⟩⟩ := o.shorthand.exists_standard
  · by_cases stuck : ∃ bs p, before = bs ++ [p] ∧ p.sticks = true ∧ m = '#'
    · obtain ⟨bs, p, rfl, sticks, rfl⟩ := stuck
      obtain ⟨lead, reads⟩ := lead.parts
      obtain ⟨reads, -⟩ := reads.uncons
      by_cases far : ∃ cs q, bs = cs ++ [q] ∧ q.sticksFar = true ∧ p.text = ['-']
      · obtain ⟨cs, q, rfl, sticksFar, hyphen⟩ := far
        obtain ⟨lead, readsFar⟩ := lead.parts
        obtain ⟨readsFar, -⟩ := readsFar.uncons
        have text' : Lexeme.textOf ([q] ++ [p]) = q.text ++ ['-'] := by
          rw [Lexeme.textOf_append, Lexeme.textOf_cons, Lexeme.textOf_cons, hyphen]
          simp
        rw [Lexeme.textOf_cons, hyphen] at readsFar
        obtain ⟨new, new_text, kept⟩ := exists_stuckFar readsFar sticksFar o.shorthand.color (Lexeme.textOf ms ++ s')
        have lead' : Lexed cs (Lexeme.textOf ([q] ++ [p]) ++ '#' :: y) := by
          rw [← List.append_assoc, ← Lexeme.textOf_append] at lead
          exact lead
        refine h.exists_grown (List.append_assoc cs [q] [p]).symm lexed start stop heads nests lead' ?_ ?_
          ⟨[q], p, rfl, sticks⟩ (neutral_stuck (.inr sticksFar) (neutral_stuck (.inl sticks) neutral_nil)) ?_ kept
          none_solid
        · exact text' ▸ List.append_ne_nil_of_left_ne_nil readsFar.1 _
        · intro l _ short
          rw [text'] at short
          rcases List.append_eq_singleton_iff.mp short with ⟨empty, -⟩ | ⟨-, empty⟩
          · exact absurd empty readsFar.1
          · cases empty
        · rw [new_text, text', List.append_assoc]
          rfl
      · have text' : Lexeme.textOf [p] = p.text := by rw [Lexeme.textOf_cons, Lexeme.textOf_nil, List.append_nil]
        obtain ⟨new, new_text, kept⟩ := exists_stuck reads sticks o.shorthand.color (Lexeme.textOf ms ++ s')
        refine h.exists_grown rfl lexed start stop heads nests lead (text' ▸ reads.1) (fun l hl hyphen => ?_)
          ⟨[], p, rfl, sticks⟩ (neutral_stuck (.inl sticks) neutral_nil) (text' ▸ new_text) kept none_solid
        obtain ⟨cs, rfl⟩ := List.getLast?_eq_some_iff.mp hl
        exact Bool.eq_false_iff.mpr fun sticksFar => far ⟨cs, l, rfl, sticksFar, text' ▸ hyphen⟩
    · refine alone ?_
      rw [standard]
      refine @Lexed.swap before [] y m lead like (fun l hl _ hash => ?_) (by simp) _
      obtain ⟨bs, rfl⟩ := List.getLast?_eq_some_iff.mp hl
      exact Bool.eq_false_iff.mpr fun sticks => stuck ⟨bs, l, rfl, sticks, hash⟩
  · refine alone ?_
    rw [standard]
    exact lead.stop (.inr like) (stop_cons rfl _)

end Expanded

/-- **Marked lexemes are expanded**, one span after the other. -/
theorem exists_expanded {s s' : Text} (parted : Parted s s') {all os : List Occurrence} {pos : Nat} {ls : List Lexeme}
    (marked : Marked pos ls os) (lexed : Lexed ls s) (sub : ∀ o ∈ os, o ∈ all)
    (others : ∀ p ∈ all, p ∈ os ∨ p.start < pos)
    (free : ∀ o ∈ os, o.shorthand.solid?.isSome = true → ∀ u t, Lexeme.textOf ls ++ s = u ++ t →
      o.stop = pos + Text.byteLength u → Free all o.stop t) :
    ∃ ms, Expanded s s' pos ls os ms := by
  induction marked with
  | rest pos ls => exact ⟨ls, .rest lexed parted pos⟩
  | @shorthand pos before more behind first o os start stop heads nests _ ih =>
    have inside : Lexed (first :: (more ++ behind)) s := lexed.parts.2
    have some_text : 0 < Text.byteLength (Lexeme.textOf (first :: more)) := by
      refine Nat.pos_of_ne_zero fun zero => inside.uncons.1.1 ?_
      have empty := Text.byteLength_eq_zero_iff.mp zero
      rw [Lexeme.textOf_cons] at empty
      exact (List.append_eq_nil_iff.mp empty).1
    have split : Lexeme.textOf (before ++ (first :: more ++ behind)) ++ s
        = Lexeme.textOf (before ++ first :: more) ++ (Lexeme.textOf behind ++ s) := by
      simp only [Lexeme.textOf_append, List.append_assoc]
    have reached : o.stop = pos + Text.byteLength (Lexeme.textOf (before ++ first :: more)) := by
      rw [Lexeme.textOf_append, Text.byteLength_append]
      omega
    have sub' : ∀ p ∈ os, p ∈ all := fun p hp => sub p (List.mem_cons_of_mem _ hp)
    have others' : ∀ p ∈ all, p ∈ os ∨ p.start < o.stop := by
      intro p hp
      rcases others p hp with hp | before
      · rcases List.mem_cons.mp hp with rfl | hp
        · exact .inr (by omega)
        · exact .inl hp
      · exact .inr (by omega)
    obtain ⟨ms, h⟩ := ih lexed.parts.2.parts.2 sub' others' fun p hp solid u t cut stop' => by
      refine free p (List.mem_cons_of_mem _ hp) solid (Lexeme.textOf (before ++ first :: more) ++ u) t ?_ ?_
      · rw [split, cut, List.append_assoc]
      · rw [Text.byteLength_append]
        omega
    refine h.exists_shorthand lexed start stop heads nests fun solid => h.free ?_
    exact (free o List.mem_cons_self solid _ _ split reached).of_others sub' others'

end Translucent
