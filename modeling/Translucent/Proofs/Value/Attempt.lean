import Translucent.Proofs.Token.Cursor
import Translucent.Value.Scanner

/-!
  # Attempts, evaluated on the tree

  What the readings of arguments find among lexemes is what is found in the row of a block.

  1. **Rows** — `Parses` says that a reading does with lexemes what a function does with the row of what
     counts.  It is closed under sequencing, so every reading of arguments has such a function.
  2. **Whole rows** — a function that `Ends` finds something only if it leaves nothing; then what is
     read within a block is the result of the function (`within_result`).
  3. **Results** — `run_within_callShorthand` for calls, `run_digitsWithAlpha` for digits: what the
     attempt finds, and where it stops in either case.
-/

namespace Translucent

open Content

namespace Reading

variable {α β : Type} {stack : List Bracket}

/-! ## Readings as functions on rows -/

/-- Whether the reading `r` within the blocks `stack` does with lexemes what `p` does with the row of
    what counts: the same result, and the same row behind it. -/
def Parses (stack : List Bracket) (r : Reading α) (p : Content → Option (α × Content)) : Prop :=
  ∀ k, ((r.run k).1.map fun a => (a, ((r.run k).2.row stack).significant))
    = p (k.row stack).significant

/-- The result of a reading, from the row of what counts. -/
theorem Parses.result {r : Reading α} {p : Content → Option (α × Content)} (h : Parses stack r p)
    (k : Cursor) : (r.run k).1 = (p (k.row stack).significant).map Prod.fst := by
  rw [← h k]
  cases (r.run k).1 <;> rfl

theorem parses_pure (a : α) : Parses stack (pure a) fun c => some (a, c) := fun _ => rfl

theorem parses_ofOption (a : Option α) : Parses stack (ofOption a) fun c => a.map (·, c) :=
  fun _ => rfl

theorem parses_bind {r : Reading α} {f : α → Reading β} {p : Content → Option (α × Content)}
    {q : α → Content → Option (β × Content)} (hr : Parses stack r p)
    (hf : ∀ a, Parses stack (f a) (q a)) :
    Parses stack (r >>= f) fun c => (p c).bind fun (a, c) => q a c := by
  intro k
  have run : (r >>= f).run k = (andThen r f).run k := rfl
  show _ = (p (k.row stack).significant).bind fun (a, c) => q a c
  rw [run, ← hr k]
  simp only [andThen]
  cases (r.run k).1 with
  | none => rfl
  | some a => exact hf a _

/-- The first component of a row, as a lexeme. -/
def firstWord : Content → Option (Lexeme × Content)
  | .nil => none
  | .leaf l rest => some (l, rest)
  | .block o t _ _ rest => some (⟨.opening o, t⟩, rest)

theorem parses_word : Parses stack (word stack.head?) firstWord := by
  intro k
  rcases word_cases stack k with ⟨row, r⟩ | ⟨l, k', r, -, -, row⟩ | ⟨l, k', o, r, -, ho, row⟩
  · rw [row, r]; rfl
  · rw [row, r]; rfl
  · rw [row, r]
    show some (l, _) = some (⟨.opening o, l.text⟩, _)
    rw [← ho]

/-- The end of a row. -/
def nothingLeft : Content → Option (Unit × Content)
  | .nil => some ((), .nil)
  | _ => none

theorem run_isAtEnd (k : Cursor) :
    (isAtEnd stack.head?).run k = (some ((k.row stack).significant == .nil), k) := by
  show (some ((word stack.head?).run k).1.isNone, k) = _
  rw [parses_word.result k]
  cases (k.row stack).significant <;> rfl

theorem parses_atEnd : Parses stack (atEnd stack.head?) nothingLeft := by
  intro k
  have h : (atEnd stack.head?).run k
      = ((if ((k.row stack).significant == .nil) = true then some () else none), k) := by
    show ((andThen (isAtEnd stack.head?) fun b => require (b = true)).run k) = _
    simp only [andThen, run_isAtEnd]
    rfl
  rw [h]
  cases h : (k.row stack).significant with
  | nil => simp only [beq_self_eq_true, if_true, nothingLeft, Option.map_some]
  | _ => rfl

/-! ## Arguments -/

/-- The first component of a row, if `f` makes something of it. -/
def firstAs (f : Lexeme → Option α) (c : Content) : Option (α × Content) :=
  (firstWord c).bind fun (l, rest) => (f l).map (·, rest)

theorem parses_firstAs {r : Reading α} {f : Lexeme → Option α}
    (h : r = word stack.head? >>= fun l => ofOption (f l)) : Parses stack r (firstAs f) := by
  rw [h]
  exact parses_bind parses_word fun l => parses_ofOption (f l)

theorem parses_alpha : Parses stack (alpha stack.head?) (firstAs Lexeme.alpha?) :=
  parses_firstAs rfl

theorem parses_channel : Parses stack (channel stack.head?) (firstAs Lexeme.channel?) :=
  parses_firstAs rfl

/-- A comma, as what a lexeme may be. -/
def asComma (l : Lexeme) : Option Unit := if l.token = .comma then some () else none

theorem parses_comma : Parses stack (comma stack.head?) (firstAs asComma) := parses_firstAs rfl

@[simp] theorem firstAs_nil (f : Lexeme → Option α) : firstAs f .nil = none := rfl

@[simp] theorem firstAs_leaf (f : Lexeme → Option α) (l : Lexeme) (rest : Content) :
    firstAs f (.leaf l rest) = (f l).map (·, rest) := rfl

@[simp] theorem alpha_block (o : Opener) (t : Text) (body : Content) (closed : Bool)
    (rest : Content) : firstAs Lexeme.alpha? (.block o t body closed rest) = none := rfl

@[simp] theorem channel_block (o : Opener) (t : Text) (body : Content) (closed : Bool)
    (rest : Content) : firstAs Lexeme.channel? (.block o t body closed rest) = none := by
  simp [firstAs, firstWord, Lexeme.channel?]

@[simp] theorem comma_block (o : Opener) (t : Text) (body : Content) (closed : Bool)
    (rest : Content) : firstAs asComma (.block o t body closed rest) = none := rfl

/-- The arguments of `rgb` as a row. -/
def rgbRow (c : Content) : Option (Rgb × Content) :=
  (firstAs Lexeme.channel? c).bind fun (red, c) =>
  (firstAs asComma c).bind fun (_, c) =>
  (firstAs Lexeme.channel? c).bind fun (green, c) =>
  (firstAs asComma c).bind fun (_, c) =>
  (firstAs Lexeme.channel? c).bind fun (blue, c) =>
  (nothingLeft c).bind fun (_, c) => some (⟨red, green, blue⟩, c)

theorem parses_rgbArguments : Parses stack (rgbArguments stack.head?) rgbRow :=
  parses_bind parses_channel fun _ => parses_bind parses_comma fun _ =>
    parses_bind parses_channel fun _ => parses_bind parses_comma fun _ =>
      parses_bind parses_channel fun _ => parses_bind parses_atEnd fun _ => parses_pure _

/-- On a row that is too short, too long or of other components, both find nothing. -/
theorem rgbRow_eq (arguments : Content) :
    (rgbRow arguments.significant).map Prod.fst = rgbCall? arguments := by
  rw [rgbCall?]
  rcases arguments.significant with
    _ | ⟨r, _ | ⟨c₁, _ | ⟨g, _ | ⟨c₂, _ | ⟨b, _ | _ | _⟩ | _⟩ | _⟩ | _⟩ | _⟩ | _
  all_goals simp only [rgbRow, firstAs_leaf, firstAs_nil, channel_block,
    comma_block, Option.bind_map, Function.comp_def, Option.bind_none, Option.bind_fun_none,
    Option.map_none, nothingLeft]
  -- five leaves are left: they are read from left to right, or the commas first
  by_cases h₁ : c₁.token = .comma
  · by_cases h₂ : c₂.token = .comma
    · rw [if_pos ⟨h₁, h₂⟩, asComma, if_pos h₁, asComma, if_pos h₂]
      cases r.channel? <;> cases g.channel? <;> cases b.channel? <;> rfl
    · rw [if_neg fun h => h₂ h.2, asComma, asComma, if_neg h₂]
      simp only [Option.bind_none, Option.bind_fun_none, Option.map_none]
  · rw [if_neg fun h => h₁ h.1, asComma, if_neg h₁]
    simp only [Option.bind_none, Option.bind_fun_none, Option.map_none]

/-- An opacity and nothing else as a row. -/
def alphaRow (c : Content) : Option (Alpha × Content) :=
  (firstAs Lexeme.alpha? c).bind fun (a, c) =>
  (nothingLeft c).bind fun (_, c) => some (a, c)

theorem parses_loneAlpha : Parses stack (loneAlpha stack.head?) alphaRow :=
  parses_bind parses_alpha fun _ => parses_bind parses_atEnd fun _ => parses_pure _

theorem alphaRow_eq (c : Content) :
    (alphaRow c).map Prod.fst
      = match c with
        | .leaf a .nil => a.alpha?
        | _ => none := by
  rcases c with _ | ⟨a, _ | _ | _⟩ | _
  all_goals simp only [alphaRow, firstAs_leaf, firstAs_nil, alpha_block,
    Option.bind_map, Function.comp_def, Option.bind_none, Option.bind_fun_none, Option.map_none,
    nothingLeft]
  cases a.alpha? <;> rfl

/-- A comma and an opacity as a row, behind the colour of `s`. -/
def opacityRow (s : Alpha → Shorthand) (c : Content) : Option (Shorthand × Content) :=
  (firstAs asComma c).bind fun (_, c) =>
  (firstAs Lexeme.alpha? c).bind fun (a, c) =>
  (nothingLeft c).bind fun (_, c) => some (s a, c)

/-- The opacity behind a comma, if nothing else is left. -/
def opacity? : Content → Option Alpha
  | .leaf c (.leaf a .nil) => if c.token = .comma then a.alpha? else none
  | _ => none

theorem opacityRow_eq (s : Alpha → Shorthand) (c : Content) :
    (opacityRow s c).map Prod.fst = (opacity? c).map s := by
  rcases c with _ | ⟨c, _ | ⟨a, _ | _ | _⟩ | _⟩ | _
  all_goals simp only [opacityRow, firstAs_leaf, firstAs_nil, alpha_block, comma_block,
    Option.bind_map, Function.comp_def, Option.bind_none, Option.bind_fun_none, Option.map_none,
    nothingLeft, opacity?]
  by_cases h : c.token = .comma
  · rw [if_pos h, asComma, if_pos h]
    cases a.alpha? <;> rfl
  · rw [if_neg h, asComma, if_neg h]
    rfl

/-- The arguments of `rgba` are a colour and what follows it. -/
theorem rgbaCall?_eq (arguments : Content) :
    rgbaCall? arguments = match arguments.significant with
      | .leaf hex rest => hex.rgb?.bind fun c => (opacity? rest).map (.rgbaHex c)
      | .block (.call name) _ inner _ rest =>
        if name = CallName.rgb then
          (rgbCall? inner).bind fun c => (opacity? rest).map (.rgbaRgb c)
        else none
      | _ => none := by
  rw [rgbaCall?]
  rcases arguments.significant with _ | ⟨hex, rest⟩ | ⟨name | _, t, inner, closed, rest⟩
  case leaf =>
    rcases rest with _ | ⟨c, _ | ⟨a, _ | _ | _⟩ | _⟩ | _
    all_goals dsimp only
    case leaf.leaf.nil =>
      by_cases hc : c.token = .comma
      · rw [opacity?, if_pos hc, if_pos hc]
        cases hex.rgb? <;> cases a.alpha? <;> rfl
      · rw [opacity?, if_neg hc, if_neg hc]
        cases hex.rgb? <;> rfl
    all_goals cases hex.rgb? <;> rfl
  case block.call =>
    rcases rest with _ | ⟨c, _ | ⟨a, _ | _ | _⟩ | _⟩ | _
    all_goals dsimp only
    case leaf.leaf.nil =>
      by_cases hn : name = CallName.rgb
      · by_cases hc : c.token = .comma
        · rw [opacity?, if_pos hn, if_pos hc, if_pos ⟨hn, hc⟩]
          cases rgbCall? inner <;> cases a.alpha? <;> rfl
        · rw [opacity?, if_pos hn, if_neg hc, if_neg fun h => hc h.2]
          cases rgbCall? inner <;> rfl
      · rw [if_neg hn, if_neg fun h => hn h.1]
    all_goals split
    all_goals cases rgbCall? inner <;> rfl
  all_goals rfl

/-- An opacity or nothing as a row. -/
def whiteRow : Content → Option (Alpha × Content)
  | .nil => some (.transparent, .nil)
  | c => alphaRow c

theorem parses_whiteArgument : Parses stack (whiteArgument stack.head?) whiteRow := by
  intro k
  have run : (whiteArgument stack.head?).run k
      = if ((k.row stack).significant == .nil) = true then (some .transparent, k)
        else (loneAlpha stack.head?).run k := by
    show (andThen (isAtEnd stack.head?) fun b => if b = true then pure .transparent else
      loneAlpha stack.head?).run k = _
    simp only [andThen, run_isAtEnd]
    split <;> rfl
  have lone : Parses stack (loneAlpha stack.head?) alphaRow := parses_loneAlpha
  have lone := lone k
  rw [run]
  cases h : (k.row stack).significant with
  | nil =>
    rw [if_pos (by rfl)]
    show some (_, (k.row stack).significant) = _
    rw [h]
    rfl
  | _ =>
    rw [h] at lone
    rw [if_neg (by simp)]
    exact lone

theorem whiteRow_eq (c : Content) :
    (whiteRow c).map Prod.fst
      = match c with
        | .nil => some .transparent
        | .leaf a .nil => a.alpha?
        | _ => none := by
  rcases c with _ | ⟨a, _ | _ | _⟩ | _
  · rfl
  all_goals rw [whiteRow, alphaRow_eq]
  all_goals simp

/-- The first argument of `rgba` as a row. -/
def colorRow : Content → Option ((Alpha → Shorthand) × Content)
  | .leaf l rest => l.rgb?.map (.rgbaHex ·, rest)
  | .block (.call name) _ inner _ rest =>
    if name = CallName.rgb then (rgbCall? inner).map (.rgbaRgb ·, rest) else none
  | _ => none

/-- A function on rows that finds something only if it leaves nothing. -/
def Ends (p : Content → Option (α × Content)) : Prop := ∀ c a c', p c = some (a, c') → c' = .nil

/-- What is read inside a block, from the row of the block. -/
theorem within_result {r : Option Bracket → Reading α} {p : Content → Option (α × Content)}
    {b : Bracket} (hr : Parses (b :: stack) (r (some b)) p) (ends : Ends p) {k : Cursor}
    (h : k.opened = some b) :
    ((within r).run k).1 = (p (k.enter.row (b :: stack)).significant).map Prod.fst := by
  have result := hr.result k.enter
  have row := hr k.enter
  simp only [within, h]
  cases found : ((r (some b)).run k.enter).1 with
  | none => rw [← result, found, ite_self]
  | some a =>
    rw [found] at row
    have nothing := ends _ _ _ row.symm
    have complete : ((word (some b)).run ((r (some b)).run k.enter).2).1 = none := by
      have parses : Parses (b :: stack) (word (some b)) firstWord := parses_word
      rw [parses.result, nothing]
      rfl
    rw [complete, ← result, found]
    rfl

theorem nil_of_nothingLeft {c c' : Content} {a b : α}
    (h : ((nothingLeft c).bind fun (_, c) => some (a, c)) = some (b, c')) : c' = .nil := by
  cases c with
  | nil => exact (congrArg Prod.snd (Option.some.inj h)).symm
  | _ => cases h

theorem ends_map {p : Content → Option (α × Content)} (hp : Ends p) (f : α → β) :
    Ends fun c => (p c).bind fun (a, c) => some (f a, c) := by
  intro c b c' h
  obtain ⟨⟨a, rest⟩, found, h⟩ := Option.bind_eq_some_iff.mp h
  rw [← hp c a rest found]
  exact (congrArg Prod.snd (Option.some.inj h)).symm

theorem ends_rgbRow : Ends rgbRow := by
  intro c a c' h
  obtain ⟨_, -, h⟩ := Option.bind_eq_some_iff.mp h
  obtain ⟨_, -, h⟩ := Option.bind_eq_some_iff.mp h
  obtain ⟨_, -, h⟩ := Option.bind_eq_some_iff.mp h
  obtain ⟨_, -, h⟩ := Option.bind_eq_some_iff.mp h
  obtain ⟨_, -, h⟩ := Option.bind_eq_some_iff.mp h
  exact nil_of_nothingLeft h

theorem ends_alphaRow : Ends alphaRow := by
  intro c a c' h
  obtain ⟨_, -, h⟩ := Option.bind_eq_some_iff.mp h
  exact nil_of_nothingLeft h

theorem ends_opacityRow (s : Alpha → Shorthand) : Ends (opacityRow s) := by
  intro c a c' h
  obtain ⟨_, -, h⟩ := Option.bind_eq_some_iff.mp h
  obtain ⟨_, -, h⟩ := Option.bind_eq_some_iff.mp h
  exact nil_of_nothingLeft h

theorem ends_whiteRow : Ends whiteRow := by
  intro c a c' h
  cases c with
  | nil => exact (congrArg Prod.snd (Option.some.inj h)).symm
  | _ => exact ends_alphaRow _ _ _ h

/-! ## Attempts stay in their block -/

theorem stays_require (b : Bracket) (p : Prop) [Decidable p] : Stays b (require p) := fun _ => rfl

theorem stays_firstAs (b : Bracket) (f : Lexeme → Option α) :
    Stays b (word (some b) >>= fun l => ofOption (f l)) :=
  stays_bind (stays_word b) fun l => stays_ofOption b (f l)

theorem stays_atEnd (b : Bracket) : Stays b (atEnd (some b)) :=
  stays_bind (stays_bind (stays_peek b _) fun _ => stays_pure b _) fun _ => stays_require b _

theorem stays_rgbArguments (b : Bracket) : Stays b (rgbArguments (some b)) :=
  stays_bind (stays_firstAs b _) fun _ => stays_bind (stays_firstAs b _) fun _ =>
    stays_bind (stays_firstAs b _) fun _ => stays_bind (stays_firstAs b _) fun _ =>
      stays_bind (stays_firstAs b _) fun _ => stays_bind (stays_atEnd b) fun _ => stays_pure b _

theorem stays_loneAlpha (b : Bracket) : Stays b (loneAlpha (some b)) :=
  stays_bind (stays_firstAs b _) fun _ => stays_bind (stays_atEnd b) fun _ => stays_pure b _

theorem stays_whiteArgument (b : Bracket) : Stays b (whiteArgument (some b)) := by
  refine stays_bind (stays_bind (stays_peek b _) fun _ => stays_pure b _) fun ended => ?_
  cases ended with
  | true => exact stays_pure b _
  | false => exact stays_loneAlpha b

theorem stays_colorArgument (b : Bracket) : Stays b (colorArgument (some b)) := by
  refine stays_bind (stays_word b) fun l => ?_
  split
  · exact stays_bind (stays_ofOption b _) fun _ => stays_pure b _
  · exact stays_bind (stays_require b _) fun _ =>
      stays_bind (stays_within b stays_rgbArguments) fun _ => stays_pure b _
  · exact stays_ofOption b _

theorem stays_callShorthand (b : Bracket) (name : Text) :
    Stays b (callShorthand (some b) name) := by
  rw [callShorthand]
  split
  · exact stays_bind (stays_loneAlpha b) fun _ => stays_pure b _
  split
  · exact stays_bind (stays_whiteArgument b) fun _ => stays_pure b _
  split
  · exact stays_bind (stays_colorArgument b) fun _ => stays_bind (stays_firstAs b _) fun _ =>
      stays_bind (stays_firstAs b _) fun _ => stays_bind (stays_atEnd b) fun _ => stays_pure b _
  · exact stays_ofOption b _

theorem stays_orReset {b : Bracket} {r : Reading α} (h : Stays b r) : Stays b (orReset r) := by
  intro k
  simp only [orReset]
  split
  · rfl
  · exact h k

theorem stays_digitsWithAlpha (b : Bracket) (digits : Text) :
    Stays b (digitsWithAlpha (some b) digits) :=
  stays_orReset <| stays_bind (stays_ofOption b _) fun _ => stays_bind (stays_next b) fun _ =>
    stays_bind (stays_require b _) fun _ => stays_bind (stays_ofOption b _) fun _ =>
      stays_bind (stays_peek b _) fun _ => stays_bind (stays_require b _) fun _ => stays_pure b _

/-! ## The calls -/

theorem row_settle (k : Cursor) : k.settle.row stack = k.row stack := by
  rw [Cursor.row, Cursor.level, Cursor.settle_settle, ← Cursor.level, ← Cursor.row]

theorem run_bind_pure (r : Reading α) (f : α → β) (k : Cursor) :
    (r >>= fun a => pure (f a)).run k = ((r.run k).1.map f, (r.run k).2) := by
  show (andThen r fun a => pure (f a)).run k = _
  simp only [andThen]
  cases (r.run k).1 <;> rfl

theorem run_require {p : Prop} [Decidable p] (h : p) (f : Unit → Reading β) (k : Cursor) :
    (require p >>= f).run k = (f ()).run k := by
  show (andThen (require p) f).run k = _
  simp only [andThen, require, ofOption, if_pos h]

theorem run_require_not {p : Prop} [Decidable p] (h : ¬p) (f : Unit → Reading β) (k : Cursor) :
    (require p >>= f).run k = (none, k) := by
  show (andThen (require p) f).run k = _
  simp only [andThen, require, ofOption, if_neg h]

/-- How a colour is read on from its first word. -/
def colorFrom (l : Lexeme) : Reading (Alpha → Shorthand) :=
  match l.token with
  | .hash digits => do return .rgbaHex (← ofOption (Rgb.ofHex? digits))
  | .opening (.call name) => do
    require (name = CallName.rgb)
    return .rgbaRgb (← within rgbArguments)
  | _ => ofOption none

theorem parses_colorArgument : Parses stack (colorArgument stack.head?) colorRow := by
  intro k
  have run : (colorArgument stack.head?).run k = (andThen (word stack.head?) colorFrom).run k := rfl
  rw [run]
  simp only [andThen]
  rcases word_cases stack k with ⟨row, r⟩ | ⟨l, k', r, -, ho, row⟩ | ⟨l, k', o, r, opened, ho, row⟩
  · rw [row, r]; rfl
  · rw [row, r]
    show (((colorFrom l).run k').1.map fun a => (a, (((colorFrom l).run k').2.row stack).significant))
      = l.rgb?.map fun c => (Shorthand.rgbaHex c, _)
    cases ht : l.token with
    | hash digits => simp only [colorFrom, Lexeme.rgb?, ht]; cases Rgb.ofHex? digits <;> rfl
    | opening o => exact absurd ht (ho o)
    | _ => simp only [colorFrom, Lexeme.rgb?, ht]; rfl
  · rw [row, r]
    cases o with
    | bracket b => simp only [colorFrom, ho]; rfl
    | call name =>
      simp only [colorFrom, ho, colorRow]
      by_cases hn : name = CallName.rgb
      · rw [if_pos hn, run_require hn, run_bind_pure, run_within (stays_rgbArguments _) opened,
          row_settle, within_result parses_rgbArguments ends_rgbRow opened, rgbRow_eq, Option.map_map]
        rfl
      · rw [if_neg hn, run_require_not hn]
        rfl

/-- The arguments of a call of `name` as a row. -/
def callRow (name : Text) (c : Content) : Option (Shorthand × Content) :=
  if name = CallName.black then (alphaRow c).bind fun (a, c) => some (.black a, c)
  else if name = CallName.white then (whiteRow c).bind fun (a, c) => some (.white a, c)
  else if name = CallName.rgba then (colorRow c).bind fun (s, c) => opacityRow s c
  else none

theorem parses_callShorthand (name : Text) :
    Parses stack (callShorthand stack.head? name) (callRow name) := by
  intro k
  rw [callShorthand, callRow]
  split
  · exact parses_bind parses_loneAlpha (fun _ => parses_pure _) k
  split
  · exact parses_bind parses_whiteArgument (fun _ => parses_pure _) k
  split
  · exact parses_bind parses_colorArgument (fun _ => parses_bind parses_comma fun _ =>
      parses_bind parses_alpha fun _ => parses_bind parses_atEnd fun _ => parses_pure _) k
  · rfl

theorem ends_callRow (name : Text) : Ends (callRow name) := by
  intro c a c' h
  rw [callRow] at h
  split at h
  · exact ends_map ends_alphaRow _ _ _ _ h
  split at h
  · exact ends_map ends_whiteRow _ _ _ _ h
  split at h
  · obtain ⟨⟨shorthand, rest⟩, -, h⟩ := Option.bind_eq_some_iff.mp h
    exact ends_opacityRow _ _ _ _ h
  · cases h

theorem map_bind_pure (r : Option (α × Content)) (f : α → β) :
    (r.bind fun (a, c) => some (f a, c)).map Prod.fst = (r.map Prod.fst).map f := by
  cases r <;> rfl

/-- What the arguments of a call write. -/
theorem callRow_eq (name : Text) (arguments : Content) :
    (callRow name arguments.significant).map Prod.fst = call? name arguments := by
  rw [callRow, call?]
  split
  · rw [map_bind_pure, alphaRow_eq, blackCall?]
    rcases arguments.significant with _ | ⟨a, _ | _ | _⟩ | _ <;> rfl
  split
  · rw [map_bind_pure, whiteRow_eq, whiteCall?]
    rcases arguments.significant with _ | ⟨a, _ | _ | _⟩ | _ <;> rfl
  split
  · rw [Option.map_bind, rgbaCall?_eq]
    simp only [Function.comp_def, opacityRow_eq]
    rcases arguments.significant with _ | ⟨hex, rest⟩ | ⟨name | _, t, inner, closed, rest⟩
    case leaf => exact Option.bind_map
    case block.call =>
      dsimp only [colorRow]
      split
      · exact Option.bind_map
      · rfl
    all_goals rfl
  · rfl

/-- **Calls**: right behind the start of a call the attempt finds what the content of the call
    writes, and goes behind the call in any case. -/
theorem run_within_callShorthand (stack : List Bracket) (name : Text) {k : Cursor}
    (h : k.opened = some .round) :
    (within fun stop => callShorthand stop name).run k
      = (call? name (k.enter.row (.round :: stack)), k.settle) := by
  have stays (b : Bracket) := stays_callShorthand b name
  have parses : Parses (.round :: stack) (callShorthand (some .round) name) (callRow name) :=
    parses_callShorthand name
  let r := fun stop => callShorthand stop name
  have stop : ((within r).run k).2 = k.settle := run_within (stays .round) h
  have result := within_result (show Parses (.round :: stack) (r (some .round)) _ from parses)
    (ends_callRow name) h
  rw [callRow_eq] at result
  exact Prod.ext result stop

/-! ## Digits with an opacity -/

theorem run_bind (r : Reading α) (f : α → Reading β) (k : Cursor) :
    (r >>= f).run k = match (r.run k).1 with
      | none => (none, (r.run k).2)
      | some a => (f a).run (r.run k).2 := rfl

theorem run_orReset_of_none {r : Reading α} {k : Cursor} (h : (r.run k).1 = none) :
    (orReset r).run k = (none, k) := by
  simp only [orReset, h]

theorem run_orReset_of_some {r : Reading α} {k k' : Cursor} {a : α}
    (h : r.run k = (some a, k')) : (orReset r).run k = (some a, k') := by
  simp only [orReset, h]

/-- What may end a colour among lexemes may end it in the row. -/
theorem mayEndBefore_next (stack : List Bracket) (k : Cursor) :
    mayEndBefore ((next stack.head?).run k).1 = (k.row stack).mayEndColor := by
  rcases next_cases stack k with ⟨row, r⟩ | ⟨l, k', r, -, -, -, -, row⟩
      | ⟨l, k', o, r, -, -, -, ho, row⟩
  · rw [row, r]; rfl
  · rw [row, r]; rfl
  · rw [row, r, mayEndBefore, ho]; rfl

/-- **Digits**: behind a hash the attempt finds what the row of the hash writes.  Where it finds
    nothing it goes back, and else it stops behind the number. -/
theorem run_digitsWithAlpha (stack : List Bracket) {l : Lexeme} {digits : Text}
    (hl : l.token = .hash digits) {k : Cursor} (hk : k.opened = none) :
    (hexShorthand? l (k.row stack) = none
        ∧ (digitsWithAlpha stack.head? digits).run k = (none, k))
      ∨ ∃ s number k', hexShorthand? l (k.row stack) = some (s, number)
        ∧ (digitsWithAlpha stack.head? digits).run k = (some s, k')
        ∧ (number :: k'.ahead) <:+ k.ahead ∧ k'.pos = k.pos + Text.byteLength number.text
        ∧ k'.opened = none ∧ number.token = .number ∧ k.row stack = .leaf number (k'.row stack) := by
  rcases next_cases stack k with ⟨row, r⟩ | ⟨n, k', r, suffix, pos, opened, -, row⟩
      | ⟨n, k', o, r, -, -, -, ho, row⟩
  · refine Or.inl ⟨by rw [row, hexShorthand?]; simp, run_orReset_of_none ?_⟩
    cases hc : Rgb.ofHex? digits <;> simp only [run_bind, ofOption, r]
  · have ends := mayEndBefore_next stack k'
    rw [row]
    cases hc : Rgb.ofHex? digits with
    | none =>
      refine Or.inl ⟨?_, run_orReset_of_none ?_⟩
      · simp only [hexShorthand?, hl, hc, Option.bind_eq_bind, Option.bind_none, ite_self]
      · simp only [run_bind, ofOption, hc]
    | some c =>
      by_cases point : n.text.head? = some '.'
      · cases ha : n.alpha? with
        | none =>
          refine Or.inl ⟨?_, run_orReset_of_none ?_⟩
          · simp only [hexShorthand?, hl, hc, ha, Option.bind_eq_bind, Option.bind_none,
              Option.bind_fun_none, ite_self]
          · simp only [run_bind, ofOption, require, r, hc, ha, if_pos point]
        | some a =>
          by_cases delimited : (k'.row stack).mayEndColor = true
          · refine Or.inr ⟨if digits.length = 3 then .shortHex c a else .longHex c a, n, k', ?_,
              run_orReset_of_some ?_, suffix, ?_, opened, ?_, rfl⟩
            · simp only [hexShorthand?, hl, hc, ha, if_pos (And.intro point delimited)]
              rfl
            · simp only [run_bind, ofOption, require, r, hc, ha, if_pos point, peek, ends,
                if_pos delimited]
              rfl
            · rw [pos, Cursor.settle_of_none hk]
            · rw [Lexeme.alpha?] at ha
              split at ha
              · assumption
              · cases ha
          · refine Or.inl ⟨?_, run_orReset_of_none ?_⟩
            · simp only [hexShorthand?, hl, if_neg fun h : _ ∧ _ => delimited h.2]
            · simp only [run_bind, ofOption, require, r, hc, ha, if_pos point, peek, ends,
                if_neg delimited]
      · refine Or.inl ⟨?_, run_orReset_of_none ?_⟩
        · simp only [hexShorthand?, hl, if_neg fun h : _ ∧ _ => point h.1]
        · simp only [run_bind, ofOption, require, r, hc, if_neg point]
  · -- what starts a block is no number
    refine Or.inl ⟨by rw [row, hexShorthand?]; simp, run_orReset_of_none ?_⟩
    have ha : n.alpha? = none := by rw [Lexeme.alpha?, ho]; rfl
    cases hc : Rgb.ofHex? digits <;> simp only [run_bind, ofOption, require, r, ha]
    split <;> rfl

end Reading

end Translucent
