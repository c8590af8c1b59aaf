import Translucent.Token.Cursor
import Translucent.Value.Occurrence

/-!
  # Scanning a value for shorthands

  `scan` reads the lexemes of a value one after the other.  Behind a hash, and inside a call, it
  tries to read a shorthand; where that fails it goes back to the place where it began to try, and
  looks inside the call instead, as inside any other block.  Calls that are colours of their own are
  not looked into.

  * `digitsWithAlpha`, `callShorthand` — the attempts, each a `Reading`;
  * `item`, `scan` — the loop, which enters blocks down to `maxSearchDepth`;
  * `occurrencesIn` — what the scan of a whole value finds.

  The start of a shorthand is the place before its first lexeme was asked for.  That is where the
  lexeme starts, except behind a block too deep to be entered: then the rest of that block is passed
  over between the two, and belongs to the span.
-/

namespace Translucent

namespace Reading

variable (stop : Option Bracket)

/-! ## Single arguments -/

/-- An opacity. -/
def alpha : Reading Alpha := do
  ofOption (← word stop).alpha?

/-- A channel in decimal digits. -/
def channel : Reading UInt8 := do
  ofOption (← word stop).channel?

/-- A comma. -/
def comma : Reading Unit := do
  require ((← word stop).token = .comma)

/-- The end of the arguments. -/
def atEnd : Reading Unit := do
  require (← isAtEnd stop)

/-! ## The arguments of calls -/

/-- The arguments `r, g, b` of `rgb`. -/
def rgbArguments : Reading Rgb := do
  let red ← channel stop
  comma stop
  let green ← channel stop
  comma stop
  let blue ← channel stop
  atEnd stop
  return ⟨red, green, blue⟩

/-- An opacity as the only argument. -/
def loneAlpha : Reading Alpha := do
  let a ← alpha stop
  atEnd stop
  return a

/-- The argument of `white`, which may be missing. -/
def whiteArgument : Reading Alpha := do
  if ← isAtEnd stop then return .transparent else loneAlpha stop

/-- The first argument of `rgba`: a colour, by digits or by the call of `rgb`. -/
def colorArgument : Reading (Alpha → Shorthand) := do
  match (← word stop).token with
  | .hash digits => return .rgbaHex (← ofOption (Rgb.ofHex? digits))
  | .opening (.call name) =>
    require (name = CallName.rgb)
    return .rgbaRgb (← within rgbArguments)
  | _ => ofOption none

/-- The arguments of `rgba`: a colour and its opacity. -/
def rgbaArguments : Reading Shorthand := do
  let shorthand ← colorArgument stop
  comma stop
  let a ← alpha stop
  atEnd stop
  return shorthand a

/-- The shorthand that a call of `name` writes, from its arguments. -/
def callShorthand (name : Text) : Reading Shorthand :=
  if name = CallName.black then return .black (← loneAlpha stop)
  else if name = CallName.white then return .white (← whiteArgument stop)
  else if name = CallName.rgba then rgbaArguments stop
  else ofOption none

/-! ## Digits with an opacity -/

/-- Whether a colour may end before what comes next: nothing, white space, a comma or a closing
    parenthesis. -/
def mayEndBefore : Option Lexeme → Bool
  | none => true
  | some l => l.token == .space || l.token == .comma || l.token == .closing .round

/-- The shorthand of the digits behind a `#`, from the opacity right behind them. -/
def digitsWithAlpha (digits : Text) : Reading Shorthand := orReset do
  let c ← ofOption (Rgb.ofHex? digits)
  let number ← next stop
  require (number.text.head? = some '.')
  let a ← ofOption number.alpha?
  require (mayEndBefore (← peek (next stop)))
  return if digits.length = 3 then .shortHex c a else .longHex c a

end Reading

/-! ## The scan -/

namespace Cursor

open Reading

/-- `item stop depth k l behind inner` = the shorthands that begin at the lexeme `l`, or lie in the block
    that it opens, and the place to go on from.  The lexeme was read from `k`, and `behind` is the
    place behind it; `inner b` is the scan of the block, if it is one of the bracket `b`. -/
def item (stop : Option Bracket) (depth : Nat) (k : Cursor) (l : Lexeme) (behind : Cursor)
    (inner : Bracket → List Occurrence × Cursor) : List Occurrence × Cursor :=
  match l.token with
  | .hash digits =>
    let r := (digitsWithAlpha stop digits).run behind
    (r.1.toList.map fun s => ⟨k.pos, r.2.pos, s⟩, r.2)
  | .opening o =>
    if maxSearchDepth ≤ depth then ([], behind)
    else
      match o with
      | .bracket b => ((inner b).1, (inner b).2.exit b)
      | .call name =>
        let call := (within fun stop => callShorthand stop name).run behind
        match call.1 with
        | some s =>
          (if (k.textTo call.2).getLast? = some ')' then [⟨k.pos, call.2.pos, s⟩] else [], call.2)
        | none =>
          if CallName.colors.contains name then ([], call.2)
          else ((inner .round).1, (inner .round).2.exit .round)
  | _ => ([], behind)

/-- An item never goes back. -/
theorem item_forward (stop : Option Bracket) (depth : Nat) (k : Cursor) (l : Lexeme)
    (behind : Cursor) {inner : Bracket → List Occurrence × Cursor}
    (h : ∀ b, (inner b).2.ahead.length ≤ behind.ahead.length) :
    (item stop depth k l behind inner).2.ahead.length ≤ behind.ahead.length := by
  have leaves (b : Bracket) : ((inner b).2.exit b).ahead.length ≤ behind.ahead.length :=
    Nat.le_trans (length_exit_le _ _) (h b)
  unfold item
  split
  · exact (digitsWithAlpha _ _).forward _
  · split
    · exact Nat.le_refl _
    split
    · exact leaves _
    dsimp only
    split
    · exact (within _).forward _
    split
    · exact (within _).forward _
    · exact leaves _
  · exact Nat.le_refl _

/-- `scan stop depth k` = the shorthands from the place `k` on, up to the closing bracket `stop` or
    the end of the text, inside `depth` blocks; and the place where the scan ends. -/
def scan (stop : Option Bracket) (depth : Nat) (k : Cursor) :
    { r : List Occurrence × Cursor // r.2.ahead.length ≤ k.ahead.length } :=
  match h : ((next stop).run k).1 with
  | none => ⟨([], ((next stop).run k).2), (next stop).forward k⟩
  | some l =>
    let behind := ((next stop).run k).2
    have shorter : behind.ahead.length < k.ahead.length := next_lt h
    let inner (b : Bracket) := scan (some b) (depth + 1) behind.enter
    let found := item stop depth k l behind fun b => (inner b).1
    have forward : found.2.ahead.length < k.ahead.length :=
      Nat.lt_of_le_of_lt (item_forward stop depth k l behind fun b => (inner b).2) shorter
    let tail := scan stop depth found.2
    ⟨(found.1 ++ tail.1.1, tail.1.2), Nat.le_of_lt (Nat.lt_of_le_of_lt tail.2 forward)⟩
termination_by k.ahead.length
decreasing_by
  · exact shorter
  · exact forward

end Cursor

/-- `occurrencesIn v` = the shorthands of the value `v`, from left to right. -/
def occurrencesIn (v : Text) : List Occurrence :=
  (Cursor.scan none 0 ⟨lexemes 0 v, 0, none⟩).1.1

end Translucent
