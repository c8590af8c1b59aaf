import Translucent.Text.Digit

/-!
  # Checking JSON

  A checker that reads JSON text character by character and keeps no values.  Its state is the
  containers that are open and the place within the innermost one, so a text may nest to any depth.

  1. **Strings and numbers** — `StringPlace` and `NumberPlace` with one step each.
  2. **Values** — `State` and `State.step`.
  3. **Objects** — `isObject` accepts one object with white space around it, or an empty array in
     its place.  The names in the object itself have to be proper text: an escape for half of a
     surrogate pair is refused in them, though not in what is passed over unread.
-/

namespace Translucent.Json

/-- The white space of JSON. -/
def isSpace (c : Char) : Bool := c == ' ' || c == '\t' || c == '\n' || c == '\r'

/-! ## Strings -/

/-- A place within a string. -/
inductive StringPlace
  /-- Between two characters. -/
  | body
  /-- Behind a backslash. -/
  | escape
  /-- Behind some of the four digits of a code, with the value so far. -/
  | code (digits value : Nat)
  /-- Behind the first half of a surrogate pair, where the second has to follow. -/
  | half
  /-- Behind the backslash of the second half. -/
  | halfEscape
  /-- Behind some of the four digits of the second half. -/
  | halfCode (digits value : Nat)
  /-- Behind the closing quotation mark. -/
  | done
  deriving DecidableEq, Repr

namespace StringPlace

/-- What a string goes on with behind the four digits of a code.  In proper text a first half of a
    pair needs its second, and a second half has no place of its own. -/
def afterCode (proper : Bool) (value : Nat) : Option StringPlace :=
  if !proper then some body
  else if 0xDC00 ≤ value ∧ value ≤ 0xDFFF then none
  else if 0xD800 ≤ value ∧ value ≤ 0xDBFF then some half
  else some body

/-- What a string goes on with behind the four digits of a second half. -/
def afterHalf (value : Nat) : Option StringPlace :=
  if 0xDC00 ≤ value ∧ value ≤ 0xDFFF then some body else none

/-- `step proper p c` = the place behind the character `c`, if it may stand at `p`. -/
def step (proper : Bool) (p : StringPlace) (c : Char) : Option StringPlace :=
  match p with
  | body =>
    if c = '\x22' then some done
    else if c = '\\' then some escape
    else if c.toNat < 0x20 then none
    else some body
  | escape =>
    if c = 'u' then some (code 0 0)
    else if ['\x22', '\\', '/', 'b', 'f', 'n', 'r', 't'].contains c then some body
    else none
  | code digits value => do
    let d ← hexDigit? c
    if digits < 3 then some (code (digits + 1) (16 * value + d))
    else afterCode proper (16 * value + d)
  | half => if c = '\\' then some halfEscape else none
  | halfEscape => if c = 'u' then some (halfCode 0 0) else none
  | halfCode digits value => do
    let d ← hexDigit? c
    if digits < 3 then some (halfCode (digits + 1) (16 * value + d))
    else afterHalf (16 * value + d)
  | done => none

end StringPlace

/-! ## Numbers -/

/-- A place within a number. -/
inductive NumberPlace
  /-- Behind the minus sign. -/
  | sign
  /-- Behind a leading zero, which no digit may follow. -/
  | zero
  /-- Within the digits before the point. -/
  | whole
  /-- Behind the point. -/
  | point
  /-- Within the digits behind the point. -/
  | fraction
  /-- Behind the letter of the exponent. -/
  | exponent
  /-- Behind the sign of the exponent. -/
  | exponentSign
  /-- Within the digits of the exponent. -/
  | exponentDigits
  deriving DecidableEq, Repr

namespace NumberPlace

/-- Whether a number may end here. -/
def complete : NumberPlace → Bool
  | zero | whole | fraction | exponentDigits => true
  | _ => false

/-- The place behind the first character of a number. -/
def start (c : Char) : Option NumberPlace :=
  if c = '-' then some sign
  else if c = '0' then some zero
  else if c.isDigit then some whole
  else none

/-- The letter of an exponent, in either case. -/
def isExponent (c : Char) : Bool := c == 'e' || c == 'E'

/-- `step p c` = the place behind the character `c`, if the number goes on with it. -/
def step (p : NumberPlace) (c : Char) : Option NumberPlace :=
  match p with
  | sign => if c = '0' then some zero else if c.isDigit then some whole else none
  | zero => if c = '.' then some point else if isExponent c then some exponent else none
  | whole =>
    if c.isDigit then some whole
    else if c = '.' then some point
    else if isExponent c then some exponent
    else none
  | point => if c.isDigit then some fraction else none
  | fraction =>
    if c.isDigit then some fraction
    else if isExponent c then some exponent
    else none
  | exponent =>
    if c = '+' ∨ c = '-' then some exponentSign
    else if c.isDigit then some exponentDigits
    else none
  | exponentSign => if c.isDigit then some exponentDigits else none
  | exponentDigits => if c.isDigit then some exponentDigits else none

end NumberPlace

/-! ## Values -/

/-- What holds values. -/
inductive Container
  /-- Named values in curly brackets. -/
  | object
  /-- Values in square brackets. -/
  | array
  deriving DecidableEq, Repr

/-- A place within the innermost container, or outside all. -/
inductive Place
  /-- Before the one value of the whole text. -/
  | document
  /-- Behind the bracket that opens the whole text as an array. -/
  | emptyArray
  /-- Before a value. -/
  | value
  /-- Behind the bracket that opens an array. -/
  | firstValue
  /-- Behind the bracket that opens an object. -/
  | firstName
  /-- Before a further name. -/
  | name
  /-- Behind a name. -/
  | colon
  /-- Behind a value. -/
  | after
  /-- Within a string that is a name or else a value, and that is proper text or else unread. -/
  | string (isName proper : Bool) (p : StringPlace)
  /-- Within a number. -/
  | number (p : NumberPlace)
  /-- Within one of the three words, before its rest. -/
  | word (rest : Text)
  deriving DecidableEq, Repr

/-- The open containers, innermost first, and the place within the innermost. -/
structure State where
  /-- The containers that are open. -/
  stack : List Container
  /-- The place within the innermost. -/
  place : Place
  deriving DecidableEq, Repr

namespace State

/-- The state before the text. -/
def start : State := ⟨[], .document⟩

/-- Whether the text may end here. -/
def complete (s : State) : Bool := s.stack.isEmpty && s.place == .after

/-- The state behind the first character of a value. -/
def stepValue (stack : List Container) (c : Char) : Option State :=
  match c with
  | '\x7b' => some ⟨.object :: stack, .firstName⟩
  | '[' => some ⟨.array :: stack, .firstValue⟩
  | '\x22' => some ⟨stack, .string false false .body⟩
  | 't' => some ⟨stack, .word ['r', 'u', 'e']⟩
  | 'f' => some ⟨stack, .word ['a', 'l', 's', 'e']⟩
  | 'n' => some ⟨stack, .word ['u', 'l', 'l']⟩
  | c => do return ⟨stack, .number (← NumberPlace.start c)⟩

/-- The state behind the first character of a name.  Names in the outermost object are read. -/
def stepName (stack : List Container) (c : Char) : Option State :=
  if c = '\x22' then some ⟨stack, .string true (stack.length == 1) .body⟩ else none

/-- The state behind a character that follows a value. -/
def stepAfter (stack : List Container) (c : Char) : Option State :=
  if isSpace c then some ⟨stack, .after⟩
  else match stack, c with
  | .object :: _, ',' => some ⟨stack, .name⟩
  | .array :: _, ',' => some ⟨stack, .value⟩
  | .object :: outer, '\x7d' => some ⟨outer, .after⟩
  | .array :: outer, ']' => some ⟨outer, .after⟩
  | _, _ => none

/-- `step s c` = the state behind the character `c`, if it may stand there. -/
def step (s : State) (c : Char) : Option State :=
  match s.place with
  | .document =>
    if isSpace c then some s
    else if c = '\x7b' then some ⟨.object :: s.stack, .firstName⟩
    else if c = '[' then some ⟨.array :: s.stack, .emptyArray⟩
    else none
  | .emptyArray =>
    if isSpace c then some s else if c = ']' then some ⟨s.stack.tail, .after⟩ else none
  | .value => if isSpace c then some s else stepValue s.stack c
  | .firstValue =>
    if isSpace c then some s
    else if c = ']' then some ⟨s.stack.tail, .after⟩
    else stepValue s.stack c
  | .firstName =>
    if isSpace c then some s
    else if c = '\x7d' then some ⟨s.stack.tail, .after⟩
    else stepName s.stack c
  | .name => if isSpace c then some s else stepName s.stack c
  | .colon =>
    if isSpace c then some s else if c = ':' then some ⟨s.stack, .value⟩ else none
  | .after => stepAfter s.stack c
  | .string isName proper p => do
    match ← p.step proper c with
    | .done => some ⟨s.stack, if isName then .colon else .after⟩
    | q => some ⟨s.stack, .string isName proper q⟩
  | .number p =>
    match p.step c with
    | some q => some ⟨s.stack, .number q⟩
    | none => if p.complete then stepAfter s.stack c else none
  | .word rest =>
    match rest with
    | [] => none
    | d :: more =>
      if c = d then some ⟨s.stack, if more = [] then .after else .word more⟩ else none

/-- `run s t` = the state behind the text `t`, if it may stand there. -/
def run (s : State) (t : Text) : Option State := t.foldlM step s

end State

/-- Whether the text is one object, or an empty array, with white space around it. -/
def isObject (t : Text) : Bool := ((State.start.run t).map State.complete).getD false

end Translucent.Json
