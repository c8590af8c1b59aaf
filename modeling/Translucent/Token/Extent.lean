import Translucent.Token.Name

/-!
  # How far strings, comments and addresses reach

  Three tokens run up to an end mark of their own and, if the mark is missing, to the end of the
  text.  An `Extent` is the number of characters behind the opening mark that belong to the token,
  with the answer to whether it is closed: whether something in the text ended it, so that more text
  behind it would not belong to it.  A string that a line end breaks off is closed in this sense.

  The walks count the characters of an escape in advance, as those for names do.
-/

namespace Translucent

/-- How far a token reaches, and whether it was closed. -/
structure Extent where
  /-- The number of characters. -/
  length : Nat
  /-- Whether something in the text ends the token, rather than the end of the text. -/
  closed : Bool
  deriving DecidableEq, Repr

/-- One character more at the front. -/
def Extent.succ (e : Extent) : Extent := ⟨e.length + 1, e.closed⟩

/-! ## Comments -/

/-- `commentExtent s` = the rest of a comment, `s` being what follows its opening mark. -/
def commentExtent : Text → Extent
  | [] => ⟨0, false⟩
  | c :: s =>
    if c = '*' ∧ s.head? = some '/' then ⟨2, true⟩ else (commentExtent s).succ

/-! ## Strings -/

/-- `stringExtent q k s` = the rest of a string opened by `q`, where the first `k` characters of `s`
    belong to it as part of an escape.  An unescaped line end breaks the string off before it; an
    escaped one goes on with it. -/
def stringExtent (q : Char) : Nat → Text → Extent
  | _, [] => ⟨0, false⟩
  | k + 1, _ :: s => (stringExtent q k s).succ
  | 0, c :: s =>
    if c = q then ⟨1, true⟩
    else if Character.isNewline c then ⟨0, true⟩
    else if c = '\\' then
      (stringExtent q (if startsNewline s then newlineLength s else escapeLength s) s).succ
    else (stringExtent q 0 s).succ

/-! ## Addresses -/

/-- The parts of an unquoted `url(`. -/
inductive AddressPart
  /-- White space before the address. -/
  | lead
  /-- The address itself. -/
  | body
  /-- White space behind the address; only the closing mark may follow. -/
  | trail
  /-- The remains of an address that is not well formed. -/
  | broken
  deriving DecidableEq, Repr

/-- `AddressPart.next p c s` = the part that follows once `c` was read in the part `p` with `s`
    behind it, and how many characters of `s` that takes along.  A quotation mark, a `(`, a control
    character or a line end behind a backslash breaks an address, and so does anything but white
    space behind its white space.  In the remains a backslash protects a `)` or a backslash. -/
def AddressPart.next (p : AddressPart) (c : Char) (s : Text) : AddressPart × Nat :=
  match p with
  | .lead =>
    if Character.isSpace c then (.lead, 0)
    else inside
  | .body =>
    if Character.isSpace c then (.trail, 0)
    else inside
  | .trail => if Character.isSpace c then (.trail, 0) else (.broken, 0)
  | .broken =>
    if c = '\\' ∧ (s.head? = some ')' ∨ s.head? = some '\\') then (.broken, 1) else (.broken, 0)
where
  /-- A character of the address itself. -/
  inside : AddressPart × Nat :=
    if Character.isQuote c || c == '(' || Character.isUnprintable c then (.broken, 0)
    else if c = '\\' then
      if startsNewline s then (.broken, 0) else (.body, escapeLength s)
    else (.body, 0)

/-- `addressExtent p k s` = the rest of an unquoted `url(` within the part `p`, where the first `k`
    characters of `s` belong to it as part of an escape. -/
def addressExtent : AddressPart → Nat → Text → Extent
  | _, _, [] => ⟨0, false⟩
  | p, k + 1, _ :: s => (addressExtent p k s).succ
  | p, 0, c :: s =>
    if c = ')' then ⟨1, true⟩
    else (addressExtent (p.next c s).1 (p.next c s).2 s).succ

/-- Whether white space and then a quotation mark follow: then `url(` opens a call and its argument
    is a string. -/
def quoteFollows (s : Text) : Bool :=
  ((s.dropWhile Character.isSpace).head?.map Character.isQuote).getD false

end Translucent
