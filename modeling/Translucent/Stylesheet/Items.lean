import Translucent.Content
import Translucent.Stylesheet

/-!
  # The items of a style sheet

  One grammar serves the whole sheet and the block of every rule: a row of *items*, declarations and
  rules in any order.

  1. **Items** — `Items` keeps them in the order of the source; `declarations` and `rules` sort
     them into the two lists of a rule.
  2. **Finding an item** — `find` decides from the components ahead what starts here and how many
     components it takes up.  What starts with a name is a declaration if a colon follows and its
     value holds no block in curly brackets; otherwise it is a rule like `a:hover {}`.
  3. **Reading a row** — `ofContent` walks along the components; `Pending` tells how many of them
     still belong to the item at hand.  Nothing is refused: what is neither declaration nor rule is
     passed over, and so is the block of a rule within `maxRuleDepth` others.
-/

namespace Translucent

/-- How many rules inside one another are read. -/
def maxRuleDepth : Nat := 128

/-- Declarations and rules in the order of the source. -/
inductive Items
  /-- Nothing more. -/
  | nil
  /-- A declaration, and what follows it. -/
  | declaration (d : Declaration) (rest : Items)
  /-- A rule with its items, and what follows it. -/
  | rule (h : Heading) (inner rest : Items)
  deriving DecidableEq

namespace Items

/-- The declarations of the row itself. -/
def declarations : Items → List Declaration
  | nil => []
  | declaration d rest => d :: declarations rest
  | rule _ _ rest => declarations rest

/-- The rules of the row itself. -/
def rules : Items → List Rule
  | nil => []
  | declaration _ rest => rules rest
  | rule h inner rest => .mk h (declarations inner) (rules inner) :: rules rest

end Items

/-! ## What the components ahead may be -/

namespace Content

/-- Whether a semicolon comes next. -/
def startsSemicolon : Content → Bool
  | leaf l _ => l.token == .semicolon
  | _ => false

/-- Whether a block in curly brackets comes next. -/
def startsCurly : Content → Bool
  | block o _ _ _ _ => o == .bracket .curly
  | _ => false

/-- Whether the text before the block of a rule ends here. -/
def endsPrelude (c : Content) : Bool := c.startsSemicolon || c.startsCurly

/-- Whether a block in curly brackets is among the components. -/
def hasCurly : Content → Bool
  | nil => false
  | leaf _ rest => hasCurly rest
  | block o _ _ _ rest => o == .bracket .curly || hasCurly rest

/-- Whether something other than white space and comments comes next, or nothing at all. -/
def startsWord (c : Content) : Bool := !c.startsTrivia

end Content

/-- A name, a colon and the components up to the next semicolon. -/
structure Assignment where
  /-- The name, without escapes. -/
  name : Text
  /-- The number of bytes up to the end of the colon. -/
  lead : Nat
  /-- What stands behind the colon. -/
  value : Content
  /-- The number of components, the semicolon included. -/
  count : Nat

namespace Assignment

/-- The assignment at the start of a row. -/
def ofContent? : Content → Option Assignment
  | .leaf ⟨.ident name, text⟩ rest =>
    let trivia := rest.upTo Content.startsWord
    match rest.dropTo Content.startsWord with
    | .leaf ⟨.colon, colon⟩ behind =>
      let value := behind.upTo Content.startsSemicolon
      some {
        name
        lead := Text.byteLength text + trivia.width + Text.byteLength colon
        value
        count := trivia.length + value.length + 3 }
    | _ => none
  | _ => none

end Assignment

/-! ## What starts here -/

/-- What the reader of a row is in the middle of. -/
inductive Pending
  /-- The next `count` components belong to an item that was read already. -/
  | pass (count : Nat)
  /-- The block of a rule follows behind the next `count` components. -/
  | enter (h : Heading) (count : Nat)

/-- One component further. -/
def Pending.advance : Pending → Pending
  | pass count => pass (count - 1)
  | enter h count => enter h (count - 1)

/-- An item that is complete without its components being entered. -/
inductive Found
  /-- No item. -/
  | nothing
  /-- A declaration. -/
  | declaration (d : Declaration)
  /-- A rule without a block. -/
  | statement (h : Heading)

/-- The item in front of others. -/
def Found.put : Found → Items → Items
  | nothing, rest => rest
  | declaration d, rest => .declaration d rest
  | statement h, rest => .rule h .nil rest

namespace Items

/-- The block of a rule with the heading `h`, behind `count` components: at the last depth it is
    passed over. -/
def enterBlock (depth count : Nat) (h : Heading) : Pending :=
  if depth < maxRuleDepth then .enter h count else .pass (count + 1)

/-- A rule with a selector starts here, unless there is a semicolon before a block, or none of the
    two.  A custom property is never a selector, even if its value is no value. -/
def findStyle (depth : Nat) (c : Content) : Found × Pending :=
  let prelude := c.upTo Content.endsPrelude
  match Assignment.ofContent? c with
  | some a =>
    if isCustomName a.name then (.nothing, .pass a.count) else styleRule prelude
  | none => styleRule prelude
where
  /-- The rule that starts with `prelude`. -/
  styleRule (prelude : Content) : Found × Pending :=
    if (c.dropTo Content.endsPrelude).startsCurly then
      (.nothing, enterBlock depth prelude.length (.style (Text.trim prelude.text)))
    else (.nothing, .pass (prelude.length + 1))

/-- An at-rule with the given name starts here; `rest` is what stands behind the name. -/
def findAtRule (depth : Nat) (name : Text) (rest : Content) : Found × Pending :=
  let prelude := rest.upTo Content.endsPrelude
  let heading := Heading.atRule (Text.lower name) (Text.trim prelude.text)
  if (rest.dropTo Content.endsPrelude).startsCurly then
    (.nothing, enterBlock depth (prelude.length + 1) heading)
  else (.statement heading, .pass (prelude.length + 2))

/-- A declaration starts here, or else a rule with a selector. -/
def findNamed (depth pos : Nat) (c : Content) : Found × Pending :=
  match Assignment.ofContent? c with
  | some a =>
    if a.value.hasCurly then findStyle depth c
    else (.declaration (.ofParts a.name (pos + a.lead) a.value.text), .pass a.count)
  | none => findStyle depth c

/-- What starts with the row `c` at the byte `pos`, within `depth` rules: an item that needs no
    entering, and what is pending. -/
def find (depth pos : Nat) (c : Content) : Found × Pending :=
  match c with
  | .leaf l rest =>
    match l.token with
    | .space | .comment _ | .semicolon | .closing .curly => (.nothing, .pass 1)
    | .atKeyword name => findAtRule depth name rest
    | .ident _ => findNamed depth pos c
    | _ => findStyle depth c
  | _ => findStyle depth c

/-- `turn p depth pos c` = what to do at the row `c`: to go on with what is pending or, if that is
    done, to find what starts here. -/
def turn (p : Pending) (depth pos : Nat) (c : Content) : Found × Pending :=
  match p with
  | .pass 0 => find depth pos c
  | p => (.nothing, p)

/-! ## Reading a row -/

/-- `ofContent depth p pos c` = the items of the row `c` at the byte `pos`, within `depth` rules,
    when `p` is pending. -/
def ofContent (depth : Nat) (p : Pending) (pos : Nat) : Content → Items
  | .nil => nil
  | .leaf l rest =>
    let (found, pending) := turn p depth pos (.leaf l rest)
    found.put (ofContent depth pending.advance (pos + Text.byteLength l.text) rest)
  | .block o t body closed rest =>
    let inner := pos + Text.byteLength t
    let next := inner + body.width + Content.closingWidth closed
    match turn p depth pos (.block o t body closed rest) with
    | (_, .enter h 0) =>
      rule h (ofContent (depth + 1) (.pass 0) inner body) (ofContent depth (.pass 0) next rest)
    | (found, pending) => found.put (ofContent depth pending.advance next rest)

end Items

/-- `Stylesheet.ofText css` = the style sheet read from `css`. -/
def Stylesheet.ofText (css : Text) : Stylesheet :=
  let items := Items.ofContent 0 (.pass 0) 0 (Content.ofText css)
  ⟨css, items.declarations, items.rules⟩

end Translucent
