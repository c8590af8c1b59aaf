import Translucent.Proofs.Content.Spelled
import Translucent.Proofs.Token.Closed
import Translucent.Proofs.Token.Words

/-!
  # Texts that stand for themselves

  A text in which nothing is left open is read alike wherever a stop follows it.

  1. **Closed rows** — `isClosed`: every string, comment, address and block of a row is closed, at any depth.  Such a
     row is spelled before a stop as at the end of the text (`Spelled.stop`).
  2. **Other brackets around** — a row without closing brackets of its own is spelled inside any brackets
     (`Spelled.within`).
  3. **Trees** — `ofText_comma`: before a comma a closed text keeps its tree, and what follows has a tree of its
     own; `ofText_call`: in a call it is the body.
-/

namespace Translucent

open Content

/-- A later part of a text ends like the whole, if it is not empty. -/
theorem getLast?_behind {s t : Text} {d : Char} (last : (s ++ t).getLast? ≠ some d) : t.getLast? ≠ some d := by
  have behind := Text.getLast?_drop_ne last s.length
  rwa [List.drop_left] at behind

/-- Whether a token is a closing bracket. -/
def Token.isClosing : Token → Bool
  | closing _ => true
  | _ => false

namespace Content

/-! ## Closed rows -/

/-- Whether all that can be left open in a row is closed: strings, comments, addresses, and blocks at any depth. -/
def isClosed : Content → Bool
  | nil => true
  | leaf l rest => l.token.isClosed && isClosed rest
  | block _ _ body closed rest => closed && isClosed body && isClosed rest

/-- Whether no closing bracket stands in the row itself: each of them closes a block, or stands in a block that it
    does not fit. -/
def isMatched : Content → Bool
  | nil => true
  | leaf l rest => !l.token.isClosing && isMatched rest
  | block _ _ _ _ rest => isMatched rest

/-- **A closed row** that does not end in a backslash is spelled before a stop, too. -/
theorem Spelled.stop {c : Content} {stack : List Bracket} {tail z : Text} (h : c.Spelled stack tail)
    (closed : c.isClosed = true) (last : (c.text ++ tail).getLast? ≠ some '\\') (stop : Stop z) :
    c.Spelled stack (tail ++ z) := by
  induction c generalizing stack tail with
  | nil => trivial
  | leaf l rest ih =>
    obtain ⟨reads, ho, hc, spelled⟩ := h
    rw [isClosed, Bool.and_eq_true] at closed
    rw [text_leaf, List.append_assoc] at last
    refine ⟨?_, ho, hc, ih spelled closed.2 (getLast?_behind last)⟩
    rw [← List.append_assoc]
    exact reads.closed closed.1 last stop
  | block o t body closed' rest ihb ihr =>
    obtain ⟨reads, -, inside, spelled⟩ := h
    simp only [isClosed, Bool.and_eq_true] at closed
    obtain ⟨⟨rfl, closed_body⟩, closed_rest⟩ := closed
    simp only [text_block, List.append_assoc] at last
    have last_body := getLast?_behind last
    have last_rest := getLast?_behind (getLast?_behind last_body)
    refine ⟨?_, by simp, ?_, ihr spelled closed_rest last_rest⟩
    · have before := reads.closed (z := z) rfl last stop
      simpa only [List.append_assoc] using before
    · have before := ihb inside closed_body last_body
      simpa only [List.append_assoc] using before

/-! ## Other brackets around -/

/-- Only the innermost bracket matters to a row, and that only to its own closing brackets. -/
theorem Spelled.within {c : Content} {stack stack' : List Bracket} {tail : Text} (h : c.Spelled stack tail)
    (same : stack'.head? = stack.head? ∨ c.isMatched = true) : c.Spelled stack' tail := by
  induction c generalizing stack stack' tail with
  | nil => trivial
  | leaf l rest ih =>
    obtain ⟨reads, ho, hc, spelled⟩ := h
    refine ⟨reads, ho, fun b hb => ?_, ih spelled (same.imp_right fun matched => ?_)⟩
    · rcases same with same | matched
      · rw [same]
        exact hc b hb
      · rw [isMatched, hb] at matched
        cases matched
    · rw [isMatched, Bool.and_eq_true] at matched
      exact matched.2
  | block o t body closed rest ihb ihr =>
    obtain ⟨reads, left, inside, spelled⟩ := h
    exact ⟨reads, left, ihb inside (.inl rfl), ihr spelled same⟩

end Content

/-! ## Trees -/

/-- Whether a text stands for itself: all of its blocks, strings, addresses and comments are closed, and it does not
    end in a backslash. -/
structure SelfContained (v : Text) : Prop where
  /-- Nothing is left open. -/
  closed : (ofText v).isClosed = true
  /-- There is no backslash at the end. -/
  last : v.getLast? ≠ some '\\'

namespace SelfContained

variable {v : Text}

/-- The tree of such a text is spelled before a stop. -/
theorem spelled (h : SelfContained v) {z : Text} (stop : Stop z) : (ofText v).Spelled [] z := by
  refine (spelled_ofText v).stop h.closed ?_ stop
  rw [List.append_nil, text_ofText]
  exact h.last

/-- **Before a comma** such a text keeps its tree, and what follows has the tree that it has alone. -/
theorem ofText_comma (h : SelfContained v) (w : Text) :
    ofText (v ++ ',' :: w) = (ofText v).append (.leaf ⟨.comma, [',']⟩ (ofText w)) := by
  have comma : lexemes 0 (',' :: w) = ⟨.comma, [',']⟩ :: lexemes 0 w := lexemes_mark rfl w
  have whole := levels_of_spelled (h.spelled (stop_cons (m := ',') rfl w))
  rw [text_ofText, comma, levels_leaf (by simp) (by simp)] at whole
  rw [ofText, ofLexemes, whole, content_prepend, content_prepend]
  rfl

/-- **In a call** such a text is the body. -/
theorem ofText_call (h : SelfContained v) (matched : (ofText v).isMatched = true) {f : Text}
    (letters : f.all Char.isAlpha = true) (some_letter : f ≠ []) (url : Token.isUrlName f = false) :
    ofText (f ++ '(' :: (v ++ [')'])) = .block (.call f) (f ++ ['(']) (ofText v) true .nil := by
  have spelled : (block (.call f) (f ++ ['(']) (ofText v) true nil).Spelled [] [] := by
    refine ⟨reads_call letters some_letter url _, by simp, ?_, trivial⟩
    exact (h.spelled (stop_cons (m := ')') rfl [])).within (.inr matched)
  have whole := ofText_of_spelled spelled
  rwa [text_call, text_ofText] at whole

end SelfContained

end Translucent
