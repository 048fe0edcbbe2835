import LogicCalculator.Token.Scanner

/-!
# A place in a sequence of tokens

A cursor sees the token it stands on and the one behind it. The last token of
the sequence repeats for ever, so a cursor can always move on.
-/

namespace LogicCalculator

/-- The token under the cursor and the tokens behind it. -/
structure Cursor where
  current : Token
  upcoming : List Token
deriving DecidableEq, Repr

namespace Cursor

def lookahead (c : Cursor) : Token := c.upcoming.headD c.current

def advance (c : Cursor) : Cursor :=
  match c.upcoming with
  | [] => c
  | t :: rest => ⟨t, rest⟩

@[simp] theorem current_advance (c : Cursor) : c.advance.current = c.lookahead := by
  cases h : c.upcoming <;> simp [advance, lookahead, h]

end Cursor

def Scanner.cursor (s : Scanner) : Cursor :=
  ⟨s.next.1, if s.next.1.kind = .endOfInput then [] else s.next.2.tokens⟩

theorem Scanner.current_cons_upcoming_cursor (s : Scanner) :
    s.cursor.current :: s.cursor.upcoming = s.tokens := by
  rw [Scanner.tokens]
  simp only [Scanner.cursor]
  split <;> rfl

end LogicCalculator
