import LogicCalculator.Token.Scanner

/-!
# Scanning by longest match

A lexer tells which rule the front of a text follows and how far. Scanning on
top of one keeps byte offsets only: where the lexeme begins and ends, and where
its line begins. Columns are counted when a token is made. What a lexer is
assumed to do is all that scanning depends on.
-/

namespace LogicCalculator

/-- What a lexeme can be. -/
inductive Rule where
  | blanks
  | newline
  | leftParen
  | rightParen
  | word
deriving DecidableEq, Repr

namespace Rule

/-- The characters that a lexeme is made of. -/
def admits : Rule → Char → Bool
  | blanks, c => c == ' ' || c == '\t' || c == '\r'
  | newline, c => c == '\n'
  | leftParen, c => c == '('
  | rightParen, c => c == ')'
  | word, c => c.isAlpha

/-- Whether a lexeme can be longer than one character. -/
def repeats : Rule → Bool
  | blanks | word => true
  | newline | leftParen | rightParen => false

/-- The text is one lexeme of the rule. -/
def Matches (rule : Rule) (lexeme : List Char) : Prop :=
  lexeme ≠ [] ∧ lexeme.all rule.admits = true ∧ (rule.repeats = true ∨ lexeme.length = 1)

end Rule

/-- A lexer takes the longest front part that follows a rule, and a single
character where no part does. -/
structure Lexer where
  next : List Char → Option Rule × List Char
  sound : ∀ {cs lexeme : List Char} {rule : Rule},
    next cs = (some rule, lexeme) → lexeme <+: cs ∧ rule.Matches lexeme
  longest : ∀ {cs front : List Char} {rule : Rule}, front <+: cs → rule.Matches front →
    ∃ found lexeme, next cs = (some found, lexeme) ∧ front.length ≤ lexeme.length
  unmatched : ∀ {c : Char} {cs : List Char},
    (∀ (rule : Rule) (front : List Char), front <+: c :: cs → ¬ rule.Matches front) →
      next (c :: cs) = (none, [c])

-- ---------------------------------------------------------------------------
-- Byte offsets
-- ---------------------------------------------------------------------------

namespace Text

/-- The number of bytes that the characters take in UTF-8. -/
def byteLength : List Char → Nat
  | [] => 0
  | c :: cs => c.utf8Size + byteLength cs

/-- The characters behind so many bytes, if a character begins there or the
text ends. -/
def dropBytes? : Nat → List Char → Option (List Char)
  | 0, cs => some cs
  | _ + 1, [] => none
  | n + 1, c :: cs => if c.utf8Size ≤ n + 1 then dropBytes? (n + 1 - c.utf8Size) cs else none

/-- The characters of so many bytes, if another character begins behind them or
the text ends. -/
def takeBytes? : Nat → List Char → Option (List Char)
  | 0, _ => some []
  | _ + 1, [] => none
  | n + 1, c :: cs =>
    if c.utf8Size ≤ n + 1 then (takeBytes? (n + 1 - c.utf8Size) cs).map (c :: ·) else none

/-- The part of a text between two byte offsets. There is none if they are in
the wrong order, within a character or behind the end. -/
def slice? (cs : List Char) (first last : Nat) : Option (List Char) :=
  if first ≤ last then (dropBytes? first cs).bind (takeBytes? (last - first)) else none

end Text

-- ---------------------------------------------------------------------------
-- Scanning
-- ---------------------------------------------------------------------------

/-- A text with what is left of it, the offsets of the latest lexeme, the line
and its offset, and whether the end has been found. -/
structure OffsetScanner where
  source : List Char
  rest : List Char
  first : Nat
  last : Nat
  line : Nat
  lineStart : Nat
  exhausted : Bool
deriving DecidableEq, Repr

namespace OffsetScanner

def ofString (source : String) : OffsetScanner :=
  ⟨source.toList, source.toList, 0, 0, 1, 0, false⟩

/-- Moves past a lexeme. -/
def cover (s : OffsetScanner) (lexeme : List Char) : OffsetScanner :=
  { s with
    rest := s.rest.drop lexeme.length
    first := s.last
    last := s.last + Text.byteLength lexeme }

/-- Begins a line behind the latest lexeme. -/
def breakLine (s : OffsetScanner) : OffsetScanner :=
  { s with line := s.line + 1, lineStart := s.last }

/-- The position of a byte offset on the current line. -/
def position (s : OffsetScanner) (offset : Nat) : Position :=
  let width :=
    match Text.slice? s.source s.lineStart offset with
    | some part => part.length
    | none => offset - s.lineStart
  ⟨s.line, width + 1⟩

/-- The end of the input, behind all bytes. -/
def ending (s : OffsetScanner) : Token :=
  .bare .endOfInput (s.position (Text.byteLength s.source))

end OffsetScanner

namespace Lexer

theorem lexeme_ne_nil (lexer : Lexer) {c : Char} {cs lexeme : List Char} {rule : Option Rule}
    (h : lexer.next (c :: cs) = (rule, lexeme)) : lexeme ≠ [] := by
  cases rule with
  | some rule => exact (lexer.sound h).2.1
  | none =>
    have hnone : lexer.next (c :: cs) = (none, [c]) := by
      refine lexer.unmatched fun rule front hfront hmatches => ?_
      obtain ⟨found, lexeme, hfound, -⟩ := lexer.longest hfront hmatches
      cases h.symm.trans hfound
    obtain ⟨-, rfl⟩ := Prod.mk.inj (h.symm.trans hnone)
    exact List.cons_ne_nil _ _

theorem length_drop_lt (lexer : Lexer) {c : Char} {cs lexeme : List Char} {rule : Option Rule}
    (h : lexer.next (c :: cs) = (rule, lexeme)) :
    ((c :: cs).drop lexeme.length).length < (c :: cs).length := by
  have hpos := List.length_pos_iff.mpr (lexer.lexeme_ne_nil h)
  rw [List.length_drop]
  exact Nat.sub_lt (Nat.succ_pos _) hpos

end Lexer

namespace OffsetScanner

/-- The next token. Blanks and line breaks give none, so the search goes on
behind them. -/
def next (lexer : Lexer) (s : OffsetScanner) : Token × OffsetScanner :=
  if s.exhausted then (s.ending, s)
  else
    match _hr : s.rest with
    | [] => (s.ending, { s with exhausted := true })
    | c :: cs =>
      match _hl : lexer.next (c :: cs) with
      | (some .blanks, lexeme) => (s.cover lexeme).next lexer
      | (some .newline, lexeme) => (s.cover lexeme).breakLine.next lexer
      | (some .leftParen, lexeme) =>
        let s := s.cover lexeme
        (.bare .leftParen (s.position s.first), s)
      | (some .rightParen, lexeme) =>
        let s := s.cover lexeme
        (.bare .rightParen (s.position s.first), s)
      | (some .word, lexeme) =>
        let s := s.cover lexeme
        (.ofWord lexeme (s.position s.first), s)
      | (none, lexeme) =>
        let s := s.cover lexeme
        (⟨.illegal, some (String.ofList lexeme), s.position s.first⟩, s)
termination_by s.rest.length
decreasing_by
  · rw [cover, _hr]
    exact lexer.length_drop_lt _hl
  · rw [breakLine, cover, _hr]
    exact lexer.length_drop_lt _hl

/-- Every token but the end of the input takes at least one character. -/
theorem length_rest_next_lt {lexer : Lexer} {s : OffsetScanner}
    (h : (s.next lexer).1.kind ≠ .endOfInput) : (s.next lexer).2.rest.length < s.rest.length := by
  have hcover : ∀ {s : OffsetScanner} {c cs rule lexeme}, s.rest = c :: cs →
      lexer.next (c :: cs) = (rule, lexeme) → (s.cover lexeme).rest.length < s.rest.length := by
    intro s c cs rule lexeme hr hl
    rw [cover, hr]
    exact lexer.length_drop_lt hl
  fun_induction next lexer s
  case case1 | case2 => exact absurd rfl h
  case case3 hr _ hl ih | case4 hr _ hl ih => exact Nat.lt_trans (ih h) (hcover hr hl)
  case case5 hr _ hl _ | case6 hr _ hl _ | case7 hr _ hl _ | case8 hr _ hl _ => exact hcover hr hl

/-- All tokens, up to the first end of the input. -/
def tokens (lexer : Lexer) (s : OffsetScanner) : List Token :=
  if _h : (s.next lexer).1.kind = .endOfInput then [(s.next lexer).1]
  else (s.next lexer).1 :: (s.next lexer).2.tokens lexer
termination_by s.rest.length
decreasing_by exact length_rest_next_lt _h

/-- The first `n` tokens that are asked for one after the other. -/
def take (lexer : Lexer) : Nat → OffsetScanner → List Token
  | 0, _ => []
  | n + 1, s => (s.next lexer).1 :: take lexer n (s.next lexer).2

end OffsetScanner

end LogicCalculator
