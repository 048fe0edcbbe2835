import LogicCalculator.Token

/-!
# From a text to its tokens

Spaces, tabs, carriage returns and line feeds separate tokens and are dropped.
A word is a maximal run of ASCII letters; each other character is a token of
its own. The end of the text is a token too, and asking again gives it again.
-/

namespace LogicCalculator

/-- What is left of a text, and where that begins. -/
structure Scanner where
  rest : List Char
  position : Position
deriving DecidableEq, Repr

/-- The token of a word: a keyword, or else an identifier with that name. -/
def Token.ofWord (word : List Char) (position : Position) : Token :=
  match Kind.keyword? word with
  | some kind => .bare kind position
  | none => .identifier (String.ofList word) position

def Token.ofSymbol (c : Char) (position : Position) : Token :=
  if c = '(' then .bare .leftParen position
  else if c = ')' then .bare .rightParen position
  else .illegal c position

namespace Scanner

def ofString (source : String) : Scanner := ⟨source.toList, .start⟩

def isSeparator (c : Char) : Bool := c == ' ' || c == '\t' || c == '\r' || c == '\n'

/-- Moves behind the longest front part whose characters all satisfy `p`. -/
def skipWhile (p : Char → Bool) (s : Scanner) : Scanner :=
  ⟨s.rest.dropWhile p, s.position.afterAll (s.rest.takeWhile p)⟩

def next (s : Scanner) : Token × Scanner :=
  let s := s.skipWhile isSeparator
  match s.rest with
  | [] => (.bare .endOfInput s.position, s)
  | c :: cs =>
    if c.isAlpha then (.ofWord (s.rest.takeWhile Char.isAlpha) s.position, s.skipWhile Char.isAlpha)
    else (.ofSymbol c s.position, ⟨cs, s.position.after c⟩)

theorem length_dropWhile_le (p : Char → Bool) (cs : List Char) :
    (cs.dropWhile p).length ≤ cs.length :=
  (List.dropWhile_suffix p).length_le

theorem length_rest_skipWhile_le (p : Char → Bool) (s : Scanner) :
    (s.skipWhile p).rest.length ≤ s.rest.length :=
  length_dropWhile_le p s.rest

/-- Every token but the end of the text takes at least one character. -/
theorem length_rest_next_lt {s : Scanner} (h : s.next.1.kind ≠ .endOfInput) :
    s.next.2.rest.length < s.rest.length := by
  have hs := length_rest_skipWhile_le isSeparator s
  revert h
  simp only [next]
  split
  · intro h
    exact absurd rfl h
  · rename_i c cs hr
    intro _
    have hc : (s.skipWhile isSeparator).rest.length = cs.length + 1 := by rw [hr]; rfl
    split
    · rename_i ha
      have hd := length_dropWhile_le Char.isAlpha cs
      have : ((s.skipWhile isSeparator).skipWhile Char.isAlpha).rest =
          cs.dropWhile Char.isAlpha := by
        simp [skipWhile] at hr ⊢
        rw [hr]
        simp [ha]
      rw [this]
      omega
    · show cs.length < s.rest.length
      omega

def tokens (s : Scanner) : List Token :=
  if _h : s.next.1.kind = .endOfInput then [s.next.1] else s.next.1 :: s.next.2.tokens
termination_by s.rest.length
decreasing_by exact length_rest_next_lt _h

/-- The first `n` tokens; the end of the text fills up what is missing. -/
def take : Nat → Scanner → List Token
  | 0, _ => []
  | n + 1, s => s.next.1 :: take n s.next.2

end Scanner

def tokenize (source : String) : List Token := (Scanner.ofString source).tokens

end LogicCalculator
