import LogicCalculator.Position

/-!
# Tokens

The pieces of a source text that the grammar talks about. Keywords are the
words `AND`, `OR`, `XOR` and `NOT` in any casing; every other word is an
identifier and keeps its casing.
-/

namespace LogicCalculator

inductive Token.Kind where
  | leftParen
  | rightParen
  | and
  | or
  | xor
  | not
  | identifier
  | endOfInput
  | illegal
deriving DecidableEq, Repr, Inhabited

/-- A token with the position of its first character. `text` holds the
characters it was read from where its kind does not tell them: the word of an
identifier and the character of an illegal token. -/
structure Token where
  kind : Token.Kind
  text : Option String
  position : Position
deriving DecidableEq, Repr, Inhabited

namespace Token

def Kind.display : Kind → String
  | leftParen => "("
  | rightParen => ")"
  | and => "AND"
  | or => "OR"
  | xor => "XOR"
  | not => "NOT"
  | identifier => "IDENTIFIER"
  | endOfInput => "EOF"
  | illegal => "ILLEGAL"

instance : ToString Kind := ⟨Kind.display⟩

/-- The keyword a word spells in some casing, if it spells one. Only the ASCII
letters have a casing here. -/
def Kind.keyword? (word : List Char) : Option Kind :=
  match word.map Char.toUpper with
  | ['A', 'N', 'D'] => some and
  | ['O', 'R'] => some or
  | ['X', 'O', 'R'] => some xor
  | ['N', 'O', 'T'] => some not
  | _ => none

def bare (kind : Kind) (position : Position) : Token := ⟨kind, none, position⟩

def identifier (name : String) (position : Position) : Token :=
  ⟨.identifier, some name, position⟩

def illegal (c : Char) (position : Position) : Token :=
  ⟨.illegal, some c.toString, position⟩

/-- The name an identifier carries. Other kinds carry none. -/
def name? (t : Token) : Option String :=
  if t.kind = .identifier then t.text else none

end Token

end LogicCalculator
