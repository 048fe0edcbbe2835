/-!
# Values in JSON

The part of JSON that reports need: natural numbers, strings, arrays, and
objects whose fields keep their order. A value is written compactly on one
line, or with every item and every field on a line of its own.
-/

namespace LogicCalculator

inductive Json where
  | number (n : Nat)
  | string (s : String)
  | array (items : List Json)
  | object (fields : List (String × Json))
deriving Repr

namespace Json

def hexDigit (n : Nat) : Char :=
  if n < 10 then Char.ofNat ('0'.toNat + n) else Char.ofNat ('a'.toNat + (n - 10))

/-- A character inside quotes. Quotes, backslashes and control characters are
escaped, and every other character stands for itself. -/
def escape (c : Char) : List Char :=
  if c = '"' then ['\\', '"']
  else if c = '\\' then ['\\', '\\']
  else if c = '\x08' then ['\\', 'b']
  else if c = '\t' then ['\\', 't']
  else if c = '\n' then ['\\', 'n']
  else if c = '\x0c' then ['\\', 'f']
  else if c = '\r' then ['\\', 'r']
  else if c.toNat < 0x20 then
    ['\\', 'u', '0', '0', hexDigit (c.toNat / 16), hexDigit (c.toNat % 16)]
  else [c]

def quote (s : String) : String :=
  String.ofList ('"' :: (s.toList.flatMap escape ++ ['"']))

def encloseLine (left right : String) (pieces : List String) : String :=
  left ++ ",".intercalate pieces ++ right

mutual

def compact : Json → String
  | number n => toString n
  | string s => quote s
  | array items => encloseLine "[" "]" (compactItems items)
  | object fields => encloseLine "\x7b" "\x7d" (compactFields fields)

def compactItems : List Json → List String
  | [] => []
  | item :: rest => item.compact :: compactItems rest

def compactFields : List (String × Json) → List String
  | [] => []
  | (name, value) :: rest => (quote name ++ ":" ++ value.compact) :: compactFields rest

end

def newline (depth : Nat) : String := "\n" ++ String.ofList (List.replicate (2 * depth) ' ')

/-- Pieces in brackets, each on a line of its own one step deeper. Brackets
with nothing between them stay together. -/
def encloseLines (depth : Nat) (left right : String) (pieces : List String) : String :=
  if pieces.isEmpty then left ++ right
  else
    left ++ newline (depth + 1) ++ ("," ++ newline (depth + 1)).intercalate pieces ++
      newline depth ++ right

mutual

def prettyAt (depth : Nat) : Json → String
  | number n => toString n
  | string s => quote s
  | array items => encloseLines depth "[" "]" (prettyItems (depth + 1) items)
  | object fields => encloseLines depth "\x7b" "\x7d" (prettyFields (depth + 1) fields)

def prettyItems (depth : Nat) : List Json → List String
  | [] => []
  | item :: rest => item.prettyAt depth :: prettyItems depth rest

def prettyFields (depth : Nat) : List (String × Json) → List String
  | [] => []
  | (name, value) :: rest =>
    (quote name ++ ": " ++ value.prettyAt depth) :: prettyFields depth rest

end

def pretty (value : Json) : String := value.prettyAt 0

end Json

end LogicCalculator
