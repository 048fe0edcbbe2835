/-!
# Numbers in JSON text

A number is an integer part, perhaps a fraction, perhaps an exponent. Only a
number without sign, fraction and exponent that fits a word of 64 bits is a
natural number here; any other must be finite as a binary64 floating-point
number.
-/

namespace LogicCalculator.Json

/-- Why a text cannot be read as a value of the wanted kind: it ends too early,
it is no JSON, or it holds a value of another kind. -/
inductive Fault where
  | endOfText
  | malformed
  | mismatch
deriving DecidableEq, Repr

structure NumberText where
  negative : Bool
  integer : List Char
  fraction : Option (List Char)
  /-- Whether the exponent is negative, and its digits. -/
  exponent : Option (Bool × List Char)
deriving DecidableEq, Repr

def readDigits (cs : List Char) : Except Fault (List Char × List Char) :=
  match cs.takeWhile Char.isDigit, cs.dropWhile Char.isDigit with
  | [], [] => .error .endOfText
  | [], _ => .error .malformed
  | digits, rest => .ok (digits, rest)

/-- The digits of an integer part: a zero stands alone. -/
def readInteger (cs : List Char) : Except Fault (List Char × List Char) := do
  match ← readDigits cs with
  | ('0' :: _ :: _, _) => .error .malformed
  | parts => .ok parts

def readFraction : List Char → Except Fault (Option (List Char) × List Char)
  | '.' :: cs => do
    let (digits, rest) ← readDigits cs
    .ok (some digits, rest)
  | cs => .ok (none, cs)

def readExponent : List Char → Except Fault (Option (Bool × List Char) × List Char)
  | c :: cs =>
    if c = 'e' ∨ c = 'E' then do
      let (negative, cs) :=
        match cs with
        | '+' :: cs => (false, cs)
        | '-' :: cs => (true, cs)
        | cs => (false, cs)
      let (digits, rest) ← readDigits cs
      .ok (some (negative, digits), rest)
    else .ok (none, c :: cs)
  | [] => .ok (none, [])

def readNumberText (cs : List Char) : Except Fault (NumberText × List Char) := do
  let (negative, cs) :=
    match cs with
    | '-' :: cs => (true, cs)
    | cs => (false, cs)
  let (integer, cs) ← readInteger cs
  let (fraction, cs) ← readFraction cs
  let (exponent, cs) ← readExponent cs
  .ok (⟨negative, integer, fraction, exponent⟩, cs)

def digitValue (c : Char) : Nat := c.toNat - '0'.toNat

def digitsValue (digits : List Char) : Nat :=
  digits.foldl (fun n c => 10 * n + digitValue c) 0

/-- Appends digits to a significand while it fits a word of 64 bits, and says
how many digits found room. -/
def gather (significand : Nat) : List Char → Nat × Nat
  | [] => (significand, 0)
  | c :: cs =>
    let next := 10 * significand + digitValue c
    if next < UInt64.size then
      let (result, taken) := gather next cs
      (result, taken + 1)
    else (significand, 0)

/-- The nearest number with at most `bits` significant binary digits; of two
equally near ones, the one whose last such digit is zero. -/
def roundToBits (bits n : Nat) : Nat :=
  let unit := 1 <<< (n.log2 + 1 - bits)
  let quotient := n / unit
  let twice := 2 * (n % unit)
  let up := twice > unit ∨ (twice = unit ∧ quotient % 2 = 1)
  (if up then quotient + 1 else quotient) * unit

/-- Whether a binary64 significand times a binary64 power of ten stays below
the least value that rounds to infinity. Exponents above 308 have no finite
power of ten. -/
def scalesFinitely (significand exponent : Nat) : Bool :=
  significand == 0 ||
    (exponent ≤ 308 &&
      roundToBits 53 significand * roundToBits 53 (Nat.pow 10 exponent) < 1 <<< 1024 - 1 <<< 970)

namespace NumberText

/-- Whether the number is finite in binary64. Integer digits that find no room
in the significand count for the exponent, and such fraction digits for
nothing. -/
def isFinite (t : NumberText) : Bool :=
  let (whole, taken) := gather 0 t.integer
  let (significand, places) := gather whole (t.fraction.getD [])
  let (up, down) :=
    match t.exponent with
    | none => (0, 0)
    | some (false, digits) => (digitsValue digits, 0)
    | some (true, digits) => (0, digitsValue digits)
  let up := up + (t.integer.length - taken)
  let down := down + places
  up < down || scalesFinitely significand (up - down)

def natural? (t : NumberText) : Option Nat :=
  let n := digitsValue t.integer
  if !t.negative && t.fraction.isNone && t.exponent.isNone && n < UInt64.size then some n else none

end NumberText

/-- Reads a number: a natural number of at most 64 bits, or `none` for any
other finite number. A number that is not finite is malformed. -/
def readNumber (cs : List Char) : Except Fault (Option Nat × List Char) := do
  let (t, rest) ← readNumberText cs
  match t.natural? with
  | some n => .ok (some n, rest)
  | none => if t.isFinite then .ok (none, rest) else .error .malformed

end LogicCalculator.Json
