import LogicCalculator.Bindings
import LogicCalculator.Json.Quoted

/-!
# Bits and bindings from JSON

A bit is one of the numbers `0` and `1`, and bindings are an object whose
values are bits. Reading goes from left to right and stops at the first fault:
a value of a wrong kind is found where it begins if it is an array or an
object, and where it ends otherwise.
-/

namespace LogicCalculator.Json

def isSpace (c : Char) : Bool := c == ' ' || c == '\n' || c == '\t' || c == '\r'

def skipSpace (cs : List Char) : List Char := cs.dropWhile isSpace

/-- The fault of a text that has to begin with the rest of a literal and is of
the wrong kind even then. -/
def literalFault : List Char → List Char → Fault
  | [], _ => .mismatch
  | _ :: _, [] => .endOfText
  | expected :: more, c :: cs => if c = expected then literalFault more cs else .malformed

def numberFault (cs : List Char) : Fault :=
  match readNumber cs with
  | .error fault => fault
  | .ok _ => .mismatch

def startsNumber (c : Char) : Bool := c == '-' || c.isDigit

/-- The fault of a value that is neither a number nor of the wanted kind. -/
def valueFault : List Char → Fault
  | [] => .endOfText
  | 'n' :: cs => literalFault ['u', 'l', 'l'] cs
  | 't' :: cs => literalFault ['r', 'u', 'e'] cs
  | 'f' :: cs => literalFault ['a', 'l', 's', 'e'] cs
  | '"' :: cs =>
    match readQuoted cs with
    | .error fault => fault
    | .ok _ => .mismatch
  | c :: _ => if c = '[' ∨ c = '\x7b' then .mismatch else .malformed

def readBit (cs : List Char) : Except Fault (Bit × List Char) :=
  match skipSpace cs with
  | [] => .error .endOfText
  | c :: cs =>
    if startsNumber c then do
      match ← readNumber (c :: cs) with
      | (some n, rest) =>
        match Bit.ofNat? n with
        | some bit => .ok (bit, rest)
        | none => .error .mismatch
      | (none, _) => .error .mismatch
    else .error (valueFault (c :: cs))

def readField (cs : List Char) : Except Fault ((String × Bit) × List Char) := do
  let (name, cs) ← readQuoted cs
  match skipSpace cs with
  | [] => .error .endOfText
  | c :: cs =>
    if c = ':' then do
      let (bit, cs) ← readBit cs
      .ok ((String.ofList name, bit), cs)
    else .error .malformed

/-- Reads what follows a field: the end of the object, or further fields. A
field takes at least one character, so a text has no more fields than
characters, and `room` for as many is enough. -/
def readFurther : Nat → List Char → Except Fault (List (String × Bit) × List Char)
  | 0, _ => .error .endOfText
  | room + 1, cs =>
    match skipSpace cs with
    | [] => .error .endOfText
    | '\x7d' :: cs => .ok ([], cs)
    | ',' :: cs =>
      match skipSpace cs with
      | [] => .error .endOfText
      | '"' :: cs => do
        let (field, cs) ← readField cs
        let (fields, cs) ← readFurther room cs
        .ok (field :: fields, cs)
      | _ => .error .malformed
    | _ => .error .malformed

def readFields (cs : List Char) : Except Fault (List (String × Bit) × List Char) :=
  match skipSpace cs with
  | [] => .error .endOfText
  | '\x7d' :: cs => .ok ([], cs)
  | '"' :: cs => do
    let (field, cs) ← readField cs
    let (fields, cs) ← readFurther (cs.length + 1) cs
    .ok (field :: fields, cs)
  | _ => .error .malformed

def complete {α : Type} : α × List Char → Except Fault α
  | (value, rest) => if (skipSpace rest).isEmpty then .ok value else .error .malformed

end LogicCalculator.Json

namespace LogicCalculator

def Bit.ofJson (text : String) : Except Json.Fault Bit := do
  Json.complete (← Json.readBit text.toList)

/-- The bindings that a text gives as a JSON object. Of two bits for one name
the later one stays. -/
def Bindings.ofJson (text : String) : Except Json.Fault Bindings :=
  match Json.skipSpace text.toList with
  | '\x7b' :: cs => do
    let fields ← Json.complete (← Json.readFields cs)
    .ok (.ofList fields)
  | [] => .error .endOfText
  | c :: cs =>
    .error (if Json.startsNumber c then Json.numberFault (c :: cs) else Json.valueFault (c :: cs))

end LogicCalculator
