/-!
# The printed part of a text

Text for a terminal holds control sequences. Where no terminal reads it, only
the printed characters are kept: control sequences are left out, and so are
control characters other than tab, line feed, form feed and carriage return.

A control sequence begins with the escape character. White space inside one
suspends it: what follows is printed, until a control character takes the
sequence up again.
-/

namespace LogicCalculator.Text

/-- The parts of a control sequence, by what may come next: behind the escape
character, behind an intermediate character of a short sequence, in a control
sequence with parameters, in the three parts of the head of a device control,
in an operating system command, and in the body of a string. -/
inductive Sequence where
  | escape
  | intermediate
  | control
  | deviceStart
  | deviceParameter
  | deviceIntermediate
  | command
  | body
deriving DecidableEq, Repr

inductive Printing where
  | plain
  | inside (s : Sequence)
  | suspended (s : Sequence)
deriving DecidableEq, Repr

def escapeCharacter : Char := '\x1b'

/-- The two control characters that break off any sequence. -/
def breaksOff (c : Char) : Bool := c == '\x18' || c == '\x1a'

def isLayout (c : Char) : Bool := c == '\t' || c == '\n' || c == '\x0c' || c == '\r'

def isUnprinted (c : Char) : Bool := (c.toNat < 0x20 && !isLayout c) || c == '\x7f'

/-- Whether a byte of the character's UTF-8 form is the string terminator. -/
def holdsTerminator (c : Char) : Bool := (String.utf8EncodeChar c).contains 0x9c

namespace Sequence

def isSuspendable : Sequence → Bool
  | escape | intermediate | control => true
  | _ => false

/-- The part of the sequence behind a character, or `none` if it is the last. -/
def next? (s : Sequence) (c : Char) : Option Sequence :=
  let within := fun (low high : Nat) => low ≤ c.toNat && c.toNat ≤ high
  match s with
  | escape =>
    if c = '[' then some control
    else if c = ']' then some command
    else if c = 'P' then some deviceStart
    else if c = 'X' ∨ c = '^' ∨ c = '_' then some body
    else if within 0x20 0x2f then some intermediate
    else if within 0x30 0x7e then none
    else some escape
  | intermediate => if within 0x30 0x7e then none else some intermediate
  | control => if within 0x40 0x7e then none else some control
  | deviceStart =>
    if within 0x20 0x2f then some deviceIntermediate
    else if within 0x30 0x3f then some deviceParameter
    else if within 0x40 0x7e then some body
    else some deviceStart
  | deviceParameter =>
    if within 0x20 0x2f then some deviceIntermediate
    else if within 0x3c 0x7e then some body
    else some deviceParameter
  | deviceIntermediate => if within 0x30 0x7e then some body else some deviceIntermediate
  | command => if c = '\x07' then none else some command
  | body => if holdsTerminator c then none else some body

end Sequence

namespace Printing

def step (p : Printing) (c : Char) : Bool × Printing :=
  if c = escapeCharacter then (false, inside .escape)
  else if breaksOff c then (false, plain)
  else
    match p with
    | plain => (!isUnprinted c, plain)
    | inside s =>
      if isLayout c && s.isSuspendable then (true, suspended s)
      else
        match s.next? c with
        | some s => (false, inside s)
        | none => (false, plain)
    | suspended s =>
      if isUnprinted c then (false, inside s)
      else (true, if c.toNat < 0x80 then suspended s else plain)

def run (p : Printing) : List Char → List Char
  | [] => []
  | c :: cs =>
    match p.step c with
    | (true, p) => c :: p.run cs
    | (false, p) => p.run cs

end Printing

def printed (s : String) : String := String.ofList (Printing.plain.run s.toList)

end LogicCalculator.Text
