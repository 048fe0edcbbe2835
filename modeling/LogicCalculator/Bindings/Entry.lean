import LogicCalculator.Bindings
import LogicCalculator.Text.Blank

/-!
# Bindings from text

One binding is written `NAME=BIT`: the name ends at the first `=`, and blanks
around the name and around the bit are ignored. A list of bindings is accepted
when no name occurs in it twice, whether or not the bits agree.
-/

namespace LogicCalculator

/-- Why bindings cannot be built. The first two causes carry the whole text of
the binding, the third the text in the place of the bit. -/
inductive BindingError where
  | missingSeparator (binding : String)
  | emptyName (binding : String)
  | invalidBit (text : String)
  | duplicateName (name : String)
deriving DecidableEq, Repr

def BindingError.message : BindingError → String
  | .missingSeparator binding => s!"binding '{binding}' must have the form NAME=0 or NAME=1"
  | .emptyName binding => s!"binding '{binding}' has an empty variable name"
  | .invalidBit text => s!"'{text}' is not a bit, expected 0 or 1"
  | .duplicateName name => s!"variable {name} is bound more than once"

def Bit.read (text : List Char) : Except BindingError Bit :=
  match Text.trim text with
  | ['0'] => .ok .zero
  | ['1'] => .ok .one
  | other => .error (.invalidBit (String.ofList other))

def Bit.fromNat (n : Nat) : Except BindingError Bit :=
  match Bit.ofNat? n with
  | some bit => .ok bit
  | none => .error (.invalidBit (toString n))

namespace Bindings

/-- Reads one binding `NAME=BIT`. A missing `=` is reported before an empty
name, and an empty name before an invalid bit. -/
def readEntry (binding : String) : Except BindingError (String × Bit) :=
  match Text.splitAtFirst '=' binding.toList with
  | none => .error (.missingSeparator binding)
  | some (before, after) =>
    match Text.trim before with
    | [] => .error (.emptyName binding)
    | name => (Bit.read after).map fun bit => (String.ofList name, bit)

/-- Binds the pairs in turn until a name is already bound. -/
def extend (b : Bindings) : List (String × Bit) → Except BindingError Bindings
  | [] => .ok b
  | (name, bit) :: rest =>
    if b.contains name then .error (.duplicateName name) else (b.insert name bit).extend rest

/-- The map with exactly these pairs. A repeated name is an error, reported at
its second occurrence. -/
def collect (pairs : List (String × Bit)) : Except BindingError Bindings :=
  extend ∅ pairs

/-- Reads the texts in order and collects the pairs. A text that cannot be read
is reported before any repeated name. -/
def readAll (texts : List String) : Except BindingError Bindings := do
  collect (← texts.mapM readEntry)

end Bindings

end LogicCalculator
