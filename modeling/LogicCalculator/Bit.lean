/-!
# Bits

The two logic values. A bit is written as the digit `0` or `1`; everything the
calculator binds, combines and reports is a bit.
-/

namespace LogicCalculator

inductive Bit where
  | zero
  | one
deriving DecidableEq, Repr, Inhabited

namespace Bit

def ofBool : Bool → Bit
  | false => zero
  | true => one

def isSet : Bit → Bool
  | zero => false
  | one => true

@[simp] theorem isSet_ofBool (b : Bool) : (ofBool b).isSet = b := by cases b <;> rfl

@[simp] theorem ofBool_isSet (a : Bit) : ofBool a.isSet = a := by cases a <;> rfl

theorem isSet_injective {a b : Bit} (h : a.isSet = b.isSet) : a = b := by
  rw [← ofBool_isSet a, h, ofBool_isSet]

def toNat : Bit → Nat
  | zero => 0
  | one => 1

/-- The bit a number stands for; only `0` and `1` stand for one. -/
def ofNat? : Nat → Option Bit
  | 0 => some zero
  | 1 => some one
  | _ => none

@[simp] theorem ofNat?_toNat (a : Bit) : ofNat? a.toNat = some a := by cases a <;> rfl

def digit : Bit → Char
  | zero => '0'
  | one => '1'

def text (a : Bit) : String := a.digit.toString

instance : ToString Bit := ⟨text⟩

def not : Bit → Bit
  | zero => one
  | one => zero

def and (a b : Bit) : Bit := ofBool (a.isSet && b.isSet)

def or (a b : Bit) : Bit := ofBool (a.isSet || b.isSet)

def xor (a b : Bit) : Bit := ofBool (a.isSet != b.isSet)

@[simp] theorem isSet_not (a : Bit) : a.not.isSet = !a.isSet := by cases a <;> rfl

@[simp] theorem isSet_and (a b : Bit) : (a.and b).isSet = (a.isSet && b.isSet) :=
  isSet_ofBool _

@[simp] theorem isSet_or (a b : Bit) : (a.or b).isSet = (a.isSet || b.isSet) :=
  isSet_ofBool _

@[simp] theorem isSet_xor (a b : Bit) : (a.xor b).isSet = (a.isSet != b.isSet) :=
  isSet_ofBool _

end Bit

end LogicCalculator
