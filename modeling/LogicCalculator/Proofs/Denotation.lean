import LogicCalculator.Expr.Evaluation
import LogicCalculator.Proofs.Variables

/-!
# What evaluation computes

The value of a tree is its boolean value, provided that all its variables are
bound, and every occurrence of one that is not is reported
(`evaluateAll_denotes`). The value does not depend on what was evaluated
before.
-/

namespace LogicCalculator

def Bindings.isSet (b : Bindings) (name : String) : Bool := (b.get? name).any Bit.isSet

namespace Expr

variable {b : Bindings} {e operand left right : Expr} {op : BinaryOperator}

/-- The boolean value under a valuation of the names. -/
def holds (ρ : String → Bool) : Expr → Bool
  | var name => ρ name
  | not operand => !operand.holds ρ
  | binary .and left right => left.holds ρ && right.holds ρ
  | binary .or left right => left.holds ρ || right.holds ρ
  | binary .xor left right => left.holds ρ != right.holds ρ

def unbound (b : Bindings) (e : Expr) : List String := e.names.filter (!b.contains ·)

def IsBound (b : Bindings) (e : Expr) : Prop := ∀ name ∈ e.names, b.contains name

instance : Decidable (e.IsBound b) := by
  unfold IsBound
  infer_instance

def bit (b : Bindings) (e : Expr) : Bit := .ofBool (e.holds b.isSet)

theorem isBound_not : (not operand).IsBound b ↔ operand.IsBound b := Iff.rfl

theorem isBound_binary : (binary op left right).IsBound b ↔ left.IsBound b ∧ right.IsBound b :=
  List.forall_mem_append

theorem eq_bit_iff {x : Bit} : e.bit b = x ↔ x.isSet = e.holds b.isSet := by
  constructor
  · rintro rfl
    exact Bit.isSet_ofBool _
  · intro h
    rw [bit, ← h, Bit.ofBool_isSet]

theorem bit_not : (not operand).bit b = (operand.bit b).not := by
  apply Bit.isSet_injective
  simp [bit, holds]

theorem bit_binary : (binary op left right).bit b = op.apply (left.bit b) (right.bit b) := by
  apply Bit.isSet_injective
  cases op <;> simp [bit, holds, BinaryOperator.apply]

-- ---------------------------------------------------------------------------
-- One evaluation
-- ---------------------------------------------------------------------------

def concludeNot : Option Bit × Evaluation → Option Bit × Evaluation
  | (some x, v) => (some x.not, v.record notKeyword none x x.not)
  | (none, v) => (none, v)

/-- What an operator makes of the bit of its left operand, and of its right
operand as it was evaluated. -/
def concludeBinary (op : BinaryOperator) :
    Option Bit → Option Bit × Evaluation → Option Bit × Evaluation
  | some x, (some y, v) => (some (op.apply x y), v.record op.keyword (some x) y (op.apply x y))
  | _, (_, v) => (none, v)

theorem evaluate_not (v : Evaluation) :
    (not operand).evaluate b v = concludeNot (operand.evaluate b v) := by
  simp only [evaluate]
  rcases operand.evaluate b v with ⟨_ | x, w⟩ <;> rfl

theorem evaluate_binary (v : Evaluation) :
    (binary op left right).evaluate b v =
      concludeBinary op (left.evaluate b v).1 (right.evaluate b (left.evaluate b v).2) := by
  simp only [evaluate]
  rcases left.evaluate b v with ⟨_ | x, w⟩ <;> rcases right.evaluate b w with ⟨_ | y, w'⟩ <;> rfl

theorem concludeNot_fst (r : Option Bit × Evaluation) : (concludeNot r).1 = r.1.map Bit.not := by
  rcases r with ⟨_ | x, v⟩ <;> rfl

theorem concludeBinary_fst (x : Option Bit) (r : Option Bit × Evaluation) :
    (concludeBinary op x r).1 = x.bind fun x => r.1.map (op.apply x) := by
  rcases x with _ | x <;> rcases r with ⟨_ | y, v⟩ <;> rfl

theorem errors_concludeNot (r : Option Bit × Evaluation) :
    (concludeNot r).2.errors = r.2.errors := by
  rcases r with ⟨_ | x, v⟩ <;> rfl

theorem errors_concludeBinary (x : Option Bit) (r : Option Bit × Evaluation) :
    (concludeBinary op x r).2.errors = r.2.errors := by
  rcases x with _ | x <;> rcases r with ⟨_ | y, v⟩ <;> rfl

/-- The value does not depend on what has been evaluated before. -/
theorem evaluate_fst (b : Bindings) (e : Expr) (v : Evaluation) :
    (e.evaluate b v).1 = if e.IsBound b then some (e.bit b) else none := by
  induction e generalizing v with
  | var name =>
    simp only [evaluate]
    cases h : b.get? name <;>
      simp [IsBound, names, bit, holds, Bindings.contains, Bindings.isSet, h]
  | not operand ih =>
    rw [evaluate_not, concludeNot_fst, ih]
    by_cases h : operand.IsBound b <;> simp [isBound_not, bit_not, h]
  | binary op left right ihl ihr =>
    rw [evaluate_binary, concludeBinary_fst, ihl, ihr]
    by_cases hl : left.IsBound b <;> by_cases hr : right.IsBound b <;>
      simp [isBound_binary, bit_binary, hl, hr]

theorem errors_evaluate (b : Bindings) (e : Expr) (v : Evaluation) :
    (e.evaluate b v).2.errors.toList = v.errors.toList ++ (e.unbound b).map UnboundVariable.mk := by
  induction e generalizing v with
  | var name =>
    simp only [evaluate]
    cases h : b.get? name <;>
      simp [unbound, names, Bindings.contains, h, Evaluation.report]
  | not operand ih => rw [evaluate_not, errors_concludeNot, ih, unbound, unbound, names]
  | binary op left right ihl ihr =>
    -- the right operand is visited whatever the left one has given
    rw [evaluate_binary, errors_concludeBinary, ihr, ihl]
    simp [unbound, names]

end Expr

-- ---------------------------------------------------------------------------
-- One evaluation after the other
-- ---------------------------------------------------------------------------

/-- What evaluating the trees in turn leaves behind. -/
def Evaluation.ofTrees (b : Bindings) (trees : List Expr) : Evaluation :=
  ((Expr.evaluateAll b trees .empty).getLast?.map Prod.snd).getD .empty

namespace Expr

variable {b : Bindings}

theorem evaluateAll_append (earlier later : List Expr) (v : Evaluation) :
    evaluateAll b (earlier ++ later) v =
      evaluateAll b earlier v ++ evaluateAll b later
        (((evaluateAll b earlier v).getLast?.map Prod.snd).getD v) := by
  induction earlier generalizing v with
  | nil => rfl
  | cons e rest ih =>
    rw [List.cons_append, evaluateAll, ih, evaluateAll, List.cons_append, List.getLast?_cons]
    cases (evaluateAll b rest (e.evaluate b v).2).getLast? <;> rfl

theorem ofTrees_concat (trees : List Expr) (e : Expr) :
    Evaluation.ofTrees b (trees ++ [e]) = (e.evaluate b (.ofTrees b trees)).2 := by
  simp [Evaluation.ofTrees, evaluateAll_append, evaluateAll]

/-- Each call of one evaluation: it gives a bit if and only if all variables of
its tree are bound, and then the bit of the boolean value; and it adds to the
reports before it one for each unbound occurrence. -/
theorem evaluateAll_denotes (b : Bindings) (earlier : List Expr) (e : Expr) (later : List Expr) :
    let before := Evaluation.ofTrees b earlier
    let call := e.evaluate b before
    evaluateAll b (earlier ++ e :: later) .empty =
        evaluateAll b earlier .empty ++ call :: evaluateAll b later call.2 ∧
      (∀ bit, call.1 = some bit ↔
        (∀ name ∈ e.names, b.contains name) ∧ bit.isSet = e.holds b.isSet) ∧
      call.2.errors.toList = before.errors.toList ++
        (e.names.filter (!b.contains ·)).map UnboundVariable.mk := by
  refine ⟨?_, fun bit => ?_, errors_evaluate b e _⟩
  · rw [evaluateAll_append]
    rfl
  · rw [evaluate_fst, ← eq_bit_iff]
    by_cases h : e.IsBound b
    · rw [if_pos h]
      exact ⟨fun hx => ⟨h, Option.some.inj hx⟩, fun hx => congrArg some hx.2⟩
    · rw [if_neg h]
      exact ⟨nofun, fun hx => absurd hx.1 h⟩

end Expr

end LogicCalculator
