import Mathlib.Logic.Function.Basic
import LogicCalculator.Expr.Text
import LogicCalculator.Proofs.Denotation

/-!
# Trees in the place of variables

Substitution puts a tree in the place of each variable, of all at once. What
the variables of the tree then stand for are the trees' values
(`bit_subst_update`), and writing bits for variables is a substitution, too
(`textWith_eq_text_subst`).
-/

namespace LogicCalculator

namespace Expr

def subst (σ : String → Expr) : Expr → Expr
  | var name => σ name
  | not operand => .not (operand.subst σ)
  | binary operator left right => .binary operator (left.subst σ) (right.subst σ)

variable {b : Bindings} {e u : Expr} {name : String} {x : Bit} {σ τ : String → Expr}

theorem names_subst (σ : String → Expr) (e : Expr) :
    (e.subst σ).names = e.names.flatMap fun name => (σ name).names := by
  induction e with
  | var name => simp [subst, names]
  | not operand ih => exact ih
  | binary op left right ihl ihr => rw [subst, names, ihl, ihr, names, List.flatMap_append]

theorem holds_subst (σ : String → Expr) (ρ : String → Bool) (e : Expr) :
    (e.subst σ).holds ρ = e.holds fun name => (σ name).holds ρ := by
  induction e with
  | var name => rfl
  | not operand ih => rw [subst, holds, ih, holds]
  | binary op left right ihl ihr => cases op <;> rw [subst, holds, ihl, ihr, holds]

theorem holds_congr {ρ ρ' : String → Bool} (h : ∀ name ∈ e.names, ρ name = ρ' name) :
    e.holds ρ = e.holds ρ' := by
  induction e with
  | var name => exact h name (List.mem_singleton_self name)
  | not operand ih => rw [holds, ih h, holds]
  | binary op left right ihl ihr =>
    obtain ⟨hl, hr⟩ := List.forall_mem_append.mp h
    cases op <;> rw [holds, ihl hl, ihr hr, holds]

theorem subst_congr (h : ∀ name ∈ e.names, σ name = τ name) : e.subst σ = e.subst τ := by
  induction e with
  | var name => exact h name (List.mem_singleton_self name)
  | not operand ih => rw [subst, ih h, subst]
  | binary op left right ihl ihr =>
    obtain ⟨hl, hr⟩ := List.forall_mem_append.mp h
    rw [subst, ihl hl, ihr hr, subst]

-- ---------------------------------------------------------------------------
-- Texts
-- ---------------------------------------------------------------------------

theorem textWith_eq_text_subst (b : Bindings) (e : Expr) :
    e.textWith b = (e.subst fun name => .var (b.display name)).text := by
  induction e with
  | var name => rfl
  | not operand ih => rw [textWith, ih, subst, text_not]
  | binary op left right ihl ihr => rw [textWith, ihl, ihr, subst, text_binary]

theorem display_eq_text (h : b.contains name) : b.display name = ((var name).bit b).text := by
  obtain ⟨x, hx⟩ := Option.isSome_iff_exists.mp h
  simp [Bindings.display, bit, holds, Bindings.isSet, hx]

/-- Where all variables are bound, each is written as its bit. -/
theorem IsBound.textWith (h : e.IsBound b) :
    e.textWith b = (e.subst fun name => .var ((var name).bit b).text).text := by
  rw [textWith_eq_text_subst]
  exact congrArg text (subst_congr fun name hname => congrArg var (display_eq_text (h name hname)))

-- ---------------------------------------------------------------------------
-- Values
-- ---------------------------------------------------------------------------

/-- A variable stands for the bit of the tree that is put in its place. -/
theorem bit_subst_update (b : Bindings) (name : String) (u e : Expr) :
    (e.subst (Function.update var name u)).bit b = e.bit (b.insert name (u.bit b)) := by
  have hval : (fun other => (Function.update var name u other).holds b.isSet) =
      (b.insert name (u.bit b)).isSet := by
    funext other
    by_cases h : other = name
    · subst h
      simp [Bindings.isSet, Bindings.get?_insert, bit]
    · simp [Function.update_of_ne h, holds, Bindings.isSet, Bindings.get?_insert, Ne.symm h]
  calc
    (e.subst (Function.update var name u)).bit b =
        .ofBool (e.holds fun other => (Function.update var name u other).holds b.isSet) :=
      congrArg Bit.ofBool (holds_subst _ _ _)
    _ = e.bit (b.insert name (u.bit b)) := congrArg (fun ρ => Bit.ofBool (e.holds ρ)) hval

theorem IsBound.subst_update (hu : u.IsBound b) (he : e.IsBound (b.insert name x)) :
    (e.subst (Function.update var name u)).IsBound b := by
  intro other hother
  rw [names_subst] at hother
  obtain ⟨inner, hinner, hmem⟩ := List.mem_flatMap.mp hother
  by_cases h : inner = name
  · subst h
    rw [Function.update_self] at hmem
    exact hu other hmem
  · rw [Function.update_of_ne h] at hmem
    obtain rfl : other = inner := List.mem_singleton.mp hmem
    have hbound := he other hinner
    rwa [Bindings.contains, Bindings.get?_insert, if_neg (Ne.symm h)] at hbound

end Expr

end LogicCalculator
