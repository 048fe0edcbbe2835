import LogicCalculator.Proofs.Calculation
import LogicCalculator.Proofs.Grammar.Substitution

/-!
# Bindings that matter

Evaluating a tree and writing it down look up the names of its variables and no
other names (`Expr.calculate_congr`). These are the names that the text spells,
so other bindings make no difference to a calculation
(`unspelled_names_irrelevant`).
-/

namespace LogicCalculator

namespace Expr

variable {b₁ b₂ : Bindings} {e : Expr}

/-- Names are looked up for their bits only, so the whole state is the same. -/
theorem evaluate_congr (h : ∀ name ∈ e.names, b₁.get? name = b₂.get? name) (v : Evaluation) :
    e.evaluate b₁ v = e.evaluate b₂ v := by
  induction e generalizing v with
  | var name => rw [evaluate, evaluate, h name (List.mem_singleton_self name)]
  | not operand ih => rw [evaluate_not, evaluate_not, ih h]
  | binary op left right ihl ihr =>
    obtain ⟨hl, hr⟩ := List.forall_mem_append.mp h
    rw [evaluate_binary, evaluate_binary, ihl hl, ihr hr]

theorem textWith_congr (h : ∀ name ∈ e.names, b₁.get? name = b₂.get? name) :
    e.textWith b₁ = e.textWith b₂ := by
  rw [textWith_eq_text_subst, textWith_eq_text_subst]
  refine congrArg text (subst_congr fun name hname => ?_)
  rw [Bindings.display, Bindings.display, h name hname]

theorem calculate_congr (h : ∀ name ∈ e.names, b₁.get? name = b₂.get? name) :
    e.calculate b₁ = e.calculate b₂ := by
  rw [calculate, calculate, evaluate_congr h, textWith_congr h]

end Expr

-- ---------------------------------------------------------------------------
-- Calculations
-- ---------------------------------------------------------------------------

section
variable {source : String} {b b₁ b₂ : Bindings} {c : Calculation}

theorem calculate_congr (h : ∀ name ∈ identifiers source, b₁.get? name = b₂.get? name) :
    calculate source b₁ = calculate source b₂ := by
  cases hr : (Parser.ofString source).parse.1 with
  | none => rw [calculate_of_parse_eq_none hr, calculate_of_parse_eq_none hr]
  | some t =>
    rw [calculate_of_parse_eq_some hr, calculate_of_parse_eq_some hr]
    refine Expr.calculate_congr ?_
    rwa [names_of_parse_eq_some hr]

/-- A calculation that succeeds has all its names bound. -/
theorem contains_of_calculate_eq_ok (h : calculate source b = .ok c) :
    ∀ name ∈ identifiers source, b.contains name := by
  obtain ⟨t, ht, hbound, -⟩ := calculate_eq_ok_iff.mp h
  rw [← names_of_parse_eq_some ht]
  exact hbound

end

/-- Bindings that agree on the identifiers of a text give one and the same
calculation or failure. So further bindings take nothing away from a
calculation that succeeds, and bindings of what is no name do nothing. -/
theorem unspelled_names_irrelevant (source : String) :
    (∀ b₁ b₂ : Bindings, (∀ name ∈ identifiers source, b₁.get? name = b₂.get? name) →
      calculate source b₁ = calculate source b₂) ∧
    (∀ (b more : Bindings) (c : Calculation), calculate source b = .ok c →
      (∀ name bit, b.get? name = some bit → more.get? name = some bit) →
        calculate source more = .ok c) ∧
    ∀ b₁ b₂ : Bindings, (∀ name, IsName name → b₁.get? name = b₂.get? name) →
      calculate source b₁ = calculate source b₂ := by
  refine ⟨fun b₁ b₂ h => calculate_congr h, ?_, ?_⟩
  · intro b more c hc hmore
    rw [← hc]
    refine calculate_congr fun name hname => ?_
    obtain ⟨bit, hbit⟩ := Option.isSome_iff_exists.mp (contains_of_calculate_eq_ok hc name hname)
    rw [hbit, hmore name bit hbit]
  · intro b₁ b₂ h
    exact calculate_congr fun name hname => h name (isName_of_mem_identifiers name hname)

theorem unspelled_names_irrelevant_beside_others :
    let source := "x AND not Y"
    let b := Bindings.ofList [("x", .one), ("Y", .zero)]
    let more := Bindings.ofList [("X", .zero), ("Y", .zero), ("z", .one), ("x", .one)]
    let odd := ((b.insert "" .one).insert "nOt" .zero).insert "x1" .one
    (∃ c, calculate source b = .ok c ∧ calculate source more = .ok c) ∧
      calculate "x AND Z" (b.insert "z" .one) = calculate "x AND Z" b ∧
      ∀ other, calculate other odd = calculate other b := by
  intro source b more odd
  refine ⟨?_, ?_, fun other => ?_⟩
  · have hc : ∃ c, calculate source b = .ok c := by
      refine ⟨⟨"(x AND (NOT Y))", "(1 AND (NOT 0))", .one,
        [⟨"NOT", none, .zero, .one, 0⟩, ⟨"AND", some .one, .one, .one, 1⟩]⟩, ?_⟩
      decide +kernel
    obtain ⟨c, hc⟩ := hc
    refine ⟨c, hc, (unspelled_names_irrelevant source).2.1 b more c hc fun name bit hbit => ?_⟩
    have hmore : ∀ entry ∈ b.entries, more.get? entry.1 = some entry.2 := by decide +kernel
    exact hmore _ (Bindings.get?_eq_some_iff.mp hbit)
  · exact (unspelled_names_irrelevant "x AND Z").1 _ _ (by decide +kernel)
  · refine (unspelled_names_irrelevant other).2.2 _ _ fun name hname => ?_
    have hodd : ∀ key ∈ ["", "nOt", "x1"], key ≠ name := by
      rintro key hkey rfl
      revert key
      decide +kernel
    simp only [List.forall_mem_cons] at hodd
    obtain ⟨hempty, hnot, hdigit, -⟩ := hodd
    rw [Bindings.get?_insert, Bindings.get?_insert, Bindings.get?_insert, if_neg hdigit,
      if_neg hnot, if_neg hempty]

end LogicCalculator
