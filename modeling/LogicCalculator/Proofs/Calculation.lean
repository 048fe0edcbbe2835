import LogicCalculator.Calculation
import LogicCalculator.Proofs.Boundary
import LogicCalculator.Proofs.Diagnosis.FaultList
import LogicCalculator.Proofs.RoundTrip
import LogicCalculator.Proofs.Substitution
import LogicCalculator.Proofs.Trace

/-!
# What calculations end with

A calculation ends with the faults of the text, or else with its unbound
variables, or else with a value and one step for each operator
(`calculate_outcome`). No failure is without a message, and no name is left in
an expression that has a value.
-/

namespace LogicCalculator

-- ---------------------------------------------------------------------------
-- Trees
-- ---------------------------------------------------------------------------

namespace Expr

variable {b : Bindings} {e : Expr}

/-- Nothing is left out of the trace if all variables are bound. -/
theorem IsBound.computable (h : e.IsBound b) : e.computable b = e.operations := by
  induction e with
  | var name => rfl
  | not operand ih =>
    rw [computable_not, if_pos (isBound_not.mp h), ih (isBound_not.mp h), operations]
  | binary op left right ihl ihr =>
    obtain ⟨hl, hr⟩ := isBound_binary.mp h
    rw [computable_binary, if_pos ⟨hl, hr⟩, ihl hl, ihr hr, operations]

theorem calculate_of_isBound (h : e.IsBound b) :
    e.calculate b = .ok ⟨e.text, e.textWith b, e.bit b, Operation.steps b 0 e.operations⟩ := by
  have hvalue := evaluate_fst b e .empty
  have hsteps : (e.evaluate b .empty).2.steps.toList = Operation.steps b 0 (e.computable b) :=
    records_evaluate b e .empty
  rw [if_pos h] at hvalue
  rw [h.computable] at hsteps
  unfold calculate
  generalize e.evaluate b .empty = r at hvalue hsteps
  obtain ⟨_, v⟩ := r
  obtain rfl := hvalue
  dsimp only at hsteps ⊢
  rw [hsteps]

theorem calculate_of_not_isBound (h : ¬ e.IsBound b) :
    e.calculate b = .error (.undetermined ((e.unbound b).map .mk)) := by
  have hvalue := evaluate_fst b e .empty
  have herrors := errors_evaluate b e .empty
  rw [if_neg h] at hvalue
  unfold calculate
  generalize e.evaluate b .empty = r at hvalue herrors
  obtain ⟨_, v⟩ := r
  obtain rfl := hvalue
  dsimp only at herrors ⊢
  rw [herrors]
  rfl

theorem not_isBound_iff : ¬ e.IsBound b ↔ e.unbound b ≠ [] := by
  simp [IsBound, unbound]

end Expr

-- ---------------------------------------------------------------------------
-- Texts without names
-- ---------------------------------------------------------------------------

namespace Scanner

variable {c : Char} {cs word : List Char}

def Nameless (cs : List Char) : Prop :=
  ∀ position, ∀ t ∈ (mk cs position).tokens, t.kind ≠ .identifier

theorem Nameless.nil : Nameless [] := by
  intro position t ht
  rw [tokens_nil, List.mem_singleton] at ht
  subst ht
  nofun

theorem Nameless.cons (h : Nameless cs) (hc : c.isAlpha = false) : Nameless (c :: cs) := by
  intro position
  cases hs : isSeparator c with
  | true =>
    rw [tokens_separator position hs]
    exact h _
  | false =>
    rw [tokens_symbol position hs hc]
    exact List.forall_mem_cons.mpr ⟨kind_ofSymbol_ne_identifier c position, h _⟩

theorem Nameless.keyword {kind : Token.Kind} (h : Nameless cs) (hcs : Breaks cs)
    (hk : Token.Kind.keyword? word = some kind) : Nameless (word ++ cs) := by
  intro position
  obtain ⟨hne, hword⟩ := isAlpha_of_keyword? hk
  rw [tokens_word position hne hword hcs, Token.ofWord, hk]
  exact List.forall_mem_cons.mpr ⟨kind_ne_identifier_of_keyword? hk, h _⟩

theorem Nameless.cons_keyword {kind : Token.Kind} (h : Nameless cs)
    (hk : Token.Kind.keyword? word = some kind) : Nameless (word ++ ' ' :: cs) :=
  (h.cons rfl).keyword (breaks_cons rfl) hk

theorem nameless_text_append (h : Nameless cs) (x : Bit) : Nameless (x.text.toList ++ cs) := by
  cases x with
  | zero => exact h.cons (c := '0') rfl
  | one => exact h.cons (c := '1') rfl

/-- Every name has become a digit. -/
theorem nameless_textWith {b : Bindings} {e : Expr} (h : e.IsBound b) (hcs : Nameless cs) :
    Nameless ((e.textWith b).toList ++ cs) := by
  induction e generalizing cs with
  | var name =>
    rw [Expr.textWith, Expr.display_eq_text (h name (List.mem_singleton_self name))]
    exact nameless_text_append hcs _
  | not operand ih =>
    have hoperand := ih h (hcs.cons (c := ')') rfl)
    have hnot : Nameless ("NOT".toList ++ ' ' :: ((operand.textWith b).toList ++ ')' :: cs)) :=
      hoperand.cons_keyword rfl
    simpa [Expr.textWith, Expr.notKeyword] using hnot.cons (c := '(') rfl
  | binary op left right ihl ihr =>
    obtain ⟨hl, hr⟩ := Expr.isBound_binary.mp h
    obtain ⟨kind, hk, -⟩ := keyword?_keyword op
    have hoperator := (ihr hr (hcs.cons (c := ')') rfl)).cons_keyword hk
    have hleft := ihl hl (hoperator.cons (c := ' ') rfl)
    simpa [Expr.textWith] using hleft.cons (c := '(') rfl

end Scanner

-- ---------------------------------------------------------------------------
-- Texts
-- ---------------------------------------------------------------------------

section
variable {source : String} {b : Bindings} {e : Expr}

theorem calculate_of_parse_eq_none (h : (Parser.ofString source).parse.1 = none) :
    calculate source b = .error (.unreadable (Parser.ofString source).parse.2.errors.toList) := by
  unfold calculate Expr.ofString
  generalize (Parser.ofString source).parse = r at h ⊢
  obtain ⟨_, p⟩ := r
  obtain rfl := h
  rfl

theorem calculate_of_parse_eq_some (h : (Parser.ofString source).parse.1 = some e) :
    calculate source b = e.calculate b := by
  unfold calculate Expr.ofString
  generalize (Parser.ofString source).parse = r at h ⊢
  obtain ⟨_, p⟩ := r
  obtain rfl := h
  rfl

theorem errors_ne_of_parse_eq_none (h : (Parser.ofString source).parse.1 = none) :
    (Parser.ofString source).parse.2.errors.toList ≠ [] := by
  rcases Parser.parse_ofString_cases source with ⟨e, q, hr, -⟩ | ⟨q, d, hr, he⟩
  · rw [hr] at h
    cases h
  · rw [hr, he]
    exact List.cons_ne_nil _ _

-- ---------------------------------------------------------------------------
-- One condition for each end
-- ---------------------------------------------------------------------------

variable {c : Calculation}

theorem calculate_eq_unreadable_iff {l : List SyntaxError} :
    calculate source b = .error (.unreadable l) ↔
      (Parser.ofString source).parse.1 = none ∧
        l = (Parser.ofString source).parse.2.errors.toList := by
  cases hr : (Parser.ofString source).parse.1 with
  | none => simp [calculate_of_parse_eq_none hr, eq_comm]
  | some t =>
    by_cases hb : t.IsBound b
    · simp [calculate_of_parse_eq_some hr, Expr.calculate_of_isBound hb]
    · simp [calculate_of_parse_eq_some hr, Expr.calculate_of_not_isBound hb]

theorem calculate_eq_undetermined_iff {l : List UnboundVariable} :
    calculate source b = .error (.undetermined l) ↔
      ∃ t, (Parser.ofString source).parse.1 = some t ∧ ¬ t.IsBound b ∧
        l = (t.unbound b).map .mk := by
  cases hr : (Parser.ofString source).parse.1 with
  | none => simp [calculate_of_parse_eq_none hr]
  | some t =>
    by_cases hb : t.IsBound b
    · simp [calculate_of_parse_eq_some hr, Expr.calculate_of_isBound hb, hb]
    · simp [calculate_of_parse_eq_some hr, Expr.calculate_of_not_isBound hb, hb, eq_comm]

theorem calculate_eq_ok_iff :
    calculate source b = .ok c ↔
      ∃ t, (Parser.ofString source).parse.1 = some t ∧ t.IsBound b ∧
        c = ⟨t.text, t.textWith b, t.bit b, Operation.steps b 0 t.operations⟩ := by
  cases hr : (Parser.ofString source).parse.1 with
  | none => simp [calculate_of_parse_eq_none hr]
  | some t =>
    by_cases hb : t.IsBound b
    · simp [calculate_of_parse_eq_some hr, Expr.calculate_of_isBound hb, hb, eq_comm]
    · simp [calculate_of_parse_eq_some hr, Expr.calculate_of_not_isBound hb, hb]

theorem calculation_eq_iff {t : Expr} (h : t.IsBound b) :
    c = ⟨t.text, t.textWith b, t.bit b, Operation.steps b 0 t.operations⟩ ↔
      c.result.isSet = t.holds b.isSet ∧ c.parsed = t.text ∧
        c.expression = (t.subst fun name => .var ((Expr.var name).bit b).text).text ∧
        c.steps = t.operations.zipIdx.map fun (o, index) => o.step b index := by
  obtain ⟨parsed, expression, result, steps⟩ := c
  rw [h.textWith, Calculation.mk.injEq, ← Expr.eq_bit_iff]
  constructor
  · rintro ⟨hparsed, hexpression, hresult, hsteps⟩
    exact ⟨hresult.symm, hparsed, hexpression, hsteps⟩
  · rintro ⟨hresult, hparsed, hexpression, hsteps⟩
    exact ⟨hparsed, hexpression, hresult.symm, hsteps⟩

theorem kind_ne_identifier_of_calculate (h : calculate source b = .ok c) :
    ∀ t ∈ tokenize c.expression, t.kind ≠ .identifier := by
  obtain ⟨t, -, hb, rfl⟩ := calculate_eq_ok_iff.mp h
  have hname := Scanner.nameless_textWith hb .nil
  rw [List.append_nil] at hname
  exact hname .start

end

/-- A calculation has three ends. It finds the faults of the text if the text
has no tree. It finds the unbound variables, from left to right, if the tree
has any. Otherwise it finds the value of the tree, the texts of the tree with
its names and with bits in their places, and one step for each operator. -/
theorem calculate_outcome (source : String) (b : Bindings) :
    let r := (Parser.ofString source).parse
    (∀ l, calculate source b = .error (.unreadable l) ↔ r.1 = none ∧ l = r.2.errors.toList) ∧
      (∀ l, calculate source b = .error (.undetermined l) ↔
        ∃ t, r.1 = some t ∧ (∃ name ∈ t.names, b.contains name = false) ∧
          l = (t.names.filter (!b.contains ·)).map .mk) ∧
      (∀ c, calculate source b = .ok c ↔
        ∃ t, r.1 = some t ∧ (∀ name ∈ t.names, b.contains name) ∧
          c.result.isSet = t.holds b.isSet ∧ c.parsed = t.text ∧
          c.expression = (t.subst fun name => .var ((Expr.var name).bit b).text).text ∧
          c.steps = t.operations.zipIdx.map fun (o, index) => o.step b index) ∧
      (∀ c, calculate source b = .ok c → ∀ t ∈ tokenize c.expression, t.kind ≠ .identifier) ∧
      ∀ f, calculate source b = .error f →
        (match f with
          | .unreadable l => l ≠ [] ∧ f.messages = l.map SyntaxError.message
          | .undetermined l => l ≠ [] ∧ f.messages = l.map UnboundVariable.message) ∧
          f.message = "\n".intercalate f.messages := by
  intro r
  refine ⟨fun l => calculate_eq_unreadable_iff, ?_, ?_, ?_, ?_⟩
  · intro l
    rw [calculate_eq_undetermined_iff]
    refine exists_congr fun t => and_congr_right fun _ => and_congr_left fun _ => ?_
    simp [Expr.IsBound]
  · intro c
    rw [calculate_eq_ok_iff]
    exact exists_congr fun t => and_congr_right fun _ => and_congr_right calculation_eq_iff
  · intro c hc
    exact kind_ne_identifier_of_calculate hc
  · intro f hf
    refine ⟨?_, rfl⟩
    cases f with
    | unreadable l =>
      obtain ⟨hr, rfl⟩ := calculate_eq_unreadable_iff.mp hf
      exact ⟨errors_ne_of_parse_eq_none hr, rfl⟩
    | undetermined l =>
      obtain ⟨t, -, hb, rfl⟩ := calculate_eq_undetermined_iff.mp hf
      exact ⟨mt List.map_eq_nil_iff.mp (Expr.not_isBound_iff.mp hb), rfl⟩

theorem calculate_outcome_of_each_end :
    let b := Bindings.ofList [("x", .one), ("Y", .zero)]
    let refused := Failure.unreadable [⟨.unknownExpression .endOfInput, ⟨1, 6⟩⟩]
    (calculate "x AND" b = .error refused ∧
      refused.messages = ["(1:6) unknown expression EOF"]) ∧
    calculate "Z OR x AND z" b = .error (.undetermined [⟨"Z"⟩, ⟨"z"⟩]) ∧
    ∃ c, calculate "x AND NOT Y" b = .ok c ∧ c.result.isSet ∧ c.steps.length = 2 ∧
      c.expression = "(1 AND (NOT 0))" ∧ ∀ t ∈ tokenize c.expression, t.kind ≠ .identifier := by
  intro b refused
  refine ⟨?_, ?_, ?_⟩
  · obtain ⟨hend, -, -, -, hfailure⟩ := calculate_outcome "x AND" b
    have hcalc : calculate "x AND" b = .error refused :=
      (hend _).mpr ⟨by decide +kernel, by decide +kernel⟩
    exact ⟨hcalc, (hfailure refused hcalc).1.2.trans (by decide +kernel)⟩
  · obtain ⟨-, hend, -⟩ := calculate_outcome "Z OR x AND z" b
    let t := Expr.binary .or (.var "Z") (.binary .and (.var "x") (.var "z"))
    exact (hend _).mpr ⟨t, by decide +kernel, by decide, by decide⟩
  · obtain ⟨-, -, hend, hnames, -⟩ := calculate_outcome "x AND NOT Y" b
    let t := Expr.binary .and (.var "x") (.not (.var "Y"))
    have ht : (Parser.ofString "x AND NOT Y").parse.1 = some t := by decide +kernel
    have hcalc := (hend ⟨t.text, "(1 AND (NOT 0))", .one, _⟩).mpr
      ⟨t, ht, by decide, by decide, rfl, by decide +kernel, rfl⟩
    exact ⟨_, hcalc, rfl, by decide +kernel, rfl, hnames _ hcalc⟩

end LogicCalculator
