import LogicCalculator.CommandLine
import LogicCalculator.Proofs.Calculation
import LogicCalculator.Proofs.Grammar.Substitution

/-!
# Reports line by line

What is reported about a calculation holds no line feeds, so a summary and a
list of messages are printed on as many lines as they have entries
(`count_unlines`).
-/

namespace LogicCalculator

/-- A text that takes one line. -/
def IsLine (s : String) : Prop := '\n' ∉ s.toList

instance (s : String) : Decidable (IsLine s) := by
  unfold IsLine
  infer_instance

section
variable {s t : String}

@[simp] theorem isLine_append : IsLine (s ++ t) ↔ IsLine s ∧ IsLine t := by
  simp [IsLine, not_or]

@[simp] theorem isLine_repr (n : Nat) : IsLine n.repr := by
  intro h
  rw [Nat.toList_repr] at h
  cases Nat.isDigit_of_mem_toDigits (by decide) (by decide) h

@[simp] theorem isLine_kind (kind : Token.Kind) : IsLine kind.display := by
  cases kind <;> decide

@[simp] theorem isLine_bit (x : Bit) : IsLine x.text := by
  cases x <;> decide

@[simp] theorem isLine_keyword (op : BinaryOperator) : IsLine op.keyword := by
  cases op <;> decide

theorem IsName.isLine {name : String} (h : IsName name) : IsLine name := by
  intro hmem
  cases List.all_eq_true.mp h.2.1 _ hmem

-- ---------------------------------------------------------------------------
-- Messages
-- ---------------------------------------------------------------------------

theorem isLine_position (p : Position) : IsLine p.text := by
  change IsLine (p.line.repr ++ ":" ++ p.column.repr)
  simp only [isLine_append, isLine_repr, true_and, and_true]
  decide

theorem isLine_cause (cause : SyntaxError.Cause) : IsLine cause.message := by
  cases cause with
  | unexpectedToken expected found =>
    change IsLine ("expected next token to be " ++ expected.display ++ ", got " ++ found.display ++
      " instead")
    simp only [isLine_append, isLine_kind, and_true]
    decide
  | unknownExpression found =>
    change IsLine ("unknown expression " ++ found.display)
    simp only [isLine_append, isLine_kind, and_true]
    decide
  | unknownOperator found =>
    change IsLine ("unknown operator " ++ found.display)
    simp only [isLine_append, isLine_kind, and_true]
    decide
  | nestingTooDeep limit =>
    change IsLine ("expression nested too deeply (limit " ++ limit.repr ++ ")")
    simp only [isLine_append, isLine_repr, and_true]
    decide

theorem isLine_syntaxError (error : SyntaxError) : IsLine error.message := by
  simp only [SyntaxError.message, isLine_append, isLine_position, isLine_cause, and_true]
  decide

theorem isLine_unbound {name : String} (h : IsName name) :
    IsLine (UnboundVariable.mk name).message := by
  simp only [UnboundVariable.message, isLine_append, h.isLine, and_true]
  decide

theorem isLine_of_mem_messages {source : String} {b : Bindings} {f : Failure} {m : String}
    (h : calculate source b = .error f) (hm : m ∈ f.messages) : IsLine m := by
  cases f with
  | unreadable l =>
    obtain ⟨error, -, rfl⟩ := List.mem_map.mp hm
    exact isLine_syntaxError error
  | undetermined l =>
    obtain ⟨t, ht, -, rfl⟩ := calculate_eq_undetermined_iff.mp h
    obtain ⟨error, herror, rfl⟩ := List.mem_map.mp hm
    obtain ⟨name, hname, rfl⟩ := List.mem_map.mp herror
    exact isLine_unbound (isName_of_parse_eq_some ht name (List.mem_of_mem_filter hname))

theorem messages_ne_nil {source : String} {b : Bindings} {f : Failure}
    (h : calculate source b = .error f) : f.messages ≠ [] := by
  cases f with
  | unreadable l =>
    obtain ⟨hnone, rfl⟩ := calculate_eq_unreadable_iff.mp h
    exact mt List.map_eq_nil_iff.mp (errors_ne_of_parse_eq_none hnone)
  | undetermined l =>
    obtain ⟨t, -, hb, rfl⟩ := calculate_eq_undetermined_iff.mp h
    have hunbound := Expr.not_isBound_iff.mp hb
    exact mt List.map_eq_nil_iff.mp (mt List.map_eq_nil_iff.mp hunbound)

-- ---------------------------------------------------------------------------
-- Summaries
-- ---------------------------------------------------------------------------

theorem isLine_display (b : Bindings) {name : String} (h : IsLine name) :
    IsLine (b.display name) := by
  unfold Bindings.display
  split
  · exact isLine_bit _
  · exact h

theorem isLine_textWith (b : Bindings) {e : Expr} (h : ∀ name ∈ e.names, IsLine name) :
    IsLine (e.textWith b) := by
  have hparts : IsLine "(" ∧ IsLine " " ∧ IsLine ")" ∧ IsLine Expr.notKeyword := by decide
  induction e with
  | var name => exact isLine_display b (h name (List.mem_singleton_self name))
  | not operand ih => simp [Expr.textWith, hparts, ih h]
  | binary op left right ihl ihr =>
    obtain ⟨hl, hr⟩ := List.forall_mem_append.mp h
    simp [Expr.textWith, hparts, ihl hl, ihr hr]

theorem isLine_step (b : Bindings) (o : Operation) (index : Nat) :
    IsLine (o.step b index).text := by
  have hparts : IsLine " " ∧ IsLine " = " ∧ IsLine "NOT " := by decide
  cases o with
  | not operand => simp [Operation.step, Step.text, hparts]
  | binary op left right => simp [Operation.step, Step.text, hparts]

/-- A summary has four lines and one more for each operator of the tree. -/
theorem summary_lines {source : String} {b : Bindings} {c : Calculation}
    (h : calculate source b = .ok c) :
    ∃ t, (Parser.ofString source).parse.1 = some t ∧
      c.summary.length = 4 + t.operations.length ∧ ∀ line ∈ c.summary, IsLine line := by
  obtain ⟨t, ht, hb, rfl⟩ := calculate_eq_ok_iff.mp h
  have hnames : ∀ name ∈ t.names, IsLine name := fun name hname =>
    (isName_of_parse_eq_some ht name hname).isLine
  have hparts : IsLine "Parsed: " ∧ IsLine "Expression: " ∧ IsLine "Result: " ∧
      IsLine "Processes:" ∧ IsLine "  " := by
    decide
  refine ⟨t, ht, by simp, ?_⟩
  simp only [Calculation.summary, List.forall_mem_append, List.forall_mem_cons, List.forall_mem_map,
    isLine_append, isLine_bit, hparts, true_and]
  refine ⟨⟨isLine_textWith ∅ hnames, isLine_textWith b hnames, List.forall_mem_nil _⟩, ?_⟩
  intro s hs
  obtain ⟨⟨o, index⟩, -, rfl⟩ := List.mem_map.mp hs
  exact isLine_step b o index

-- ---------------------------------------------------------------------------
-- Printed lines
-- ---------------------------------------------------------------------------

open CommandLine

theorem toList_unlines (lines : List String) :
    (unlines lines).toList = lines.flatMap fun line => line.toList ++ ['\n'] := by
  simp [unlines, String.toList_join, List.flatMap_map]

@[simp] theorem unlines_singleton (line : String) : unlines [line] = line ++ "\n" := by
  simp [unlines, String.join]

/-- Lines are printed as so many lines. -/
theorem count_unlines {lines : List String} (h : ∀ line ∈ lines, IsLine line) :
    (unlines lines).toList.count '\n' = lines.length := by
  rw [toList_unlines]
  induction lines with
  | nil => rfl
  | cons line lines ih =>
    obtain ⟨hline, hlines⟩ := List.forall_mem_cons.mp h
    rw [List.flatMap_cons, List.count_append, List.count_append, ih hlines,
      List.count_eq_zero.mpr hline, List.length_cons]
    simp [Nat.add_comm]

theorem unlines_ne_empty {lines : List String} (h : lines ≠ []) : unlines lines ≠ "" := by
  obtain ⟨line, rest, rfl⟩ := List.exists_cons_of_ne_nil h
  intro hempty
  have hlist := congrArg String.toList hempty
  rw [toList_unlines] at hlist
  simp at hlist

end

end LogicCalculator
