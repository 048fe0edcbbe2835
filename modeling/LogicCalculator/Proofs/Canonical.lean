import LogicCalculator.Proofs.Calculation
import LogicCalculator.Proofs.Grammar.Substitution
import LogicCalculator.Proofs.Nesting

/-!
# Calculating what was written

A calculation writes down the tree that it has read, with a group around every
operator. Calculated in its turn, that text gives the same calculation if the
tree costs no more levels than there are. It is refused if it also has a path
that is too long, although it was written from a text that was read
(`exists_parsed_refused`).
-/

namespace LogicCalculator

section
variable {e : Expr} {b : Bindings}

theorem calculate_text (h : ∀ name ∈ e.names, IsName name) (hc : e.cost ≤ nestingLimit) :
    calculate e.text b = e.calculate b := by
  have d := derives_words_text h
  have hread := Parser.parse_of_demand_le d (e.demand_phrase ▸ hc)
  rw [Expr.erase_phrase] at hread
  exact calculate_of_parse_eq_some hread.1

theorem calculate_text_refused (h : ∀ name ∈ e.names, IsName name)
    (hc : nestingLimit < e.cost) :
    ∃ position, calculate e.text b = .error (.unreadable [⟨.nestingTooDeep 256, position⟩]) := by
  have d := derives_words_text h
  obtain ⟨hnone, position, herrors⟩ := Parser.parse_of_lt_demand d (e.demand_phrase ▸ hc)
  refine ⟨position, ?_⟩
  rw [calculate_of_parse_eq_none hnone, herrors]
  rfl

end

/-- What a calculation has written gives the same calculation again if the tree
costs no more levels than there are. If it costs more, and the text has a path
that is too long, then the one fault is that the text takes too many levels. -/
theorem calculate_parsed {source : String} {b : Bindings} {c : Calculation}
    (h : calculate source b = .ok c) :
    ∃ t, (Parser.ofString source).parse.1 = some t ∧ c.parsed = t.text ∧
      (t.cost ≤ 256 → calculate c.parsed b = .ok c) ∧
      (256 < t.cost →
        (∃ d, Derives .expression (words c.parsed) d ∧ ∃ path ∈ d.paths, 256 < path.length) →
          ∃ position,
            calculate c.parsed b = .error (.unreadable [⟨.nestingTooDeep 256, position⟩])) := by
  obtain ⟨t, ht, hb, rfl⟩ := calculate_eq_ok_iff.mp h
  have hnames := isName_of_parse_eq_some ht
  refine ⟨t, ht, rfl, fun hc => ?_, fun hc _ => calculate_text_refused hnames hc⟩
  exact (calculate_text hnames hc).trans (Expr.calculate_of_isBound hb)

theorem calculate_parsed_within_and_beyond :
    let near := "x xor not Y"
    let far := String.join (List.replicate 129 "NOT ") ++ "X"
    let b := Bindings.ofList [("x", .one), ("Y", .zero), ("X", .one)]
    (∃ c, calculate near b = .ok c ∧ c.parsed = "(x XOR (NOT Y))" ∧
      calculate c.parsed b = .ok c) ∧
    ∃ c d position, calculate far b = .ok c ∧
      (Derives .expression (words c.parsed) d ∧ ∃ path ∈ d.paths, path.length = 258) ∧
        calculate c.parsed b = .error (.unreadable [⟨.nestingTooDeep 256, position⟩]) := by
  intro near far b
  constructor
  · let t := Expr.binary .xor (.var "x") (.not (.var "Y"))
    have ht : (Parser.ofString near).parse.1 = some t := by decide +kernel
    have hcalc := calculate_eq_ok_iff.mpr ⟨t, ht, (by decide : t.IsBound b), rfl⟩
    obtain ⟨t', ht', -, hsame, -⟩ := calculate_parsed hcalc
    obtain rfl := Option.some.inj (ht.symm.trans ht')
    exact ⟨_, hcalc, by decide +kernel, hsame (by decide)⟩
  · have d := derives_words_of_spells (Scanner.spells_name.negated 129)
    have ht := (Parser.parse_of_demand_le d (by decide +kernel)).1
    have hcalc := calculate_eq_ok_iff.mpr ⟨_, ht, (by decide +kernel : Expr.IsBound b _), rfl⟩
    obtain ⟨t, ht', -, -, hrefused⟩ := calculate_parsed hcalc
    obtain rfl := Option.some.inj (ht.symm.trans ht')
    have dtext := derives_words_text (isName_of_parse_eq_some ht)
    have hlong : ∃ path ∈ (Phrase.negated 129 (.ident "X")).erase.phrase.paths,
        path.length = 258 := by
      decide +kernel
    obtain ⟨path, hpath, hlength⟩ := hlong
    obtain ⟨position, hp⟩ := hrefused (by decide +kernel)
      ⟨_, dtext, path, hpath, hlength ▸ (by decide)⟩
    exact ⟨_, _, position, hcalc, ⟨dtext, path, hpath, hlength⟩, hp⟩

/-- Of 129 negations each is read as one level and written as two. -/
theorem exists_parsed_refused :
    let source := String.join (List.replicate 129 "NOT ") ++ "X"
    let b := Bindings.ofList [("X", .one)]
    ∃ c, calculate source b = .ok c ∧ calculate c.parsed b ≠ .ok c := by
  intro source b
  have d := derives_words_of_spells (Scanner.spells_name.negated 129)
  have ht := (Parser.parse_of_demand_le d (by decide +kernel)).1
  have hcalc := calculate_eq_ok_iff.mpr ⟨_, ht, (by decide +kernel : Expr.IsBound b _), rfl⟩
  refine ⟨_, hcalc, ?_⟩
  obtain ⟨position, hp⟩ := calculate_text_refused (isName_of_parse_eq_some ht) (by decide +kernel)
  rw [hp]
  nofun

end LogicCalculator
