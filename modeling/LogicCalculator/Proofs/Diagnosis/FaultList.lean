import LogicCalculator.Proofs.Diagnosis
import LogicCalculator.Proofs.TokenOrder

/-!
# The faults of a text

A text is accepted or has a fault (`fault_list_shape`). The first fault points
at the first token that no sentence could have there, or at one at which the
levels have run out (`first_fault_earliest`). All others are of groups that are
open in front of that token.
-/

namespace LogicCalculator

/-- The groups that are open behind tokens: those that have begun less those
that have ended. -/
def openGroups (w : List Token) : Nat :=
  w.countP (·.kind = .leftParen) - w.countP (·.kind = .rightParen)

/-- The fault points at the token `k` of the text, which stands behind the
tokens `before`. -/
def SyntaxError.PointsAt (e : SyntaxError) (source : String) (before : List Token) (k : Token) :
    Prop :=
  (∃ after, tokenize source = before ++ k :: after) ∧ k.position = e.position

section
variable {source : String} {before : List Token} {k : Token}

theorem Outlook.groups_eq_openGroups {o : Outlook} (h : (operand 0).run before = some o) :
    o.groups = openGroups before := by
  have hrun := groups_run h
  rw [openGroups, ← Nat.zero_add (before.countP _)]
  exact (Nat.sub_eq_of_eq_add hrun.symm).symm

namespace Diagnosis

variable (d : Diagnosis 0 (tokenize source))

theorem pointsAt_first : d.first.PointsAt source d.before d.blamed :=
  ⟨⟨d.after, d.tokens_eq⟩, rfl⟩

/-- No other token stands where the first fault is. -/
theorem eq_of_pointsAt (h : d.first.PointsAt source before k) :
    before = d.before ∧ k = d.blamed := by
  obtain ⟨⟨after, hts⟩, hk⟩ := h
  exact eq_of_position_eq (tokenize_pairwise source) hts d.tokens_eq hk

theorem countP_faults_le (h : d.first.PointsAt source before k) :
    d.faults.countP SyntaxError.isUnclosed ≤ openGroups before := by
  obtain ⟨rfl, -⟩ := d.eq_of_pointsAt h
  rw [← Outlook.groups_eq_openGroups d.run_eq]
  exact d.groups_le

variable {d}

theorem exists_cause_of_mem_later {f : SyntaxError} (hf : f ∈ d.later) :
    ∃ found, f.cause = .unexpectedToken .rightParen found :=
  SyntaxError.isUnclosed_iff.mp (d.unclosed_later f hf)

theorem faults_eq_singleton {f : SyntaxError} (hf : f ∈ d.faults) (h : f.cause.IsFinal) :
    d.faults = [f] := by
  rcases List.mem_cons.mp hf with rfl | hf
  · rw [faults, d.later_eq_nil h]
  · obtain ⟨found, hfound⟩ := exists_cause_of_mem_later hf
    rw [hfound] at h
    rcases h with ⟨limit, h⟩ | h <;> cases h

/-- A fault that is not of a group is the first one. -/
theorem index_eq_zero {i : Nat} {f : SyntaxError} (hf : d.faults[i]? = some f)
    (h : f.isUnclosed = false) : i = 0 := by
  cases i with
  | zero => rfl
  | succ i => simp [d.unclosed_later f (List.mem_of_getElem? hf)] at h

end Diagnosis

end

namespace Parser

/-- Reading a text gives a tree and no fault, or the faults of a diagnosis. -/
theorem parse_ofString_cases (source : String) :
    (∃ e q, (ofString source).parse = (some e, q) ∧ q.errors = #[]) ∨
      ∃ q, ∃ d : Diagnosis 0 (tokenize source),
        (ofString source).parse = (none, q) ∧ q.errors.toList = d.faults := by
  rcases parse_verdict (ended_tokens_ofString source) rfl with h | ⟨q, hq, h⟩
  · exact .inl h
  · obtain ⟨d, he, -⟩ := tokens_ofString source ▸ h
    exact .inr ⟨q, d, hq, he⟩

end Parser

/-- A text is accepted if and only if reading it records no fault. Otherwise
there is a first fault, and those behind it ask for the ends of groups: with
the first one there are at most as many of these as groups are open in front of
the token that it points at. A fault that the levels have run out or that
the input should have ended is the only one, and one about an operand or an
operator is the first one. -/
theorem fault_list_shape (source : String) :
    let r := (Parser.ofString source).parse
    (r.1.isSome ↔ r.2.errors = #[]) ∧
      (r.1 = none → ∃ e later, r.2.errors.toList = e :: later ∧
        (∀ f ∈ later, ∃ found, f.cause = .unexpectedToken .rightParen found) ∧
        (∃ before k, e.PointsAt source before k) ∧
        (∀ before k, e.PointsAt source before k →
          (e :: later).countP SyntaxError.isUnclosed ≤ openGroups before) ∧
        (e.cause.IsFinal → later = [])) ∧
      (∀ f ∈ r.2.errors, f.cause.IsFinal → r.2.errors = #[f]) ∧
      ∀ i f found, r.2.errors[i]? = some f →
        f.cause = .unknownExpression found ∨ f.cause = .unknownOperator found → i = 0 := by
  rcases Parser.parse_ofString_cases source with ⟨e, q, hr, he⟩ | ⟨q, d, hr, he⟩
  · rw [hr]
    simp [he]
  · rw [hr]
    have hne : q.errors ≠ #[] := fun h => by simp [h, Diagnosis.faults] at he
    refine ⟨iff_of_false Bool.false_ne_true hne, ?_, ?_, ?_⟩
    · intro _
      exact ⟨d.first, d.later, he, fun f => Diagnosis.exists_cause_of_mem_later,
        ⟨_, _, d.pointsAt_first⟩, fun before k => d.countP_faults_le, d.later_eq_nil⟩
    · intro f hf hfinal
      rw [← Array.mem_toList_iff, he] at hf
      exact Array.toList_inj.mp (he.trans (Diagnosis.faults_eq_singleton hf hfinal))
    · intro i f found hf hcause
      rw [← Array.getElem?_toList, he] at hf
      refine Diagnosis.index_eq_zero hf ?_
      rcases hcause with h | h <;> simp [SyntaxError.isUnclosed, h]

theorem fault_list_shape_unclosed :
    let before : List Token := [.bare .leftParen ⟨1, 1⟩, .bare .leftParen ⟨1, 2⟩,
      .identifier "X" ⟨1, 3⟩, .bare .and ⟨1, 5⟩]
    (Parser.ofString "((X AND").parse.1 = none ∧
      ∃ e later, (Parser.ofString "((X AND").parse.2.errors.toList = e :: later ∧
        e.cause = .unknownExpression .endOfInput ∧
        e.PointsAt "((X AND" before (.bare .endOfInput ⟨1, 8⟩) ∧
        (∀ f ∈ later, ∃ found, f.cause = .unexpectedToken .rightParen found) ∧
        later.length = openGroups before ∧
        (e :: later).countP SyntaxError.isUnclosed ≤ openGroups before := by
  intro before
  have h : (Parser.ofString "((X AND").parse.1 = none := by decide +kernel
  have herrors : (Parser.ofString "((X AND").parse.2.errors.toList =
      [⟨.unknownExpression .endOfInput, ⟨1, 8⟩⟩,
        ⟨.unexpectedToken .rightParen .endOfInput, ⟨1, 8⟩⟩,
        ⟨.unexpectedToken .rightParen .endOfInput, ⟨1, 8⟩⟩] := by
    decide +kernel
  have htokens : tokenize "((X AND" = before ++ [.bare .endOfInput ⟨1, 8⟩] := by decide +kernel
  obtain ⟨e, later, he, hlater, -, hcount, -⟩ := (fault_list_shape "((X AND").2.1 h
  obtain ⟨rfl, rfl⟩ := List.cons.inj (herrors.symm.trans he)
  have hk : SyntaxError.PointsAt ⟨.unknownExpression .endOfInput, ⟨1, 8⟩⟩ "((X AND" before
      (.bare .endOfInput ⟨1, 8⟩) := ⟨⟨[], htokens⟩, rfl⟩
  exact ⟨h, _, _, he, rfl, hk, hlater, rfl, hcount _ _ hk⟩

/-- The first fault is at the earliest token: those in front of it begin a
sentence, and unless the levels have run out, no sentence goes on with it or
ends in front of it. -/
theorem first_fault_earliest (source : String) (h : (Parser.ofString source).parse.1 = none) :
    ∃ e, (Parser.ofString source).parse.2.errors[0]? = some e ∧
      (∃ before k, e.PointsAt source before k) ∧
      ∀ before k, e.PointsAt source before k →
        (∃ rest, Sentence .expression (before ++ rest)) ∧
        (¬ e.cause.IsTooDeep → ∀ w t, Sentence .expression w → t.kind = .endOfInput →
          ¬ before ++ [k] <+: w ++ [t]) := by
  rcases Parser.parse_ofString_cases source with ⟨e, q, hr, -⟩ | ⟨q, d, hr, he⟩
  · rw [hr] at h
    cases h
  · rw [hr]
    refine ⟨d.first, ?_, ⟨_, _, d.pointsAt_first⟩, ?_⟩
    · rw [← Array.getElem?_toList, he]
      rfl
    · intro before k hk
      obtain ⟨rfl, rfl⟩ := d.eq_of_pointsAt hk
      refine ⟨Outlook.exists_sentence d.run_eq d.blames.ne_ended, ?_⟩
      intro hcause w t hw ht
      exact Outlook.not_isPrefix d.run_eq (d.blames.next_eq_none hcause) hw ht

theorem first_fault_earliest_misplaced :
    let x := Token.identifier "X" ⟨1, 1⟩
    let not := Token.bare .not ⟨1, 3⟩
    (Parser.ofString "X NOT Y").parse.1 = none ∧
      ∃ e, (Parser.ofString "X NOT Y").parse.2.errors[0]? = some e ∧
        e.PointsAt "X NOT Y" [x] not ∧ ¬ e.cause.IsTooDeep ∧
        (∃ rest, Sentence .expression ([x] ++ rest)) ∧
        Sentence .expression [x] ∧ ¬ [x] ++ [not] <+: [x] ++ [.bare .endOfInput ⟨1, 2⟩] := by
  intro x not
  have h : (Parser.ofString "X NOT Y").parse.1 = none := by decide +kernel
  have herror : (Parser.ofString "X NOT Y").parse.2.errors[0]? =
      some ⟨.unknownOperator .not, ⟨1, 3⟩⟩ := by
    decide +kernel
  have htokens : tokenize "X NOT Y" =
      [x] ++ not :: [.identifier "Y" ⟨1, 7⟩, .bare .endOfInput ⟨1, 8⟩] := by
    decide +kernel
  have hx : Sentence .expression [x] := .of_term (.ident rfl)
  obtain ⟨e, he, -, hfirst⟩ := first_fault_earliest "X NOT Y" h
  obtain rfl := Option.some.inj (herror.symm.trans he)
  have hk : SyntaxError.PointsAt ⟨.unknownOperator .not, ⟨1, 3⟩⟩ "X NOT Y" [x] not :=
    ⟨⟨_, htokens⟩, rfl⟩
  have hcause : ¬ SyntaxError.Cause.IsTooDeep (.unknownOperator .not) :=
    SyntaxError.Cause.not_isTooDeep rfl
  obtain ⟨hbegins, hends⟩ := hfirst [x] not hk
  exact ⟨h, _, he, hk, hcause, hbegins, hx, hends hcause [x] _ hx rfl⟩

end LogicCalculator
