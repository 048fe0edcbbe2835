import Mathlib.Logic.Function.Iterate
import LogicCalculator.Proofs.Machine.Simulation
import LogicCalculator.Proofs.Moves

/-!
# What a reading takes

A reading ends after four steps for each token, whatever the tokens are. On its
way it takes each token once, and the expressions on its stack are never more
than there are levels (`one_pass`). Both come from what one step does: it lowers
a potential (`Rule.potential_lt`), and it keeps the stack in line with the meter
(`Rule.within`).
-/

namespace LogicCalculator

/-- Steps that can follow without a token being taken or an expression being resumed. -/
def Phase.weight : Phase → Nat
  | .enter .. => 4
  | .operand .. => 3
  | .chain .. | .skip .. => 2
  | .ended .. => 1
  | .done .. => 0

/-- The expression that is being read and not waiting. -/
def Phase.activation? : Phase → Option Activation
  | .operand a | .chain a _ | .skip a => some a
  | _ => none

namespace Parser

variable {p q : Parser}

theorem length_upcoming_advance (h : p.cursor.upcoming ≠ []) :
    p.advance.cursor.upcoming.length + 1 = p.cursor.upcoming.length := by
  obtain ⟨t, ts, hts⟩ := List.exists_cons_of_ne_nil h
  simp [cursor_advance hts, hts]

theorem Reads.exists_length_eq (h : p.Reads q) :
    ∃ n, p.cursor.upcoming.length = q.cursor.upcoming.length + n ∧
      q.meter.pulls = p.meter.pulls + n := by
  obtain ⟨ts, hts, hpulls⟩ := h
  have hlength := congrArg List.length hts
  simp only [tokens, List.length_append, List.length_cons] at hlength
  exact ⟨ts.length, by omega, hpulls⟩

theorem Reads.length_le (h : p.Reads q) :
    q.cursor.upcoming.length ≤ p.cursor.upcoming.length := by
  obtain ⟨n, hlength, -⟩ := h.exists_length_eq
  omega

end Parser

namespace Reading

variable {r r' : Reading} {a : Activation} {waiting : Stack} {p : Parser}
  {n : Nat}

-- ---------------------------------------------------------------------------
-- Steps to the end
-- ---------------------------------------------------------------------------

/-- A bound on the steps to the end. -/
def potential (r : Reading) : Nat :=
  4 * r.parser.cursor.upcoming.length + 2 * r.waiting.length + r.phase.weight

theorem potential_resume_le (a : Activation) (waiting : Stack) (result : Option Expr × Parser) :
    (resume a waiting result).potential ≤
      4 * result.2.cursor.upcoming.length + 2 * waiting.length + 2 := by
  obtain ⟨_ | left, p⟩ := result <;> simp [potential, resume, leave, Phase.weight]

theorem Rule.potential_lt (h : Rule r r') (hr : r.Proper) : r'.potential < r.potential := by
  cases h with
  | enter | refuse | name | unknownExpression | stop | skipped | combine | fail =>
    simp [potential, leave, Phase.weight] <;> omega
  | @not a waiting p hk | @group a waiting p hk =>
    have hlength := p.length_upcoming_advance
      (hr.ended.upcoming_ne_nil p.current_mem_take_tokens (by simp [hk]))
    simp only [potential, Phase.weight, List.length_cons]
    omega
  | @exhausted a left waiting p hb =>
    have hlength := p.length_upcoming_advance (hr.ended.upcoming_ne_nil_of_bindsAbove hb)
    simp only [potential, leave, Phase.weight, Parser.cursor_leave, Parser.cursor_refuse]
    omega
  | @operator a left waiting p op hb =>
    have hlength := p.length_upcoming_advance (hr.ended.upcoming_ne_nil_of_bindsAbove hb)
    have hlength' := p.advance.descend.length_upcoming_advance (upcoming_advance hr.ended hb)
    simp only [potential, Phase.weight, List.length_cons]
    rw [Parser.cursor_descend] at hlength'
    omega
  | @unknownOperator a left waiting p hb | @skip a waiting p hb =>
    have hlength := p.length_upcoming_advance (hr.ended.upcoming_ne_nil_of_bindsAbove hb)
    have hlt : p.advance.cursor.upcoming.length < p.cursor.upcoming.length := by omega
    simpa [potential, Phase.weight] using hlt
  | @finish result p =>
    have hlength := (reads_finish (p := p) hr.ended hr.tree).length_le
    simp only [potential, ofResult, Phase.weight, List.length_nil]
    omega
  | @negate result a waiting p =>
    have hresume := potential_resume_le a waiting (result.map .not, p)
    simp only [potential, Phase.weight, List.length_cons] at hresume ⊢
    omega
  | @close result a waiting p =>
    have hresume := potential_resume_le a waiting (Parser.close (result, p))
    have hlength := (reads_close hr.ended result).length_le
    simp only [potential, Phase.weight, List.length_cons] at hresume hlength ⊢
    omega

theorem run_iterate_step (r : Reading) (n : Nat) : Run r (step^[n] r) := by
  induction n with
  | zero => exact .refl
  | succ n ih =>
    rw [Function.iterate_succ_apply']
    obtain h | h := isDone_or_rule_step (step^[n] r)
    · rwa [h.step_eq]
    · exact ih.tail h

/-- A run to the end takes no more steps than the potential allows. -/
theorem iterate_step_of_run (h : Run r r') (hd : r'.IsDone) (hr : r.Proper)
    (hn : r.potential ≤ n) : step^[n] r = r' := by
  induction h using Relation.ReflTransGen.head_induction_on generalizing n with
  | refl => exact Function.iterate_fixed hd.step_eq n
  | head hstep hrun ih =>
    have hlt := hstep.potential_lt hr
    cases n with
    | zero => omega
    | succ n =>
      rw [Function.iterate_succ_apply, hstep.step_eq]
      exact ih (hstep.proper hr) (by omega)

-- ---------------------------------------------------------------------------
-- Expressions that have begun
-- ---------------------------------------------------------------------------

/-- The expressions that have begun and not ended, the innermost first. -/
def activations (r : Reading) : List Activation :=
  r.phase.activation?.toList ++ r.waiting.map Prod.snd

/-- Each expression has taken a level of its own, and the meter counts them. -/
def Stacked : List Activation → (depth active : Nat) → Prop
  | [], depth, active => depth = 0 ∧ active = 0
  | a :: outer, depth, active => a.outer.depth < depth ∧ active = a.outer.active + 1 ∧
    Stacked outer a.outer.depth a.outer.active

theorem Stacked.length_eq {as : List Activation} {depth active : Nat}
    (h : Stacked as depth active) : as.length = active := by
  induction as generalizing depth active with
  | nil => exact h.2.symm
  | cons a outer ih => rw [List.length_cons, ih h.2.2, h.2.1]

theorem Stacked.length_le {as : List Activation} {depth active : Nat}
    (h : Stacked as depth active) : as.length ≤ depth := by
  induction as generalizing depth active with
  | nil => exact Nat.zero_le _
  | cons a outer ih => exact Nat.lt_of_le_of_lt (ih h.2.2) h.1

/-- What is in use is on the stack and within the limit, and so it always was. -/
structure Within (as : List Activation) (m : Meter) : Prop where
  stacked : Stacked as m.depth m.active
  depth_le : m.depth ≤ nestingLimit
  deepest_le : m.deepest ≤ nestingLimit
  mostActive_le : m.mostActive ≤ nestingLimit

namespace Within

variable {as : List Activation} {m : Meter}

theorem pull (h : Within as m) : Within as m.pull := ⟨h.1, h.2, h.3, h.4⟩

theorem descend (h : Within (a :: as) m) (hd : m.depth < nestingLimit) :
    Within (a :: as) m.descend where
  stacked := ⟨Nat.lt_succ_of_lt h.stacked.1, h.stacked.2⟩
  depth_le := hd
  deepest_le := Nat.max_le.mpr ⟨h.deepest_le, hd⟩
  mostActive_le := h.mostActive_le

theorem enter (h : Within as m) (hd : m.depth < nestingLimit) (floor : Priority) :
    Within (⟨floor, m⟩ :: as) m.enter where
  stacked := ⟨Nat.lt_succ_self _, rfl, h.stacked⟩
  depth_le := hd
  deepest_le := Nat.max_le.mpr ⟨h.deepest_le, hd⟩
  mostActive_le := by
    have hlength := h.stacked.length_le
    rw [h.stacked.length_eq] at hlength
    exact Nat.max_le.mpr ⟨h.mostActive_le, Nat.lt_of_le_of_lt hlength hd⟩

theorem leave (h : Within (a :: as) m) : Within as (m.leave a.outer) where
  stacked := h.stacked.2.2
  depth_le := Nat.le_trans (Nat.le_of_lt h.stacked.1) h.depth_le
  deepest_le := h.deepest_le
  mostActive_le := h.mostActive_le

theorem resume {result : Option Expr × Parser}
    (h : Within (a :: waiting.map Prod.snd) result.2.meter) :
    Within (Reading.resume a waiting result).activations
      (Reading.resume a waiting result).parser.meter := by
  obtain ⟨_ | left, p⟩ := result
  · exact h.leave
  · exact h

theorem close (h : Within as p.meter) (inner : Option Expr) :
    Within as (Parser.close (inner, p)).2.meter := by
  simp only [Parser.close]
  split
  · exact h
  · split
    · exact h.pull
    · exact h

theorem finish (h : Within as p.meter) (result : Option Expr) :
    Within as (Parser.finish (result, p)).2.meter := by
  cases result with
  | none => exact h
  | some e =>
    simp only [Parser.finish]
    split
    · exact h.pull
    · exact h

end Within

theorem Rule.within (h : Rule r r') (hr : Within r.activations r.parser.meter) :
    Within r'.activations r'.parser.meter := by
  cases h with
  | enter hd => exact hr.enter hd _
  | refuse => simpa [activations, Phase.activation?] using hr
  | name | fail | combine => exact hr
  | not | group => exact hr.pull
  | unknownExpression | stop | skipped => exact hr.leave
  | exhausted =>
    have h : Within _ _ := hr.pull.leave
    simpa [Reading.leave, activations, Phase.activation?] using h
  | operator _ hd => exact (hr.pull.descend hd).pull
  | unknownOperator _ hd => exact hr.pull.descend hd
  | skip => exact hr.pull
  | finish => exact hr.finish _
  | negate => exact Within.resume hr
  | close => exact (hr.close _).resume

theorem Run.within (h : Run r r') (hr : Within r.activations r.parser.meter) :
    Within r'.activations r'.parser.meter := by
  induction h with
  | refl => exact hr
  | tail _ hstep ih => exact hstep.within ih

theorem within_start (source : String) :
    Within (start (.ofString source)).activations (Parser.ofString source).meter :=
  ⟨⟨rfl, rfl⟩, Nat.zero_le _, Nat.zero_le _, Nat.zero_le _⟩

end Reading

namespace Parser

theorem length_upcoming_ofString (source : String) :
    (ofString source).cursor.upcoming.length = (words source).length := by
  obtain ⟨t, -, hwords, -⟩ := tokenize_eq_words_append source
  have hlength := congrArg List.length (tokens_ofString source)
  rw [hwords] at hlength
  simpa [tokens] using hlength

/-- A token that has been taken is not to come any more. -/
theorem Reads.pulls_add_length {source : String} {q : Parser} (h : (ofString source).Reads q) :
    q.meter.pulls + q.cursor.upcoming.length = (words source).length + 2 := by
  obtain ⟨n, hlength, hpulls⟩ := h.exists_length_eq
  have hstart : (ofString source).meter.pulls = 2 := rfl
  rw [length_upcoming_ofString] at hlength
  omega

end Parser

/-- The reading of a text after `k` steps. -/
def Reading.after (source : String) (k : Nat) : Reading :=
  step^[k] (start (.ofString source))

/-- Reading a text of `n` tokens is done after `4 * n + 4` steps, and then it is
what the recursion gives. At every step the expressions on the stack and the
levels in use are within the limit, and no more than `n + 2` tokens have been
taken. A reading that succeeds has taken exactly so many. -/
theorem one_pass (source : String) :
    let n := (words source).length
    let result := (Parser.ofString source).parse
    Reading.after source (4 * n + 4) = .ofResult result ∧
    (∀ k, (Reading.after source k).activations.length ≤ 256 ∧
      (Reading.after source k).parser.meter.depth ≤ 256 ∧
      (Reading.after source k).parser.meter.pulls ≤ n + 2) ∧
    result.2.meter.mostActive ≤ 256 ∧ result.2.meter.deepest ≤ 256 ∧
    result.2.meter.pulls ≤ n + 2 ∧ (result.1.isSome → result.2.meter.pulls = n + 2) := by
  intro n result
  have hended := Parser.ended_tokens_ofString source
  have hproper : (Reading.start (.ofString source)).Proper := ⟨hended, nofun⟩
  have hstart := Reading.within_start source
  have hparse : Reading.Run (.start (.ofString source)) (.ofResult result) :=
    Reading.run_start rfl hended
  have hwithin : Reading.Within [] result.2.meter := Reading.Run.within hparse hstart
  have hreads : (Parser.ofString source).Reads result.2 := Reading.Run.reads hparse hproper
  have hpulls := hreads.pulls_add_length
  refine ⟨?_, fun k => ?_, hwithin.mostActive_le, hwithin.deepest_le, Nat.le.intro hpulls,
    fun h => ?_⟩
  · refine Reading.iterate_step_of_run hparse ⟨_, rfl⟩ hproper (Nat.le_of_eq ?_)
    simp [Reading.potential, Reading.start, Phase.weight, Parser.length_upcoming_ofString, n]
  · have hrun := Reading.run_iterate_step (.start (.ofString source)) k
    have hk := Reading.Run.within hrun hstart
    have hpulls := (Reading.Run.reads hrun hproper).pulls_add_length
    exact ⟨Nat.le_trans hk.stacked.length_le hk.depth_le, hk.depth_le, Nat.le.intro hpulls⟩
  · obtain ⟨e, he⟩ := Option.isSome_iff_exists.mp h
    obtain ⟨front, hts, -⟩ := hreads
    rw [Parser.tokens_ofString] at hts
    have hupcoming : result.2.cursor.upcoming = [] :=
      Parser.upcoming_eq_nil hts (Parser.kind_current_parse he)
    rwa [hupcoming] at hpulls

/-- Each of the four tokens is taken, and the end of the input twice. -/
theorem one_pass_of_disjunction :
    (Parser.ofString "NOT x OR y").parse.1.isSome ∧
      (Parser.ofString "NOT x OR y").parse.2.meter.pulls = 6 := by
  have hparse : (Parser.ofString "NOT x OR y").parse.1.isSome := by decide +kernel
  have hwords : (words "NOT x OR y").length = 4 := by decide +kernel
  obtain ⟨-, -, -, -, -, hpulls⟩ := one_pass "NOT x OR y"
  exact ⟨hparse, by rw [hpulls hparse, hwords]⟩

end LogicCalculator
