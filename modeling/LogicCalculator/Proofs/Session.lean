import LogicCalculator.Proofs.Diagnosis
import LogicCalculator.Proofs.Machine.Simulation
import LogicCalculator.Proofs.MaximalMunch
import LogicCalculator.Proofs.Moves
import LogicCalculator.Proofs.Parallel

/-!
# Readings in a row

A parser can be asked to read again. It goes on at the token where it has
stopped, keeps the faults that it has found, and remembers in a flag whether the
levels have once run out. Only the flag tells it from a parser that begins there
(`parse_eq_ofCursor`). Between two readings all levels are free, and behind a tree
there is only the end of the input (`session_calls`).
-/

namespace LogicCalculator

theorem SyntaxError.Parallel.eq {e f : SyntaxError} (h : Parallel Eq e f) : e = f := by
  obtain ⟨cause, position⟩ := e
  obtain ⟨rfl, t, _, rfl, he, hf⟩ := h
  cases he.trans hf.symm
  rfl

namespace Parser

/-- The parser after `n` readings in a row. -/
def after (p : Parser) : Nat → Parser
  | 0 => p
  | n + 1 => (p.after n).parse.2

/-- The faults found so far that the levels have run out. -/
def tooDeepCount (p : Parser) : Nat := p.errors.toList.countP (·.cause.IsTooDeep)

theorem after_parse (p : Parser) (n : Nat) : p.parse.2.after n = p.after (n + 1) := by
  induction n with
  | zero => rfl
  | succ n ih =>
    rw [after, ih]
    rfl

theorem session_eq_map (n : Nat) (p : Parser) :
    p.session n = (List.range n).map fun k => (p.after k).parse := by
  induction n generalizing p with
  | zero => rfl
  | succ n ih =>
    rw [session, ih, List.range_succ_eq_map, List.map_cons, List.map_map]
    simp only [after_parse]
    rfl

-- ---------------------------------------------------------------------------
-- What is kept of the faults
-- ---------------------------------------------------------------------------

/-- `q` has kept the faults of `p`, and the flag was raised if and only if a new
one is that the levels have run out. -/
structure Keeps (p q : Parser) : Prop where
  errors : p.errors.toList <+: q.errors.toList
  count : q.tooDeepCount + p.tooDeep.toNat = p.tooDeepCount + q.tooDeep.toNat

section
variable {p q r : Parser} {t : Token} {cause : SyntaxError.Cause}

namespace Keeps

theorem of_eq (he : q.errors = p.errors) (hd : q.tooDeep = p.tooDeep) : p.Keeps q :=
  ⟨he ▸ List.prefix_rfl, by rw [tooDeepCount, he, hd, tooDeepCount]⟩

theorem trans (hpq : p.Keeps q) (hqr : q.Keeps r) : p.Keeps r := by
  have hcount := hpq.count
  have hcount' := hqr.count
  exact ⟨hpq.errors.trans hqr.errors, by omega⟩

end Keeps

theorem tooDeepCount_report (p : Parser) (cause : SyntaxError.Cause) (t : Token) :
    (p.report cause t).tooDeepCount =
      p.tooDeepCount + if cause.IsTooDeep then 1 else 0 := by
  simp [tooDeepCount, report, List.countP_singleton]

theorem errors_prefix_report (p : Parser) (cause : SyntaxError.Cause) (t : Token) :
    p.errors.toList <+: (p.report cause t).errors.toList := by
  simp [report]

theorem keeps_report (h : ¬ cause.IsTooDeep) : p.Keeps (p.report cause t) where
  errors := errors_prefix_report p cause t
  count := by
    rw [tooDeepCount_report, if_neg h]
    rfl

/-- The one fault of this kind is recorded when the flag is raised. -/
theorem keeps_refuse (p : Parser) : p.Keeps p.refuse := by
  unfold refuse
  split
  · exact .of_eq rfl rfl
  · next hd =>
    have hcount := tooDeepCount_report p (.nestingTooDeep nestingLimit) p.current
    rw [if_pos ⟨_, rfl⟩] at hcount
    refine ⟨errors_prefix_report p _ p.current, ?_⟩
    rw [Bool.eq_false_iff.mpr hd]
    exact hcount

theorem keeps_close (inner : Option Expr) (p : Parser) : p.Keeps (close (inner, p)).2 := by
  simp only [close]
  split
  · exact .of_eq rfl rfl
  · split
    · exact .of_eq rfl rfl
    · exact keeps_report (SyntaxError.Cause.not_isTooDeep rfl)

theorem keeps_finish (result : Option Expr) (p : Parser) : p.Keeps (finish (result, p)).2 := by
  cases result with
  | none => exact .of_eq rfl rfl
  | some e =>
    simp only [finish]
    split
    · exact .of_eq rfl rfl
    · exact keeps_report (SyntaxError.Cause.not_isTooDeep rfl)

end

end Parser

namespace Reading

variable {r r' : Reading}

theorem keeps_resume (a : Activation) (waiting : Stack) (result : Option Expr × Parser) :
    result.2.Keeps (resume a waiting result).parser := by
  obtain ⟨_ | left, p⟩ := result <;> exact .of_eq rfl rfl

theorem Rule.keeps (h : Rule r r') : r.parser.Keeps r'.parser := by
  cases h with
  | enter | name | not | group | stop | operator | skip | skipped | combine | fail =>
    exact .of_eq rfl rfl
  | refuse => exact Parser.keeps_refuse _
  | @unknownExpression a waiting p =>
    have hreport : p.Keeps (p.report (.unknownExpression p.current.kind) p.current) :=
      Parser.keeps_report (SyntaxError.Cause.not_isTooDeep rfl)
    exact hreport.trans (.of_eq rfl rfl)
  | @exhausted a left waiting p =>
    have hadvance : p.Keeps p.advance := .of_eq rfl rfl
    exact (hadvance.trans (Parser.keeps_refuse _)).trans (.of_eq rfl rfl)
  | @unknownOperator a left waiting p =>
    have hadvance : p.Keeps p.advance.descend := .of_eq rfl rfl
    exact hadvance.trans (Parser.keeps_report (SyntaxError.Cause.not_isTooDeep rfl))
  | finish => exact Parser.keeps_finish _ _
  | @negate result a waiting p => exact keeps_resume a waiting (result.map .not, p)
  | close => exact (Parser.keeps_close _ _).trans (keeps_resume ..)

theorem Run.keeps (h : Run r r') : r.parser.Keeps r'.parser := by
  induction h with
  | refl => exact .of_eq rfl rfl
  | tail _ hstep ih => exact ih.trans hstep.keeps

end Reading

namespace Parser

section
variable {source : String} {p : Parser} {e : Expr}

-- ---------------------------------------------------------------------------
-- Between two readings
-- ---------------------------------------------------------------------------

theorem depth_finish (result : Option Expr × Parser) :
    (finish result).2.meter.depth = result.2.meter.depth := by
  obtain ⟨_ | e, p⟩ := result
  · rfl
  · simp only [finish]
    split <;> rfl

theorem depth_parse (p : Parser) : p.parse.2.meter.depth = p.meter.depth := by
  rw [parse_eq_finish, depth_finish, Reading.depth_expression]

/-- The parser is between two readings of the text. Its levels are all free, it
has taken the tokens in front of the current one, and the flag tells whether the
levels have run out. -/
structure Resting (source : String) (p : Parser) : Prop where
  depth : p.meter.depth = 0
  reads : (ofString source).Reads p
  count : p.tooDeepCount = p.tooDeep.toNat

theorem resting_ofString (source : String) : (ofString source).Resting source :=
  ⟨rfl, .of_eq rfl rfl, rfl⟩

namespace Resting

theorem ended (h : p.Resting source) : Ended p.tokens :=
  h.reads.ended (ended_tokens_ofString source)

/-- The steps of a reading, which go by the levels in use, lead to what the
recursion gives. -/
theorem run_parse (h : p.Resting source) : Reading.Run (.start p) (.ofResult p.parse) :=
  Reading.run_start h.depth h.ended

theorem keeps_parse (h : p.Resting source) : p.Keeps p.parse.2 := h.run_parse.keeps

theorem parse (h : p.Resting source) : p.parse.2.Resting source where
  depth := (depth_parse p).trans h.depth
  reads := h.reads.trans (h.run_parse.reads ⟨h.ended, nofun⟩)
  count := by
    have hcount := h.keeps_parse.count
    rw [h.count] at hcount
    omega

/-- Behind a tree there is only the end of the input. -/
theorem cursor_parse (h : p.Resting source) (he : p.parse.1 = some e) :
    p.parse.2.cursor = ⟨.ending source.toList, []⟩ := by
  obtain ⟨front, hts, -⟩ := h.parse.reads
  rw [tokens_ofString] at hts
  have hupcoming := upcoming_eq_nil hts (kind_current_parse he)
  rw [tokens, hupcoming, tokenize_eq_byPlace, Token.byPlace] at hts
  obtain ⟨-, hlast⟩ := List.append_singleton_inj.mp hts
  rw [hlast, ← hupcoming]

end Resting

theorem resting_after (source : String) (n : Nat) : ((ofString source).after n).Resting source := by
  induction n with
  | zero => exact resting_ofString source
  | succ n ih => exact ih.parse

-- ---------------------------------------------------------------------------
-- One more reading
-- ---------------------------------------------------------------------------

/-- Without the flag, what was found before makes no difference to a reading. -/
theorem parse_eq_ofCursor (hd : p.tooDeep = false) :
    p.parse.1 = (ofCursor p.cursor).parse.1 ∧
      p.parse.2.errors = p.errors ++ (ofCursor p.cursor).parse.2.errors := by
  have hmatches : ∀ t u : Token, t = u → t.Matches u := by
    rintro t _ rfl
    exact ⟨rfl, rfl⟩
  have hp : Parallel Eq p.errors.toList p (ofCursor p.cursor) :=
    ⟨List.forall₂_refl _, ⟨[], (List.append_nil _).symm, .nil⟩, hd.symm⟩
  have hagree : Agree Eq p.errors.toList p.parse (ofCursor p.cursor).parse :=
    parse_agree hmatches hp
  obtain ⟨faults, herrors, hfaults⟩ := hagree.parser.errors
  obtain rfl : faults = (ofCursor p.cursor).parse.2.errors.toList :=
    List.forall₂_eq_eq_eq ▸ hfaults.imp fun _ _ h => h.eq
  exact ⟨hagree.tree.symm, Array.toList_inj.mp (herrors.trans Array.toList_append.symm)⟩

/-- Without the flag, a reading gives a tree or finds a fault. -/
theorem errors_parse_ne (hp : Ended p.tokens) (hd : p.tooDeep = false) (hr : p.parse.1 = none) :
    p.parse.2.errors ≠ p.errors := by
  rcases parse_verdict hp hd with ⟨e, q, hq, -⟩ | ⟨q, hq, d, he, -⟩
  · rw [hq] at hr
    cases hr
  · intro h
    rw [hq] at h
    rw [h] at he
    simp [Diagnosis.faults] at he

/-- At the end of the input nothing can be read, and nothing is taken. -/
theorem expression_of_endOfInput (levels : Nat) (floor : Priority)
    (h : p.current.kind = .endOfInput) : expression (levels + 1) floor p =
      (none, (p.enter.report (.unknownExpression .endOfInput) p.current).leave p.meter) := by
  have hk : p.enter.current.kind = .endOfInput := h
  have hname : p.enter.current.name? = none := name?_eq_none (by simp [hk])
  rw [expression_succ, operand_of_other hname (by simp [hk]) (by simp [hk]), hk]
  rfl

theorem parse_of_endOfInput (h : p.current.kind = .endOfInput) : p.parse =
    (none, (p.enter.report (.unknownExpression .endOfInput) p.current).leave p.meter) := by
  rw [parse_eq_finish, nestingLimit, expression_of_endOfInput _ _ h]
  rfl

/-- All readings behind one with a tree begin at the end of the input. -/
theorem cursor_after {k n : Nat} (he : ((ofString source).after k).parse.1 = some e) (hn : k < n) :
    ((ofString source).after n).cursor = ⟨.ending source.toList, []⟩ := by
  induction hn with
  | refl => exact (resting_after source k).cursor_parse he
  | @step n _ ih =>
    have hk : ((ofString source).after n).current.kind = .endOfInput := by
      rw [current, ih]
      rfl
    rw [after, parse_of_endOfInput hk]
    exact ih

end

end Parser

/-- Any reading of a row that begins with a text. All levels are free before it
and behind it, so the steps, which go by the levels in use, lead to its result. It
only adds faults, and at most one of all those found is that the levels have run
out. Without a tree it finds a fault, unless the flag was up; and while the flag
was down, it does what a new parser does at the same tokens. Behind a reading with
a tree each one finds a single fault, at the end of the input. -/
theorem session_calls (source : String) (k : Nat) :
    let p := (Parser.ofString source).after k
    let r := p.parse
    (∀ n, k < n → ((Parser.ofString source).session n)[k]? = some r) ∧
    Reading.Run (.start p) (.ofResult r) ∧
    p.meter.depth = 0 ∧ r.2.meter.depth = 0 ∧
    p.errors.toList <+: r.2.errors.toList ∧
    r.2.errors.toList.countP (·.cause.IsTooDeep) ≤ 1 ∧
    (r.1 = none → r.2.errors = p.errors → p.tooDeep = true) ∧
    (p.tooDeep = false → r.1 = (Parser.ofCursor p.cursor).parse.1 ∧
      r.2.errors = p.errors ++ (Parser.ofCursor p.cursor).parse.2.errors) ∧
    (r.1.isSome → ∀ n, k < n →
      let q := (Parser.ofString source).after n
      q.parse.1 = none ∧ q.parse.2.errors =
        q.errors.push ⟨.unknownExpression .endOfInput, .behind source.toList⟩) := by
  intro p r
  have hp : p.Resting source := Parser.resting_after source k
  refine ⟨fun n hn => ?_, hp.run_parse, hp.depth, hp.parse.depth, hp.keeps_parse.errors, ?_,
    fun hr he => ?_, Parser.parse_eq_ofCursor, fun hr n hn => ?_⟩
  · rw [Parser.session_eq_map, List.getElem?_map, List.getElem?_range hn]
    rfl
  · exact Nat.le_trans (Nat.le_of_eq hp.parse.count) (Bool.toNat_le _)
  · by_contra hd
    exact Parser.errors_parse_ne hp.ended (Bool.eq_false_iff.mpr hd) hr he
  · obtain ⟨e, he⟩ := Option.isSome_iff_exists.mp hr
    have hcursor := Parser.cursor_after he hn
    have hcurrent : ((Parser.ofString source).after n).current = .ending source.toList := by
      rw [Parser.current, hcursor]
    intro q
    have hq : q.current.kind = .endOfInput := congrArg Token.kind hcurrent
    rw [Parser.parse_of_endOfInput hq, hcurrent]
    exact ⟨rfl, rfl⟩

/-- The levels run out twice, and the second time in silence. The third reading
gives a tree, and the last one finds nothing more to read. -/
theorem session_calls_of_nots :
    let source := String.ofList ((List.replicate 512 "NOT ".toList).flatten ++ ['X'])
    let p := (Parser.ofString source).after
    let deep : SyntaxError := ⟨.nestingTooDeep nestingLimit, ⟨1, 1025⟩⟩
    (p 0).tooDeep = false ∧ (p 0).parse.2.errors = #[deep] ∧
      (p 0).parse.2.errors = (p 0).errors ++ (Parser.ofCursor (p 0).cursor).parse.2.errors ∧
      (p 1).parse.1 = none ∧ (p 1).parse.2.errors = (p 1).errors ∧ (p 1).tooDeep = true ∧
      (p 2).parse.1 = some (.var "X") ∧ (p 3).parse.1 = none ∧
      (p 3).parse.2.errors = #[deep, ⟨.unknownExpression .endOfInput, .behind source.toList⟩] := by
  intro source p deep
  have hstart : Parser.ofString source =
      .ofCursor
        (Scanner.mk ((List.replicate 512 "NOT ".toList).flatten ++ ['X']) .start).cursor := by
    rw [Parser.ofString, Scanner.ofString, String.toList_ofList]
  -- from here on the text is known by its tokens only
  clear_value source
  simp only [p]
  have hcalls := session_calls source
  generalize Parser.ofString source = q at hstart hcalls ⊢
  obtain ⟨hfirst, hsecond, hthird, hlast⟩ : (q.after 0).parse.2.errors = #[deep] ∧
      ((q.after 1).parse.1 = none ∧ (q.after 1).parse.2.errors = (q.after 1).errors) ∧
      (q.after 2).parse.1 = some (.var "X") ∧ (q.after 3).errors = #[deep] := by
    rw [hstart]
    decide +kernel
  have hbefore : (q.after 0).tooDeep = false := by
    rw [hstart]
    rfl
  obtain ⟨-, -, -, -, -, -, -, hfresh, -⟩ := hcalls 0
  obtain ⟨-, -, -, -, -, -, hsilent, -, -⟩ := hcalls 1
  obtain ⟨-, -, -, -, -, -, -, -, hlater⟩ := hcalls 2
  obtain ⟨hnone, herrors⟩ := hlater (Option.isSome_of_eq_some hthird) 3 (Nat.lt_succ_self 2)
  refine ⟨hbefore, hfirst, (hfresh hbefore).2, hsecond.1, hsecond.2,
    hsilent hsecond.1 hsecond.2, hthird, hnone, ?_⟩
  rw [herrors, hlast]
  rfl

end LogicCalculator
