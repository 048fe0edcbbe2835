import LogicCalculator.Proofs.Calculation
import LogicCalculator.Proofs.MaximalMunch
import LogicCalculator.Proofs.Moves

/-!
# What the log tells

The log of a calculation begins with what reading did: the tokens it took, with
the illegal characters among them, its faults, and the operators it skipped. If
there is a tree, it goes on with what evaluation did. Nothing is left out of it
and nothing comes too early (`events_tell`).
-/

namespace LogicCalculator

namespace Event

@[simp] def scanned? : Event → Option (Token.Kind × Position)
  | scannedToken kind position => some (kind, position)
  | _ => none

@[simp] def syntaxError? : Event → Option SyntaxError
  | syntaxError error => some error
  | _ => none

@[simp] def unbound? : Event → Option UnboundVariable
  | unboundVariable error => some error
  | _ => none

@[simp] def step? : Event → Option Step
  | step s => some s
  | _ => none

@[simp] def isOfReading : Event → Bool
  | illegalCharacter .. | scannedToken .. | skippedOperator .. | syntaxError .. => true
  | unboundVariable .. | step .. => false

/-- What an event of reading requires of the events before it and behind it. An
illegal character is reported directly before its token and nowhere else, a
fault behind the token that it points at, and a skipped operator behind a
fault. -/
def Placed (source : String) (before after : List Event) : Event → Prop
  | illegalCharacter _ position => ∃ rest, after = scannedToken .illegal position :: rest
  | scannedToken kind position => kind = .illegal → ∃ c front behind rest,
      source.toList = front ++ c :: behind ∧ position = .behind front ∧
        before = rest ++ [illegalCharacter c.toString position]
  | syntaxError error => ∃ t ∈ tokenize source, t.position = error.position ∧
      (t.kind = .endOfInput ∨ scannedToken t.kind t.position ∈ before)
  | skippedOperator _ => ∃ error, syntaxError error ∈ before
  | unboundVariable .. | step .. => False

/-- Events behind the others make no difference to what has its place. -/
theorem Placed.append {source : String} {before after : List Event} {x : Event}
    (h : x.Placed source before after) (later : List Event) :
    x.Placed source before (after ++ later) := by
  cases x with
  | illegalCharacter text position =>
    obtain ⟨rest, rfl⟩ := h
    exact ⟨rest ++ later, rfl⟩
  | _ => exact h

/-- All events of a list have their place. -/
def Ordered (source : String) (log : List Event) : Prop :=
  ∀ before x after, log = before ++ x :: after → x.Placed source before after

theorem Ordered.append {source : String} {log later : List Event} (h : Ordered source log)
    (hlater : ∀ before x after, later = before ++ x :: after →
      x.Placed source (log ++ before) after) : Ordered source (log ++ later) := by
  intro before x after heq
  rcases List.append_eq_append_iff.mp heq with ⟨middle, rfl, hx⟩ | ⟨middle, rfl, hx⟩
  · exact hlater _ _ _ hx
  · cases middle with
    | nil =>
      have := hlater [] x after hx.symm
      simpa using this
    | cons y middle =>
      obtain ⟨rfl, rfl⟩ := List.cons.inj hx
      exact (h _ _ _ rfl).append _

theorem Ordered.append_singleton {source : String} {log : List Event} {x : Event}
    (h : Ordered source log) (hx : x.Placed source log []) : Ordered source (log ++ [x]) := by
  refine h.append ?_
  rintro before y after heq
  cases before with
  | nil =>
    obtain ⟨rfl, rfl⟩ := List.cons.inj heq
    rwa [List.append_nil]
  | cons z before => simp at heq

end Event

-- ---------------------------------------------------------------------------
-- Logs of readings
-- ---------------------------------------------------------------------------

/-- The log of a reading that has taken the tokens and found the faults: each
event is logged when it happens. -/
inductive Logged : List Token → List SyntaxError → List Event → Prop
  | nil : Logged [] [] []
  | token {ts : List Token} {errors : List SyntaxError} {log : List Event} (t : Token) :
      Logged ts errors log → Logged (ts ++ [t]) errors (log ++ Event.ofToken t)
  | fault {ts : List Token} {errors : List SyntaxError} {log : List Event} {t : Token}
      {error : SyntaxError} : Logged ts errors log → t ∈ ts → t.position = error.position →
      Logged ts (errors ++ [error]) (log ++ [.syntaxError error])
  | skip {ts : List Token} {errors : List SyntaxError} {log : List Event} (kind : Token.Kind) :
      Logged ts errors log → errors ≠ [] → Logged ts errors (log ++ [.skippedOperator kind])

namespace Logged

variable {ts : List Token} {errors : List SyntaxError} {log : List Event} {source : String}

theorem scanned?_ofToken (t : Token) : (Event.ofToken t).filterMap Event.scanned? =
    ([t].filter (·.kind ≠ .endOfInput)).map fun t => (t.kind, t.position) := by
  unfold Event.ofToken
  split
  · next hk => simp [hk]
  · next hk => simp [hk, List.filterMap_cons, Event.scanned?]
  · next hk _ => simp [show t.kind ≠ .endOfInput from hk, Event.scanned?]

theorem syntaxError?_ofToken (t : Token) : (Event.ofToken t).filterMap Event.syntaxError? = [] := by
  unfold Event.ofToken
  split <;> rfl

/-- The end of the input is taken in silence; all other tokens are in the log. -/
theorem scanned (h : Logged ts errors log) : log.filterMap Event.scanned? =
    (ts.filter (·.kind ≠ .endOfInput)).map fun t => (t.kind, t.position) := by
  induction h with
  | nil => rfl
  | token t _ ih =>
    rw [List.filterMap_append, ih, scanned?_ofToken, List.filter_append, List.map_append]
  | fault _ _ _ ih =>
    rw [List.filterMap_append, ih]
    exact List.append_nil _
  | skip _ _ _ ih =>
    rw [List.filterMap_append, ih]
    exact List.append_nil _

theorem syntaxErrors (h : Logged ts errors log) : log.filterMap Event.syntaxError? = errors := by
  induction h with
  | nil => rfl
  | token t _ ih => rw [List.filterMap_append, ih, syntaxError?_ofToken, List.append_nil]
  | fault _ _ _ ih =>
    rw [List.filterMap_append, ih]
    rfl
  | skip _ _ _ ih =>
    rw [List.filterMap_append, ih]
    exact List.append_nil _

theorem mem_of_mem (h : Logged ts errors log) {t : Token} (ht : t ∈ ts)
    (hk : t.kind ≠ .endOfInput) : .scannedToken t.kind t.position ∈ log := by
  have hmem : (t.kind, t.position) ∈ log.filterMap Event.scanned? := by
    rw [h.scanned]
    exact List.mem_map_of_mem (List.mem_filter.mpr ⟨ht, by simpa using hk⟩)
  obtain ⟨x, hx, hs⟩ := List.mem_filterMap.mp hmem
  cases x with
  | scannedToken kind position =>
    obtain ⟨rfl, rfl⟩ := Prod.mk.inj (Option.some.inj hs)
    exact hx
  | _ => cases hs

theorem exists_syntaxError_mem (h : Logged ts errors log) (hne : errors ≠ []) :
    ∃ error, .syntaxError error ∈ log := by
  obtain ⟨error, rest, rfl⟩ := List.exists_cons_of_ne_nil hne
  have hmem : error ∈ log.filterMap Event.syntaxError? := by
    rw [h.syntaxErrors]
    exact List.mem_cons_self ..
  obtain ⟨x, hx, hs⟩ := List.mem_filterMap.mp hmem
  cases x with
  | syntaxError error =>
    obtain rfl := Option.some.inj hs
    exact ⟨_, hx⟩
  | _ => cases hs

theorem isOfReading (h : Logged ts errors log) : ∀ x ∈ log, x.isOfReading = true := by
  induction h with
  | nil => nofun
  | token t _ ih =>
    refine List.forall_mem_append.mpr ⟨ih, ?_⟩
    unfold Event.ofToken
    split <;> simp [Event.isOfReading]
  | fault _ _ _ ih => exact List.forall_mem_append.mpr ⟨ih, List.forall_mem_singleton.mpr rfl⟩
  | skip _ _ _ ih => exact List.forall_mem_append.mpr ⟨ih, List.forall_mem_singleton.mpr rfl⟩

theorem ordered_ofToken {t : Token} (ht : t ∈ tokenize source) (h : Event.Ordered source log) :
    Event.Ordered source (log ++ Event.ofToken t) := by
  unfold Event.ofToken
  split
  · rwa [List.append_nil]
  · next hk =>
    -- the two events of an illegal token look at each other
    obtain ⟨front, c, behind, hs, rfl⟩ := exists_of_mem_tokenize_illegal ht hk
    refine h.append ?_
    rintro before x after heq
    rcases before with _ | ⟨y, _ | ⟨z, before⟩⟩
    · obtain ⟨rfl, rfl⟩ := List.cons.inj heq
      exact ⟨[], rfl⟩
    · cases heq
      exact fun _ => ⟨c, front, behind, log, hs, rfl, rfl⟩
    · simp at heq
  · next hk => exact h.append_singleton fun h => absurd h hk

theorem ordered (h : Logged ts errors log) (hts : ∀ t ∈ ts, t ∈ tokenize source) :
    Event.Ordered source log := by
  induction h with
  | nil => simp [Event.Ordered]
  | token t _ ih =>
    obtain ⟨hts, ht⟩ := List.forall_mem_append.mp hts
    exact ordered_ofToken (ht t (List.mem_singleton_self t)) (ih hts)
  | @fault _ _ _ t error h ht hp ih =>
    refine (ih hts).append_singleton ⟨t, hts t ht, hp, ?_⟩
    exact or_iff_not_imp_left.mpr (h.mem_of_mem ht)
  | skip kind h hne ih => exact (ih hts).append_singleton (h.exists_syntaxError_mem hne)

end Logged

-- ---------------------------------------------------------------------------
-- Readings
-- ---------------------------------------------------------------------------

theorem filter_tokenize (source : String) :
    (tokenize source).filter (·.kind ≠ .endOfInput) = words source := by
  obtain ⟨t, ht, hwords, hne⟩ := tokenize_eq_words_append source
  rw [hwords, List.filter_append, List.filter_eq_self.mpr (by simpa using hne),
    List.filter_singleton]
  simp [ht]

namespace Parser

/-- The log tells of the tokens up to the one behind the current one, and of the
faults that have been found. -/
def Tells (ts : List Token) (p : Parser) : Prop :=
  ∃ front, ts = front ++ p.tokens ∧
    Logged (front ++ p.tokens.take 2) p.errors.toList p.log.toList

section
variable {ts front : List Token} {p q : Parser} {t : Token} {cause : SyntaxError.Cause}

theorem ofToken_of_ended (ts : List Token) (h : Ended (ts ++ [t])) : Event.ofToken t = [] := by
  have hk : t.kind = .endOfInput := by simpa [Ended] using h
  simp [Event.ofToken, hk]

theorem tells_ofCursor (c : Cursor) (h : Ended (c.current :: c.upcoming)) :
    (ofCursor c).Tells (c.current :: c.upcoming) := by
  obtain ⟨t, ts⟩ := c
  refine ⟨[], rfl, ?_⟩
  have ht : Logged [t] [] (Event.ofToken t) := Logged.nil.token t
  cases ts with
  | nil => simpa [ofCursor, Cursor.lookahead, tokens, ofToken_of_ended [] h] using ht
  | cons u us => simpa [ofCursor, Cursor.lookahead, tokens] using ht.token u

/-- The one token that is taken comes behind the two that a parser looks at. At
the end of the input there is none, and the end is taken again. -/
theorem Tells.advance (hts : Ended ts) (h : p.Tells ts) : p.advance.Tells ts := by
  obtain ⟨front, rfl, hlog⟩ := h
  obtain ⟨⟨t, us⟩, errors, tooDeep, log, meter⟩ := p
  rcases us with _ | ⟨u, _ | ⟨v, us⟩⟩
  · have ht : Event.ofToken t = [] := ofToken_of_ended front hts
    refine ⟨front, rfl, ?_⟩
    simpa [Parser.advance, Cursor.advance, Cursor.lookahead, tokens, ht] using hlog
  · have hu : Event.ofToken u = [] :=
      ofToken_of_ended (front ++ [t]) (by simpa [tokens] using hts)
    refine ⟨front ++ [t], by simp [Parser.advance, Cursor.advance, tokens], ?_⟩
    simpa [Parser.advance, Cursor.advance, Cursor.lookahead, tokens, hu] using hlog
  · refine ⟨front ++ [t], by simp [Parser.advance, Cursor.advance, tokens], ?_⟩
    simpa [Parser.advance, Cursor.advance, Cursor.lookahead, tokens] using hlog.token v

theorem Tells.report (h : p.Tells ts) (ht : t ∈ p.tokens.take 2) : (p.report cause t).Tells ts := by
  obtain ⟨front, hts, hlog⟩ := h
  refine ⟨front, hts, ?_⟩
  simp only [Parser.report, Array.toList_push]
  exact hlog.fault (List.mem_append_right _ ht) rfl

theorem Tells.refuse (h : p.Tells ts) : p.refuse.Tells ts := by
  unfold Parser.refuse
  split
  · exact h
  · exact h.report (current_mem_take_tokens p)

theorem Tells.skip (h : p.Tells ts) (hts : Ended ts) (he : p.errors ≠ #[]) (t : Token) :
    (p.skip t).Tells ts := by
  obtain ⟨front, hts, hlog⟩ := h.advance hts
  refine ⟨front, hts, ?_⟩
  simp only [Parser.skip, Array.toList_push]
  exact hlog.skip t.kind (by simpa using he)

theorem Tells.move (hts : Ended ts) (h : p.Tells ts) (hm : Move p q) : q.Tells ts := by
  cases hm with
  | advance => exact h.advance hts
  | descend | enter | leave => exact h
  | refuse => exact h.refuse
  | unknownExpression => exact h.report (current_mem_take_tokens p)
  | unknownOperator _ hc => exact h.report (hc ▸ current_mem_take_tokens p)
  | unclosed | trailing => exact h.report (lookahead_mem_take_tokens p)
  | skip he => exact h.skip hts he _

theorem Tells.moves (hts : Ended ts) (h : p.Tells ts) (hm : Moves p q) : q.Tells ts := by
  induction hm with
  | refl => exact h
  | tail _ hmove ih => exact ih.move hts hmove

end

/-- The log of a whole reading. -/
theorem tells_parse (source : String) : (ofString source).parse.2.Tells (tokenize source) := by
  have hended := ended_tokens_ofString source
  have hstart : (ofString source).Tells (ofString source).tokens := tells_ofCursor _ hended
  have hparse := hstart.moves hended (parse_goes (fresh_ofString source)).moves
  rwa [tokens_ofString] at hparse

/-- A reading that gives a tree has taken all tokens. -/
theorem logged_tokenize {source : String} {e : Expr} (h : (ofString source).parse.1 = some e) :
    Logged (tokenize source) (ofString source).parse.2.errors.toList
      (ofString source).parse.2.log.toList := by
  obtain ⟨front, hts, hlog⟩ := tells_parse source
  have hupcoming := upcoming_eq_nil hts (kind_current_parse h)
  generalize (ofString source).parse.2 = q at hts hlog hupcoming ⊢
  have htake : q.tokens.take 2 = q.tokens := by simp [tokens, hupcoming]
  rwa [hts, ← htake]

/-- What is logged of the tokens is the beginning of what there is to log. -/
theorem scanned_isPrefix (source : String) :
    (ofString source).parse.2.log.toList.filterMap Event.scanned? <+:
      (words source).map fun t => (t.kind, t.position) := by
  obtain ⟨front, hts, hlog⟩ := tells_parse source
  obtain ⟨t, ht, hwords, hne⟩ := tokenize_eq_words_append source
  have hfirst : front ++ (ofString source).parse.2.tokens.take 2 <+: tokenize source := by
    rw [hts]
    exact List.prefix_append_right_inj front |>.mpr (List.take_prefix ..)
  rw [hlog.scanned, ← filter_tokenize]
  exact (hfirst.filter _).map _

end Parser

-- ---------------------------------------------------------------------------
-- Evaluations
-- ---------------------------------------------------------------------------

namespace Evaluation

/-- The log tells of the steps and of the unbound variables, and of nothing else. -/
structure Tells (v : Evaluation) : Prop where
  steps : v.log.toList.filterMap Event.step? = v.steps.toList
  errors : v.log.toList.filterMap Event.unbound? = v.errors.toList
  isOfReading : ∀ x ∈ v.log.toList, x.isOfReading = false

theorem tells_empty : empty.Tells := ⟨rfl, rfl, nofun⟩

variable {v : Evaluation}

theorem Tells.report (h : v.Tells) (error : UnboundVariable) : (v.report error).Tells where
  steps := by simpa [Evaluation.report, List.filterMap_cons] using h.steps
  errors := by simpa [Evaluation.report] using h.errors
  isOfReading := by simpa [Evaluation.report, or_imp, forall_and] using h.isOfReading

theorem Tells.record (h : v.Tells) (operator : String) (left : Option Bit) (right result : Bit) :
    (v.record operator left right result).Tells where
  steps := by simpa [Evaluation.record] using h.steps
  errors := by simpa [Evaluation.record, List.filterMap_cons] using h.errors
  isOfReading := by simpa [Evaluation.record, or_imp, forall_and] using h.isOfReading

end Evaluation

namespace Expr

theorem tells_evaluate (b : Bindings) (e : Expr) {v : Evaluation} (h : v.Tells) :
    (e.evaluate b v).2.Tells := by
  induction e generalizing v with
  | var name =>
    simp only [evaluate]
    cases b.get? name with
    | some x => exact h
    | none => exact h.report _
  | not operand ih =>
    have hoperand := ih h
    rw [evaluate_not]
    generalize operand.evaluate b v = r at hoperand
    obtain ⟨_ | x, w⟩ := r
    · exact hoperand
    · exact hoperand.record ..
  | binary op left right ihl ihr =>
    have hright := ihr (ihl h)
    rw [evaluate_binary]
    generalize right.evaluate b (left.evaluate b v).2 = r at hright
    generalize (left.evaluate b v).1 = x
    obtain ⟨y, w⟩ := r
    rcases x with _ | x
    · exact hright
    · rcases y with _ | y
      · exact hright
      · exact hright.record ..

end Expr

-- ---------------------------------------------------------------------------
-- Calculations
-- ---------------------------------------------------------------------------

/-- The events of a calculation are those of reading and behind them those of
evaluation, of which there are none without a tree. Reading has logged the
first tokens of the text, with a tree all of them, and its faults, each event
in its place. Evaluation has logged the unbound variables and the steps. -/
theorem events_tell (source : String) (b : Bindings) :
    let r := (Parser.ofString source).parse
    let scanned := (words source).map fun t => (t.kind, t.position)
    ∃ reading evaluation : List Event,
      events source b = reading ++ evaluation ∧
      (∀ x ∈ reading, x.isOfReading = true) ∧ (∀ x ∈ evaluation, x.isOfReading = false) ∧
      reading.filterMap Event.scanned? <+: scanned ∧
      (r.1 ≠ none → reading.filterMap Event.scanned? = scanned) ∧
      reading.filterMap Event.syntaxError? = r.2.errors.toList ∧
      Event.Ordered source reading ∧
      (r.1 = none → evaluation = []) ∧
      ∀ e, r.1 = some e →
        evaluation.filterMap Event.unbound? = (e.evaluate b .empty).2.errors.toList ∧
        evaluation.filterMap Event.step? = (e.evaluate b .empty).2.steps.toList := by
  intro r scanned
  obtain ⟨front, hts, hlog⟩ := Parser.tells_parse source
  have hmem : ∀ t ∈ front ++ r.2.tokens.take 2, t ∈ tokenize source := by
    intro t ht
    rw [hts]
    exact (List.append_sublist_append_left front |>.mpr (List.take_sublist ..)).mem ht
  have hordered := hlog.ordered hmem
  have hfirst := Parser.scanned_isPrefix source
  rcases hr : (Parser.ofString source).parse with ⟨_ | e, q⟩
  · refine ⟨q.log.toList, [], by simp [events, hr], ?_⟩
    simp only [r, hr] at hlog hordered hfirst ⊢
    exact ⟨hlog.isOfReading, nofun, hfirst, by simp, hlog.syntaxErrors, hordered, fun _ => trivial,
      nofun⟩
  · have htree : (Parser.ofString source).parse.1 = some e := by rw [hr]
    have hall := Parser.logged_tokenize htree
    have hv := e.tells_evaluate b Evaluation.tells_empty
    refine ⟨q.log.toList, (e.evaluate b .empty).2.log.toList, by simp [events, hr], ?_⟩
    simp only [r, hr] at hlog hordered hfirst hall ⊢
    refine ⟨hlog.isOfReading, hv.isOfReading, hfirst, fun _ => ?_, hlog.syntaxErrors, hordered,
      nofun, ?_⟩
    · rw [hall.scanned, filter_tokenize]
    · rintro _ ⟨⟩
      exact ⟨hv.errors, hv.steps⟩

theorem events_tell_of_each_end :
    let b := Bindings.ofList [("x", .one)]
    ((Parser.ofString "(x $ y").parse.1 = none ∧ Event.Ordered "(x $ y" (events "(x $ y" b)) ∧
    ∃ reading evaluation, events "NOT x OR y" b = reading ++ evaluation ∧
      reading.filterMap Event.scanned? =
        [(.not, ⟨1, 1⟩), (.identifier, ⟨1, 5⟩), (.or, ⟨1, 7⟩), (.identifier, ⟨1, 10⟩)] ∧
      evaluation.filterMap Event.unbound? = [⟨"y"⟩] ∧
      evaluation.filterMap Event.step? = [⟨"NOT", none, .one, .zero, 0⟩] := by
  intro b
  refine ⟨⟨by decide +kernel, ?_⟩, ?_⟩
  · obtain ⟨reading, evaluation, hevents, -, -, -, -, -, hordered, hnone, -⟩ :=
      events_tell "(x $ y" b
    rwa [hevents, hnone (by decide +kernel), List.append_nil]
  · obtain ⟨reading, evaluation, hevents, -, -, -, hall, -, -, -, hsome⟩ :=
      events_tell "NOT x OR y" b
    have hparse : (Parser.ofString "NOT x OR y").parse.1 =
        some (.binary .or (.not (.var "x")) (.var "y")) := by
      decide +kernel
    obtain ⟨herrors, hsteps⟩ := hsome _ hparse
    refine ⟨reading, evaluation, hevents, (hall (by simp [hparse])).trans (by decide +kernel),
      ?_, ?_⟩
    · exact herrors.trans (by decide)
    · exact hsteps.trans (by decide)

end LogicCalculator
