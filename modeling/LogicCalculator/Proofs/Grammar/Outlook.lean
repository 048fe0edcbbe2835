import LogicCalculator.Proofs.Grammar.Sentence

/-!
# Sentences, token by token

What may come next in a sentence depends only on whether an operand is due and
on how many groups are open. That is its outlook: each token either moves it on
or shows that no sentence begins so (`sentence_iff_run`).
-/

namespace LogicCalculator

/-- What may come next: an operand or an operator, within a number of open
groups, or nothing behind the end of the input. -/
inductive Outlook where
  | operand (groups : Nat)
  | operator (groups : Nat)
  | ended
deriving DecidableEq, Repr

namespace Outlook

@[simp] def groups : Outlook → Nat
  | operand n => n
  | operator n => n
  | ended => 0

/-- The outlook behind a token, if it may come next. -/
def next : Outlook → Token → Option Outlook
  | operand n, t =>
    match t.kind with
    | .identifier => if t.name?.isSome then some (operator n) else none
    | .not => some (operand n)
    | .leftParen => some (operand (n + 1))
    | _ => none
  | operator n, t =>
    match t.kind, n with
    | .and, n | .or, n | .xor, n => some (operand n)
    | .rightParen, n + 1 => some (operator n)
    | .endOfInput, 0 => some ended
    | _, _ => none
  | ended, _ => none

/-- The outlook behind a list of tokens, if each of them may come next. -/
def run (o : Outlook) (w : List Token) : Option Outlook := w.foldlM next o

variable {o o' : Outlook} {t : Token} {n : Nat} {v w : List Token}

@[simp] theorem run_nil (o : Outlook) : o.run [] = some o := rfl

@[simp] theorem run_cons (o : Outlook) (t : Token) (w : List Token) :
    o.run (t :: w) = (o.next t).bind (·.run w) := List.foldlM_cons

@[simp] theorem run_append (o : Outlook) (v w : List Token) :
    o.run (v ++ w) = (o.run v).bind (·.run w) := List.foldlM_append

theorem next_of_name {name : String} (h : t.name? = some name) :
    (operand n).next t = some (operator n) := by
  have hk := Token.kind_of_name? h
  obtain ⟨kind, text, position⟩ := t
  obtain rfl : kind = .identifier := hk
  exact if_pos (Option.isSome_of_eq_some h)

theorem next_not (h : t.kind = .not) : (operand n).next t = some (operand n) := by
  obtain ⟨kind, text, position⟩ := t
  obtain rfl : kind = .not := h
  rfl

theorem next_leftParen (h : t.kind = .leftParen) :
    (operand n).next t = some (operand (n + 1)) := by
  obtain ⟨kind, text, position⟩ := t
  obtain rfl : kind = .leftParen := h
  rfl

theorem next_rightParen (h : t.kind = .rightParen) :
    (operator (n + 1)).next t = some (operator n) := by
  obtain ⟨kind, text, position⟩ := t
  obtain rfl : kind = .rightParen := h
  rfl

theorem next_endOfInput (h : t.kind = .endOfInput) : (operator 0).next t = some ended := by
  obtain ⟨kind, text, position⟩ := t
  obtain rfl : kind = .endOfInput := h
  rfl

theorem next_of_ofKind? {op : BinaryOperator} (h : BinaryOperator.ofKind? t.kind = some op) :
    (operator n).next t = some (operand n) := by
  obtain ⟨kind, text, position⟩ := t
  cases kind with
  | and | or | xor => rfl
  | _ => cases h

/-- The tokens that may come where an operand is due. -/
theorem next_operand_cases (h : (operand n).next t = some o) :
    (∃ name, t.name? = some name ∧ o = operator n) ∨ (t.kind = .not ∧ o = operand n) ∨
      (t.kind = .leftParen ∧ o = operand (n + 1)) := by
  simp only [next] at h
  split at h
  · split at h
    · rename_i hname
      obtain ⟨name, hname⟩ := Option.isSome_iff_exists.mp hname
      exact .inl ⟨name, hname, (Option.some.inj h).symm⟩
    · cases h
  · exact .inr (.inl ⟨‹_›, (Option.some.inj h).symm⟩)
  · exact .inr (.inr ⟨‹_›, (Option.some.inj h).symm⟩)
  · cases h

/-- The tokens that may come where an operator is due. -/
theorem next_operator_cases (h : (operator n).next t = some o) :
    (∃ op, BinaryOperator.ofKind? t.kind = some op ∧ o = operand n) ∨
      (∃ m, n = m + 1 ∧ t.kind = .rightParen ∧ o = operator m) ∨
      (n = 0 ∧ t.kind = .endOfInput ∧ o = ended) := by
  simp only [next] at h
  split at h <;> try cases h
  · exact .inl ⟨.and, by simp [*, BinaryOperator.ofKind?], rfl⟩
  · exact .inl ⟨.or, by simp [*, BinaryOperator.ofKind?], rfl⟩
  · exact .inl ⟨.xor, by simp [*, BinaryOperator.ofKind?], rfl⟩
  · exact .inr (.inl ⟨_, rfl, ‹_›, rfl⟩)
  · exact .inr (.inr ⟨rfl, ‹_›, rfl⟩)

theorem eq_ended_of_next (h : o.next t = some o') (hk : t.kind = .endOfInput) : o' = ended := by
  cases o with
  | operand n =>
    rcases next_operand_cases h with ⟨name, hname, -⟩ | ⟨hk', -⟩ | ⟨hk', -⟩
    · cases hk.symm.trans (Token.kind_of_name? hname)
    · cases hk.symm.trans hk'
    · cases hk.symm.trans hk'
  | operator n =>
    rcases next_operator_cases h with ⟨op, hop, -⟩ | ⟨m, -, hk', -⟩ | ⟨-, -, rfl⟩
    · rw [hk] at hop
      cases hop
    · cases hk.symm.trans hk'
    · rfl
  | ended => cases h

-- ---------------------------------------------------------------------------
-- Runs
-- ---------------------------------------------------------------------------

theorem run_ended (h : ended.run w = some o) : w = [] ∧ o = ended := by
  cases w with
  | nil => exact ⟨rfl, (Option.some.inj h).symm⟩
  | cons t w => cases h

theorem operator_ne_ended (n : Nat) : operator n ≠ ended := by
  intro h
  cases h

/-- The end of the input is the last token that may come. -/
theorem not_endOfInput_of_run (h : o.run w = some o') (ho : o' ≠ ended) :
    ∀ t ∈ w, t.kind ≠ .endOfInput := by
  induction w generalizing o with
  | nil => simp
  | cons t w ih =>
    rw [run_cons, Option.bind_eq_some_iff] at h
    obtain ⟨o₁, hn, hw⟩ := h
    refine List.forall_mem_cons.mpr ⟨fun hk => ?_, ih hw⟩
    obtain rfl := eq_ended_of_next hn hk
    exact ho (run_ended hw).2

theorem groups_next (h : o.next t = some o') :
    o'.groups + [t].countP (·.kind = .rightParen) =
      o.groups + [t].countP (·.kind = .leftParen) := by
  cases o with
  | operand n =>
    rcases next_operand_cases h with ⟨name, hname, rfl⟩ | ⟨hk, rfl⟩ | ⟨hk, rfl⟩
    · simp [groups, Token.kind_of_name? hname]
    · simp [groups, hk]
    · simp [groups, hk]
  | operator n =>
    rcases next_operator_cases h with ⟨op, hop, rfl⟩ | ⟨m, rfl, hk, rfl⟩ | ⟨rfl, hk, rfl⟩
    · cases hk : t.kind <;> simp [BinaryOperator.ofKind?, hk] at hop <;> simp [groups, hk]
    · simp [groups, hk]
    · simp [groups, hk]
  | ended => cases h

/-- The open groups are those that have begun less those that have ended. -/
theorem groups_run (h : o.run w = some o') :
    o'.groups + w.countP (·.kind = .rightParen) =
      o.groups + w.countP (·.kind = .leftParen) := by
  induction w generalizing o with
  | nil =>
    obtain rfl := Option.some.inj h
    rfl
  | cons t w ih =>
    rw [run_cons, Option.bind_eq_some_iff] at h
    obtain ⟨o₁, hn, hw⟩ := h
    have ht := groups_next hn
    have hw := ih hw
    rw [← List.singleton_append, List.countP_append, List.countP_append]
    omega

end Outlook

-- ---------------------------------------------------------------------------
-- Sentences are the runs that end within no group
-- ---------------------------------------------------------------------------

/-- The outlook in front of a part. -/
def Part.outlook : Part → Nat → Outlook
  | expression | term => .operand
  | tail => .operator

theorem Sentence.run {part : Part} {w : List Token} (h : Sentence part w) (n : Nat) :
    (part.outlook n).run w = some (.operator n) := by
  induction h generalizing n with
  | ident h => simp [Part.outlook, Outlook.next_of_name h]
  | not h _ ih =>
    rw [Outlook.run_cons, Part.outlook, Outlook.next_not h]
    exact ih n
  | group h _ h' ih =>
    have hbody : (Outlook.operand (n + 1)).run _ = _ := ih (n + 1)
    simp [Part.outlook, Outlook.next_leftParen h, hbody, Outlook.next_rightParen h']
  | done => rfl
  | operator h _ _ ihv ihw =>
    have hv : (Outlook.operand n).run _ = _ := ihv n
    simpa [Part.outlook, Outlook.next_of_ofKind? h, hv] using ihw n
  | expression _ _ ihv ihw =>
    have hv : (Outlook.operand n).run _ = _ := ihv n
    simpa [Part.outlook, hv] using ihw n

/-- The tokens close so many groups, each with a tail behind it. -/
inductive Closes : Nat → List Token → Prop
  | done : Closes 0 []
  | close {n : Nat} {u : Token} {v r : List Token} :
      u.kind = .rightParen → Sentence .tail v → Closes n r → Closes (n + 1) (u :: (v ++ r))

namespace Outlook

/-- The part of a sentence that goes on at an outlook. -/
def part : Outlook → Part
  | operand _ => .expression
  | _ => .tail

/-- A run that ends within no group takes the part that goes on here and closes
the groups that are open. -/
theorem exists_closes {o : Outlook} {w : List Token} (h : o.run w = some (.operator 0)) :
    ∃ v r, w = v ++ r ∧ Sentence o.part v ∧ Closes o.groups r := by
  induction w generalizing o with
  | nil =>
    obtain rfl := Option.some.inj h
    exact ⟨[], [], rfl, .done, .done⟩
  | cons t w ih =>
    rw [run_cons, Option.bind_eq_some_iff] at h
    obtain ⟨o₁, hn, hw⟩ := h
    obtain ⟨v, r, rfl, hv, hr⟩ := ih hw
    cases o with
    | operand n =>
      rcases next_operand_cases hn with ⟨name, hname, rfl⟩ | ⟨hk, rfl⟩ | ⟨hk, rfl⟩
      · exact ⟨t :: v, r, rfl, (Sentence.ident hname).expression hv, hr⟩
      · exact ⟨t :: v, r, rfl, hv.not_cons hk, hr⟩
      · cases hr with
        | @close _ u x r hu hx hr =>
          exact ⟨(t :: (v ++ [u])) ++ x, r, by simp, (Sentence.group hk hv hu).expression hx, hr⟩
    | operator n =>
      rcases next_operator_cases hn with ⟨op, hop, rfl⟩ | ⟨m, rfl, hk, rfl⟩ | ⟨rfl, hk, rfl⟩
      · exact ⟨t :: v, r, rfl, .tail_cons hop hv, hr⟩
      · exact ⟨[], t :: (v ++ r), rfl, .done, .close hk hv hr⟩
      · cases (run_ended hw).2
    | ended => cases hn

/-- From every outlook but the last a sentence can be completed: by an operand
if one is due, and by the ends of the open groups. -/
theorem exists_run {o : Outlook} (ho : o ≠ ended) : ∃ w, o.run w = some (.operator 0) := by
  have hclose : ∀ n, ∃ w, (operator n).run w = some (.operator 0) := by
    intro n
    induction n with
    | zero => exact ⟨[], rfl⟩
    | succ n ih =>
      obtain ⟨w, hw⟩ := ih
      exact ⟨.bare .rightParen .start :: w, hw⟩
  cases o with
  | operand n =>
    obtain ⟨w, hw⟩ := hclose n
    exact ⟨.identifier "X" .start :: w, hw⟩
  | operator n => exact hclose n
  | ended => exact absurd rfl ho

end Outlook

theorem sentence_iff_run {w : List Token} :
    Sentence .expression w ↔ (Outlook.operand 0).run w = some (.operator 0) := by
  constructor
  · exact fun h => h.run 0
  · intro h
    obtain ⟨v, r, rfl, hv, hr⟩ := Outlook.exists_closes h
    cases hr
    rwa [List.append_nil]

section
variable {o : Outlook} {v w : List Token} {t e : Token}

/-- Tokens that may all come are the beginning of a sentence. -/
theorem Outlook.exists_sentence (h : (operand 0).run v = some o) (ho : o ≠ ended) :
    ∃ w, Sentence .expression (v ++ w) := by
  obtain ⟨w, hw⟩ := exists_run ho
  refine ⟨w, sentence_iff_run.mpr ?_⟩
  rw [run_append, h]
  exact hw

/-- A token that may not come next is in no sentence that begins so, and not
its end either. -/
theorem Outlook.not_isPrefix (h : (operand 0).run v = some o) (ht : o.next t = none)
    (hw : Sentence .expression w) (he : e.kind = .endOfInput) : ¬ v ++ [t] <+: w ++ [e] := by
  rintro ⟨rest, hrest⟩
  have hend : (operand 0).run (w ++ [e]) = some ended := by
    have hw : (operand 0).run w = some (.operator 0) := hw.run 0
    simp [hw, next_endOfInput he]
  rw [← hrest] at hend
  simp [h, ht] at hend

end

end LogicCalculator
