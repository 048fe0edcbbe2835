import LogicCalculator.Proofs.Grammar

/-!
# Sentences

The language of the phrases without strata, trees or levels: a sentence is a
term and operators with a term behind each. The strata only say which tree a
sentence has, so they leave none out (`sentence_iff_derives`).
-/

namespace LogicCalculator

/-- The parts of a sentence. The tail is what stands behind its first term. -/
inductive Part where
  | expression
  | term
  | tail
deriving DecidableEq, Repr

inductive Sentence : Part → List Token → Prop
  | ident {t : Token} {name : String} : t.name? = some name → Sentence .term [t]
  | not {t : Token} {w : List Token} :
      t.kind = .not → Sentence .term w → Sentence .term (t :: w)
  | group {t u : Token} {w : List Token} :
      t.kind = .leftParen → Sentence .expression w → u.kind = .rightParen →
      Sentence .term (t :: (w ++ [u]))
  | done : Sentence .tail []
  | operator {t : Token} {op : BinaryOperator} {v w : List Token} :
      BinaryOperator.ofKind? t.kind = some op → Sentence .term v → Sentence .tail w →
      Sentence .tail (t :: (v ++ w))
  | expression {v w : List Token} :
      Sentence .term v → Sentence .tail w → Sentence .expression (v ++ w)

namespace Sentence

variable {t : Token} {op : BinaryOperator} {v w : List Token}

theorem of_term (h : Sentence .term w) : Sentence .expression w := by
  have := h.expression .done
  rwa [List.append_nil] at this

theorem exists_term_tail (h : Sentence .expression w) :
    ∃ u v, w = u ++ v ∧ Sentence .term u ∧ Sentence .tail v := by
  cases h with
  | expression hu hv => exact ⟨_, _, rfl, hu, hv⟩

/-- An operator goes on with a whole expression: the tail of that is its own. -/
theorem tail_cons (ht : BinaryOperator.ofKind? t.kind = some op) (h : Sentence .expression w) :
    Sentence .tail (t :: w) := by
  obtain ⟨u, v, rfl, hu, hv⟩ := h.exists_term_tail
  exact .operator ht hu hv

/-- `NOT` takes the first term of an expression and leaves its tail alone. -/
theorem not_cons (ht : t.kind = .not) (h : Sentence .expression w) :
    Sentence .expression (t :: w) := by
  obtain ⟨u, v, rfl, hu, hv⟩ := h.exists_term_tail
  exact (Sentence.not ht hu).expression hv

theorem tail_append (hv : Sentence .tail v) (hw : Sentence .tail w) : Sentence .tail (v ++ w) := by
  generalize hp : Part.tail = part at hv
  induction hv with
  | done => exact hw
  | operator ht hu _ _ ih =>
    have := Sentence.operator ht hu (ih hp)
    simpa using this
  | _ => cases hp

theorem append_tail (hv : Sentence .expression v) (hw : Sentence .tail w) :
    Sentence .expression (v ++ w) := by
  obtain ⟨u, x, rfl, hu, hx⟩ := hv.exists_term_tail
  rw [List.append_assoc]
  exact hu.expression (hx.tail_append hw)

end Sentence

-- ---------------------------------------------------------------------------
-- Sentences and derivations
-- ---------------------------------------------------------------------------

def Stratum.part : Stratum → Part
  | chain _ => .expression
  | term => .term

theorem Sentence.of_operands {op : BinaryOperator} {w : List Token}
    (h : Sentence op.operands.part w) : Sentence .expression w := by
  cases op with
  | and => exact h.of_term
  | or => exact h
  | xor => exact h

theorem Derives.sentence {s : Stratum} {w : List Token} {c : Phrase} (d : Derives s w c) :
    Sentence s.part w := by
  induction d with
  | ident h => exact .ident h
  | not h _ ih => exact .not h ih
  | group h _ h' ih => exact .group h ih h'
  | single _ ih => exact ih.of_operands
  | chain _ h _ ihl ihr => exact ihl.append_tail (.tail_cons h ihr.of_operands)

/-- An operator and a term behind a phrase go on with the chain that the
operator belongs to, the last one of its stratum in the phrase. -/
theorem Derives.exists_append {s : Stratum} {v w : List Token} {t : Token} {op : BinaryOperator}
    {l r : Phrase} (d : Derives s v l) (ht : BinaryOperator.ofKind? t.kind = some op)
    (hr : Derives .term w r) (hs : s.rank ≤ op.priority.rank) :
    ∃ c, Derives s (v ++ t :: w) c := by
  have hterm : ¬ Stratum.term.rank ≤ op.priority.rank := by cases op <;> decide
  have hop : ∀ {op' : BinaryOperator} {v : List Token} {l : Phrase}, Derives (.chain op') v l →
      (Stratum.chain op').rank = op.priority.rank → ∃ c, Derives (.chain op') (v ++ t :: w) c := by
    intro op' v l d he
    obtain rfl : op' = op := Stratum.chain.inj (Stratum.rank_injective he)
    exact ⟨_, .chain d ht (hr.widen (Stratum.rank_le_term _))⟩
  induction d with
  | ident | not | group => exact absurd hs hterm
  | @single op' v l d ih =>
    rcases Nat.lt_or_eq_of_le hs with hlt | he
    · obtain ⟨c, hc⟩ := ih (by rw [op'.rank_operands]; exact hlt)
      exact ⟨c, .single hc⟩
    · exact hop (.single d) he
  | @chain op' _ _ _ _ _ dl ht' dr _ ihr =>
    rcases Nat.lt_or_eq_of_le hs with hlt | he
    · obtain ⟨c, hc⟩ := ihr (by rw [op'.rank_operands]; exact hlt)
      exact ⟨_, by simpa using Derives.chain dl ht' hc⟩
    · exact hop (.chain dl ht' dr) he

/-- What it means for a part that it has derivations. -/
def Part.Derivable : Part → List Token → Prop
  | expression, w => ∃ c, Derives .expression w c
  | term, w => ∃ c, Derives .term w c
  | tail, w => ∀ v l, Derives .expression v l → ∃ c, Derives .expression (v ++ w) c

theorem Sentence.derivable {part : Part} {w : List Token} (h : Sentence part w) :
    part.Derivable w := by
  induction h with
  | ident h => exact ⟨_, .ident h⟩
  | not h _ ih =>
    obtain ⟨c, hc⟩ := ih
    exact ⟨_, .not h hc⟩
  | group h _ h' ih =>
    obtain ⟨c, hc⟩ := ih
    exact ⟨_, .group h hc h'⟩
  | done =>
    intro v l d
    exact ⟨l, by rwa [List.append_nil]⟩
  | @operator t op x y h _ _ ihx ihy =>
    intro v l d
    obtain ⟨c, hc⟩ := ihx
    obtain ⟨c', hc'⟩ := d.exists_append h hc (Stratum.rank_expression_le (.chain op))
    obtain ⟨c'', hc''⟩ := ihy _ _ hc'
    exact ⟨c'', by simpa using hc''⟩
  | expression _ _ ihv ihw =>
    obtain ⟨c, hc⟩ := ihv
    exact ihw _ _ (hc.widen (Stratum.rank_expression_le _))

/-- The strata and the trees leave no sentence out. -/
theorem sentence_iff_derives {w : List Token} :
    Sentence .expression w ↔ ∃ c, Derives .expression w c :=
  ⟨Sentence.derivable, fun ⟨_, d⟩ => d.sentence⟩

end LogicCalculator
