import LogicCalculator.Proofs.Grammar.Complete
import LogicCalculator.Proofs.Grammar.Sound

/-!
# What is accepted

A text is accepted exactly when its tokens are an expression of the grammar
that takes no more levels than there are, and its tree is that of the
expression without the parentheses (`parse_eq_some_iff`). An expression of the
grammar that takes more levels is refused with that fault alone
(`parse_outcome`).
-/

namespace LogicCalculator

/-- The end of the input marks where a text is divided. -/
theorem eq_of_append_endOfInput {v w rest : List Token} {t u : Token}
    (h : v ++ [t] = w ++ u :: rest) (ht : t.kind = .endOfInput) (hu : u.kind = .endOfInput)
    (hv : ∀ x ∈ v, x.kind ≠ .endOfInput) (hw : ∀ x ∈ w, x.kind ≠ .endOfInput) : v = w := by
  have htake := congrArg (List.takeWhile fun x : Token => decide (x.kind ≠ .endOfInput)) h
  rw [List.takeWhile_append_of_pos (by simpa using hv),
    List.takeWhile_append_of_pos (by simpa using hw)] at htake
  simpa [ht, hu] using htake

namespace Parser

variable {fits : Prop} {e : Expr} {p : Parser} {r : Option Expr × Parser}

theorem Outcome.finish {t : Token} (h : Outcome fits e [t] p r) (ht : t.kind = .endOfInput) :
    Outcome fits e [] p (Parser.finish r) := by
  cases h with
  | @read q h hq =>
    have hk : q.lookahead.kind = .endOfInput := by rw [lookahead_of_upcoming hq.upcoming, ht]
    simp only [Parser.finish, hk, if_true]
    exact .read h ⟨by rw [cursor_advance hq.upcoming], hq.errors, hq.tooDeep⟩
  | exhausted h hq => exact .exhausted h hq

/-- A text of the grammar is read to its end, or takes too many levels. -/
theorem parse_outcome {source : String} {c : Phrase} (d : Derives .expression (words source) c) :
    Outcome (c.demand ≤ nestingLimit) c.erase [] (ofString source) (ofString source).parse := by
  obtain ⟨t, ht, hw, -⟩ := tokenize_eq_words_append source
  have hp : (ofString source).tokens = words source ++ [t] := by rw [tokens_ofString, hw]
  rw [parse_eq_finish]
  have hlow : t.kind.priority.rank = 1 := by
    rw [ht]
    rfl
  exact (d.read nestingLimit .lowest hp rfl (by decide) (by rw [hlow]; decide)
    (by rw [hlow]; decide)).finish ht

theorem parse_of_demand_le {source : String} {c : Phrase}
    (d : Derives .expression (words source) c) (h : c.demand ≤ nestingLimit) :
    (ofString source).parse.1 = some c.erase ∧ (ofString source).parse.2.errors = #[] := by
  have hout := parse_outcome d
  generalize (ofString source).parse = r at hout ⊢
  cases hout with
  | read _ hq => exact ⟨rfl, hq.errors⟩
  | exhausted hfits _ => exact absurd h hfits

theorem parse_of_lt_demand {source : String} {c : Phrase}
    (d : Derives .expression (words source) c) (h : nestingLimit < c.demand) :
    (ofString source).parse.1 = none ∧
      ∃ position,
        (ofString source).parse.2.errors = #[⟨.nestingTooDeep nestingLimit, position⟩] := by
  have hout := parse_outcome d
  generalize (ofString source).parse = r at hout ⊢
  cases hout with
  | read hfits _ => exact absurd hfits (Nat.not_le.mpr h)
  | exhausted _ hq => exact ⟨rfl, hq.errors⟩

theorem parse_eq_ite {source : String} {c : Phrase} (d : Derives .expression (words source) c) :
    (ofString source).parse.1 = if c.demand ≤ nestingLimit then some c.erase else none := by
  split
  · rename_i h
    exact (parse_of_demand_le d h).1
  · rename_i h
    exact (parse_of_lt_demand d (Nat.not_le.mp h)).1

theorem exists_derives_of_parse {source : String} (h : (ofString source).parse.1 = some e) :
    ∃ c, Derives .expression (words source) c ∧ c.demand ≤ nestingLimit ∧ c.erase = e := by
  obtain ⟨t, ht, hw, hwords⟩ := tokenize_eq_words_append source
  have hp : (ofString source).tokens = words source ++ [t] := by rw [tokens_ofString, hw]
  rw [parse_eq_finish, finish_fst_eq_some_iff] at h
  rcases hr : expression nestingLimit .lowest (ofString source) with ⟨_ | e', q⟩
  · simp [hr] at h
  · obtain ⟨rfl, hk⟩ : e' = e ∧ q.lookahead.kind = .endOfInput := by simpa [hr] using h
    have hended := ended_tokens_ofString source
    obtain ⟨s, c, hb, -, he, hc, -⟩ := expression_sound nestingLimit hr hended
    -- the phrase goes up to the first end of the input, which is the last token
    obtain ⟨u, rest, hu⟩ := (hb.ended hended).exists_cons
    obtain ⟨w, hd, hts⟩ := hb
    rw [lookahead_of_upcoming hu] at hk
    rw [hp, hu] at hts
    have heq := eq_of_append_endOfInput hts ht hk hwords hd.not_endOfInput
    exact ⟨c, heq ▸ hd.widen s.rank_expression_le, hc, he⟩

end Parser

/-- A text is accepted with a tree if and only if its tokens are an expression
whose levels are all within the limit, and the tree is the expression without
its parentheses. -/
theorem parse_eq_some_iff (source : String) (e : Expr) :
    (Parser.ofString source).parse.1 = some e ↔
      ∃ c, Derives .expression (words source) c ∧ (∀ level ∈ c.levels 0, level ≤ 256) ∧
        c.erase = e := by
  constructor
  · intro h
    obtain ⟨c, hd, hc, he⟩ := Parser.exists_derives_of_parse h
    exact ⟨c, hd, Phrase.forall_levels_le_iff.mpr (by rwa [Nat.zero_add]), he⟩
  · rintro ⟨c, hd, hc, rfl⟩
    have hfits : c.demand ≤ nestingLimit := by
      have hc := Phrase.forall_levels_le_iff.mp hc
      rwa [Nat.zero_add] at hc
    generalize hr : (Parser.ofString source).parse = r
    have hout := hr ▸ Parser.parse_outcome hd
    cases hout with
    | read => rfl
    | exhausted h => exact absurd hfits h

end LogicCalculator
