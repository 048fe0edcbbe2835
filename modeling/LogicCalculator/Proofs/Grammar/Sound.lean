import LogicCalculator.Proofs.Grammar
import LogicCalculator.Proofs.ParserLaws
import LogicCalculator.Proofs.ScannerLaws

/-!
# Only phrases are read

When reading ends with a tree, the tokens it went over are a phrase with that
tree, and the phrase takes no more levels than there were (`expression_sound`).
The tokens have to end in the end of the input: reading never gets past that
one with a tree, so it never sees it twice.
-/

namespace LogicCalculator

def Ended (ts : List Token) : Prop := ∃ e ∈ ts.getLast?, e.kind = .endOfInput

namespace Ended

variable {t : Token} {ts w : List Token}

theorem exists_cons (h : Ended ts) : ∃ t rest, ts = t :: rest := by
  cases ts with
  | nil => simp [Ended] at h
  | cons t rest => exact ⟨t, rest, rfl⟩

theorem tail (h : Ended (t :: ts)) (ht : t.kind ≠ .endOfInput) : Ended ts := by
  cases ts with
  | nil => simp [Ended, ht] at h
  | cons u us => simpa [Ended] using h

theorem of_append (h : Ended (w ++ ts)) (hw : ∀ t ∈ w, t.kind ≠ .endOfInput) : Ended ts := by
  induction w with
  | nil => exact h
  | cons t w ih =>
    rw [List.forall_mem_cons] at hw
    exact ih (h.tail hw.1) hw.2

theorem advance {p : Parser} (h : Ended p.tokens) : Ended p.advance.tokens := by
  cases hts : p.cursor.upcoming with
  | nil => simpa [Parser.tokens, Parser.advance, Cursor.advance, hts] using h
  | cons u us =>
    rw [Parser.tokens_advance hts (List.cons_ne_nil u us)]
    simpa [Ended, Parser.tokens, hts] using h

theorem upcoming_ne_nil {p : Parser} (h : Ended p.tokens) (ht : t ∈ p.tokens.take 2)
    (hk : t.kind ≠ .endOfInput) : p.cursor.upcoming ≠ [] := by
  intro hts
  obtain rfl : t = p.cursor.current := by simpa [Parser.tokens, hts] using ht
  exact hk (by simpa [Ended, Parser.tokens, hts] using h)

theorem upcoming_ne_nil_of_bindsAbove {p : Parser} {floor : Priority} (h : Ended p.tokens)
    (hb : p.lookahead.bindsAbove floor = true) : p.cursor.upcoming ≠ [] :=
  h.upcoming_ne_nil p.lookahead_mem_take_tokens (Parser.kind_ne_endOfInput_of_bindsAbove hb)

end Ended

namespace Parser

theorem ended_tokens_ofString (source : String) : Ended (ofString source).tokens := by
  obtain ⟨e, he, hts, -⟩ := tokenize_eq_words_append source
  refine ⟨e, ?_, he⟩
  rw [tokens_ofString, hts]
  simp

/-- No token of a text stands behind the end of the input. -/
theorem upcoming_eq_nil {source : String} {front : List Token} {p : Parser}
    (hts : tokenize source = front ++ p.tokens) (hk : p.current.kind = .endOfInput) :
    p.cursor.upcoming = [] := by
  obtain ⟨t, -, -, hne⟩ := tokenize_eq_words_append source
  cases hu : p.cursor.upcoming with
  | nil => rfl
  | cons u us =>
    have hdrop : words source = front ++ p.current :: (u :: us).dropLast := by
      rw [words, hts, tokens, hu, List.dropLast_append_cons]
      rfl
    have hmem : p.current ∈ words source := by simp [hdrop]
    exact absurd hk (hne _ hmem)

/-- `ts` begins with a phrase, and `q` stands on its last token. -/
def Behind (ts : List Token) (s : Stratum) (c : Phrase) (q : Parser) : Prop :=
  ∃ w, Derives s w c ∧ ts = w ++ q.cursor.upcoming

/-- Every tree comes from a phrase that takes at most so many levels. -/
def Sound (levels : Nat) (nested : Nested) : Prop :=
  ∀ {floor : Priority} {p q : Parser} {e : Expr}, nested floor p = (some e, q) → Ended p.tokens →
    ∃ s c, Behind p.tokens s c q ∧ s.Above floor ∧ c.erase = e ∧ c.demand ≤ levels ∧
      q.lookahead.bindsAbove floor = false

section
variable {s : Stratum} {c : Phrase} {ts : List Token} {p q : Parser} {e : Expr} {levels : Nat}
  {floor : Priority} {nested : Nested}

theorem Behind.ended (h : Behind ts s c q) (hts : Ended ts) : Ended q.cursor.upcoming := by
  obtain ⟨w, hd, rfl⟩ := h
  exact hts.of_append hd.not_endOfInput

theorem tokens_advance_of_ended (h : Ended p.tokens) (hk : p.current.kind ≠ .endOfInput) :
    p.tokens = p.current :: p.advance.tokens ∧ Ended p.advance.tokens := by
  have hu : Ended p.cursor.upcoming := Ended.tail h hk
  obtain ⟨t, rest, ht⟩ := hu.exists_cons
  rw [tokens_advance ht (by simp), ← ht]
  exact ⟨rfl, hu⟩

-- ---------------------------------------------------------------------------
-- Operands
-- ---------------------------------------------------------------------------

theorem not_sound (hn : Sound levels nested) (hk : p.current.kind = .not)
    (h : Prod.map (Option.map .not) id (nested .not p.advance) = (some e, q))
    (hp : Ended p.tokens) :
    ∃ c, Behind p.tokens .term c q ∧ c.erase = e ∧ c.demand ≤ levels + 1 := by
  obtain ⟨hts, ha⟩ := tokens_advance_of_ended hp (by simp [hk])
  rcases hr : nested .not p.advance with ⟨_ | inner, q'⟩
  · simp [hr] at h
  · obtain ⟨rfl, rfl⟩ : Expr.not inner = e ∧ q' = q := by simpa [hr] using h
    obtain ⟨s, c, ⟨w, hd, hw⟩, hs, rfl, hc, -⟩ := hn hr ha
    rw [hs.eq_term] at hd
    refine ⟨.not c, ⟨_, .not hk hd, ?_⟩, rfl, Nat.succ_le_succ hc⟩
    rw [hts, hw, List.cons_append]

theorem group_sound (hn : Sound levels nested) (hk : p.current.kind = .leftParen)
    (h : close (nested .lowest p.advance) = (some e, q)) (hp : Ended p.tokens) :
    ∃ c, Behind p.tokens .term c q ∧ c.erase = e ∧ c.demand ≤ levels + 1 := by
  obtain ⟨hts, ha⟩ := tokens_advance_of_ended hp (by simp [hk])
  rcases hr : nested .lowest p.advance with ⟨inner, q'⟩
  rw [hr, close] at h
  split at h
  · simp at h
  · split at h
    · rename_i hclose
      obtain ⟨rfl, rfl⟩ := Prod.mk.inj h
      obtain ⟨s, c, hb, hs, rfl, hc, -⟩ := hn hr ha
      obtain ⟨u, rest, hu⟩ := (hb.ended ha).exists_cons
      obtain ⟨w, hd, hw⟩ := hb
      rw [lookahead_of_upcoming hu] at hclose
      have hd := hd.widen s.rank_expression_le
      refine ⟨.group c, ⟨_, .group hk hd hclose, ?_⟩, rfl, Nat.succ_le_succ hc⟩
      rw [hts, hw, hu, cursor_advance hu]
      simp
    · simp at h

theorem operand_sound (hn : Sound levels nested) (h : operand nested p = (some e, q))
    (hp : Ended p.tokens) :
    ∃ c, Behind p.tokens .term c q ∧ c.erase = e ∧ c.demand ≤ levels + 1 := by
  have hcase := operand_case nested p
  generalize operand nested p = r at hcase h
  cases hcase with
  | @name name hname =>
    obtain ⟨he, rfl⟩ := Prod.mk.inj h
    obtain rfl := Option.some.inj he
    exact ⟨.ident name, ⟨_, .ident hname, rfl⟩, rfl, by simp [Phrase.demand]⟩
  | not hnot => exact not_sound hn hnot h hp
  | group hparen => exact group_sound hn hparen h hp
  | other => simp at h

-- ---------------------------------------------------------------------------
-- Chains
-- ---------------------------------------------------------------------------

theorem Behind.binary {op : BinaryOperator} {t : Token} {us : List Token} {s' : Stratum}
    {r : Phrase} (hl : Behind ts s c p) (hs : op.priority.rank ≤ s.rank)
    (hp : p.cursor.upcoming = t :: us) (ht : BinaryOperator.ofKind? t.kind = some op)
    (hr : Behind us s' r q) (hs' : op.operands.rank ≤ s'.rank) :
    Behind ts (.chain op) (.binary op c r) q := by
  obtain ⟨v, hv, hts⟩ := hl
  obtain ⟨w, hw, rfl⟩ := hr
  exact ⟨_, .chain (hv.widen hs) ht (hw.widen hs'), by rw [hts, hp]; simp⟩

theorem fold_eq_some {op : BinaryOperator} {left : Expr} {r : Option Expr × Parser}
    (h : fold levels floor op left r = (some e, q)) :
    ∃ right q', r = (some right, q') ∧
      chain levels floor (.binary op left right) q' = (some e, q) := by
  rcases r with ⟨_ | right, q'⟩
  · simp [fold] at h
  · exact ⟨right, q', rfl, h⟩

/-- Behind the right operand of an operator, the two phrases and the operator
are the next left operand. -/
theorem operator_sound {op : BinaryOperator} {right : Expr} {k : Nat}
    (hn : Sound k (expression k)) (hb : Behind ts s c p) (hts : Ended ts)
    (hop : BinaryOperator.ofKind? p.lookahead.kind = some op) (hs : op.priority.rank ≤ s.rank)
    (h : expression k op.priority p.advance.descend.advance = (some right, q)) :
    ∃ r, Behind ts (.chain op) (.binary op c r) q ∧ r.erase = right ∧ r.demand ≤ k ∧
      ∀ op', BinaryOperator.ofKind? q.lookahead.kind = some op' →
        op'.priority.rank ≤ op.priority.rank := by
  obtain ⟨t, us, ht⟩ := (hb.ended hts).exists_cons
  have hla : p.lookahead = t := lookahead_of_upcoming ht
  -- the operator is not the end of the input, so there are tokens behind it
  have hend : t.kind ≠ .endOfInput := fun h => by
    simp [hla, h, BinaryOperator.ofKind?] at hop
  have hus : Ended us := Ended.tail (ht ▸ hb.ended hts) hend
  have htokens : p.advance.descend.advance.tokens = us := by
    obtain ⟨u, rest, rfl⟩ := hus.exists_cons
    exact tokens_advance (by rw [cursor_descend, cursor_advance ht]) (by simp)
  obtain ⟨s', r, hbr, hs', he, hr, hstop⟩ := hn h (by rwa [htokens])
  rw [htokens] at hbr
  refine ⟨r, hb.binary hs ht (hla ▸ hop) hbr hs'.rank_operands_le, he, hr, fun op' hop' => ?_⟩
  simpa [Token.bindsAbove, priority_of_ofKind? hop', Priority.lt_iff_rank_lt] using hstop

/-- The chain goes on behind a phrase `c`, with the levels that its operators
have left. The operator that comes next must not bind tighter than those of
the phrase, or the phrase would not be its left operand. -/
theorem chain_sound {levels : Nat} (hn : ∀ n < levels, Sound n (expression n)) {left : Expr}
    {p : Parser} {s : Stratum} {c : Phrase} (h : chain levels floor left p = (some e, q))
    (hb : Behind ts s c p) (hts : Ended ts) (hs : s.Above floor) (he : c.erase = left)
    (hop : ∀ op, BinaryOperator.ofKind? p.lookahead.kind = some op → op.priority.rank ≤ s.rank)
    (hc : c.demand ≤ c.spine + levels + 1) :
    ∃ s' c', Behind ts s' c' q ∧ s'.Above floor ∧ c'.erase = e ∧
      c'.demand ≤ c.spine + levels + 1 ∧ q.lookahead.bindsAbove floor = false := by
  have hcase := chain_case levels floor left p
  generalize chain levels floor left p = r at hcase h
  cases hcase with
  | stop hbind =>
    obtain ⟨hleft, rfl⟩ := Prod.mk.inj h
    exact ⟨s, c, hb, hs, he.trans (Option.some.inj hleft), hc, hbind⟩
  | exhausted | unknownOperator => simp at h
  | @operator k op hbind hkind =>
    rw [priority_of_ofKind? hkind] at h
    obtain ⟨right, q', hright, h⟩ := fold_eq_some h
    obtain ⟨r, hb', rfl, hr, hop'⟩ :=
      operator_sound (hn k (Nat.lt_succ_self k)) hb hts hkind (hop op hkind) hright
    have hfloor : floor < op.priority := by
      simpa [Token.bindsAbove, priority_of_ofKind? hkind] using hbind
    have hdemand : (Phrase.binary op c r).demand ≤ (Phrase.binary op c r).spine + k + 1 := by
      simp only [Phrase.demand, Phrase.spine]
      omega
    -- one operator more on the spine, one level less behind it
    have hspine : (Phrase.binary op c r).spine + k = c.spine + (k + 1) := by
      simp only [Phrase.spine]
      omega
    rw [← hspine]
    exact chain_sound (fun n hlt => hn n (Nat.lt_succ_of_lt hlt)) h hb' hts hfloor
      (by simp only [Phrase.erase, he]) hop' hdemand
termination_by levels

theorem expression_sound (levels : Nat) : Sound levels (expression levels) := by
  induction levels using Nat.strongRecOn with
  | _ levels ih =>
    intro floor p q e h hp
    cases levels with
    | zero => simp [expression_zero] at h
    | succ k =>
      rw [expression_succ] at h
      rcases hr : operand (expression k) p.enter with ⟨_ | left, p'⟩
      · simp [hr, extend] at h
      · rcases hx : chain k floor left p' with ⟨e', q'⟩
        obtain ⟨rfl, rfl⟩ : e' = some e ∧ q'.leave p.meter = q := by
          simpa [hr, extend, hx] using h
        obtain ⟨c, hb, rfl, hc⟩ := operand_sound (ih k (Nat.lt_succ_self k)) hr hp
        have hspine : c.spine = 0 := by
          obtain ⟨w, hd, -⟩ := hb
          exact hd.spine_eq_zero
        -- any operator may follow a term
        obtain ⟨s, c', hb', hs, he, hc', hstop⟩ :=
          chain_sound (fun n hlt => ih n (Nat.lt_succ_of_lt hlt)) hx hb hp trivial rfl
            (fun op _ => by cases op <;> decide) (by omega)
        exact ⟨s, c', hb', hs, he, by omega, hstop⟩

end

end Parser

end LogicCalculator
