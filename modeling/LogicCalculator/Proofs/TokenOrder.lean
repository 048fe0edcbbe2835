import LogicCalculator.Proofs.ScannerLaws

/-!
# Tokens stand one behind the other

Positions are ordered by line, then by column. The tokens of a text stand at
increasing positions (`tokenize_pairwise`), so a position tells which token
is meant (`eq_of_position_eq`).
-/

namespace LogicCalculator

namespace Position

instance : LT Position := ⟨fun p q => p.line < q.line ∨ p.line = q.line ∧ p.column < q.column⟩

instance : LE Position := ⟨fun p q => p.line < q.line ∨ p.line = q.line ∧ p.column ≤ q.column⟩

variable {p q r : Position}

theorem lt_def : p < q ↔ p.line < q.line ∨ p.line = q.line ∧ p.column < q.column := Iff.rfl

theorem le_def : p ≤ q ↔ p.line < q.line ∨ p.line = q.line ∧ p.column ≤ q.column := Iff.rfl

theorem le_refl (p : Position) : p ≤ p := .inr ⟨rfl, Nat.le_refl _⟩

theorem le_of_lt (h : p < q) : p ≤ q := by
  rw [lt_def] at h
  rw [le_def]
  omega

theorem le_trans (h : p ≤ q) (h' : q ≤ r) : p ≤ r := by
  rw [le_def] at h h' ⊢
  omega

theorem lt_of_lt_of_le (h : p < q) (h' : q ≤ r) : p < r := by
  rw [le_def] at h'
  rw [lt_def] at h ⊢
  omega

theorem ne_of_lt (h : p < q) : p ≠ q := by
  rintro rfl
  rw [lt_def] at h
  omega

theorem lt_after (p : Position) (c : Char) : p < p.after c := by
  unfold after
  split
  · exact .inl (Nat.lt_succ_self _)
  · exact .inr ⟨rfl, Nat.lt_succ_self _⟩

theorem le_afterAll (p : Position) (cs : List Char) : p ≤ p.afterAll cs := by
  induction cs generalizing p with
  | nil => exact le_refl p
  | cons c cs ih => exact le_trans (le_of_lt (lt_after p c)) (ih _)

theorem lt_afterAll (p : Position) {cs : List Char} (h : cs ≠ []) : p < p.afterAll cs := by
  cases cs with
  | nil => exact absurd rfl h
  | cons c cs => exact lt_of_lt_of_le (lt_after p c) (le_afterAll _ cs)

end Position

namespace Scanner

@[simp] theorem position_ofWord (word : List Char) (position : Position) :
    (Token.ofWord word position).position = position := by
  unfold Token.ofWord
  split <;> rfl

@[simp] theorem position_ofSymbol (c : Char) (position : Position) :
    (Token.ofSymbol c position).position = position := by
  unfold Token.ofSymbol
  split
  · rfl
  · split <;> rfl

theorem position_le_skipWhile (p : Char → Bool) (s : Scanner) :
    s.position ≤ (s.skipWhile p).position :=
  Position.le_afterAll _ _

theorem position_le_next (s : Scanner) : s.position ≤ s.next.1.position := by
  have h := s.position_le_skipWhile isSeparator
  simp only [next]
  split
  · exact h
  · split
    · rwa [position_ofWord]
    · rwa [position_ofSymbol]

/-- Behind a token the text goes on at a later position. -/
theorem position_next_lt {s : Scanner} (h : s.next.1.kind ≠ .endOfInput) :
    s.next.1.position < s.next.2.position := by
  revert h
  simp only [next]
  split
  · intro h
    exact absurd rfl h
  · rename_i c cs hr
    intro _
    split
    · rename_i ha
      rw [position_ofWord]
      refine Position.lt_afterAll _ ?_
      simp [hr, ha]
    · rw [position_ofSymbol]
      exact Position.lt_after _ c

theorem position_le_tokens (s : Scanner) : ∀ t ∈ s.tokens, s.position ≤ t.position := by
  fun_induction tokens s with
  | case1 s h => simpa using s.position_le_next
  | case2 s h ih =>
    have hle := s.position_le_next
    refine List.forall_mem_cons.mpr ⟨hle, fun t ht => ?_⟩
    have hnext := Position.le_of_lt (position_next_lt h)
    exact Position.le_trans hle (Position.le_trans hnext (ih t ht))

theorem tokens_pairwise (s : Scanner) :
    s.tokens.Pairwise fun t u => t.position < u.position := by
  fun_induction tokens s with
  | case1 s h => exact List.pairwise_singleton _ _
  | case2 s h ih =>
    refine List.pairwise_cons.mpr ⟨fun t ht => ?_, ih⟩
    exact Position.lt_of_lt_of_le (position_next_lt h) (position_le_tokens _ t ht)

end Scanner

theorem tokenize_pairwise (source : String) :
    (tokenize source).Pairwise fun t u => t.position < u.position :=
  Scanner.tokens_pairwise _

/-- A position divides the tokens of a text in one way only. -/
theorem eq_of_position_eq {ts v v' w w' : List Token} {t t' : Token}
    (hts : ts.Pairwise fun t u => t.position < u.position) (h : ts = v ++ t :: w)
    (h' : ts = v' ++ t' :: w') (hp : t.position = t'.position) : v = v' ∧ t = t' := by
  induction v generalizing ts v' with
  | nil =>
    cases v' with
    | nil => exact ⟨rfl, (List.cons.inj (h.symm.trans h')).1⟩
    | cons u v' =>
      subst h
      obtain ⟨rfl, rfl⟩ := List.cons.inj h'
      have hlt := (List.pairwise_cons.mp hts).1 t' (by simp)
      exact absurd hp (Position.ne_of_lt hlt)
  | cons x v ih =>
    subst h
    obtain ⟨hx, hv⟩ := List.pairwise_cons.mp hts
    cases v' with
    | nil =>
      obtain ⟨rfl, rfl⟩ := List.cons.inj h'
      have hlt := hx t (by simp)
      exact absurd hp.symm (Position.ne_of_lt hlt)
    | cons u v' =>
      obtain ⟨rfl, hrest⟩ := List.cons.inj h'
      obtain ⟨rfl, rfl⟩ := ih hv rfl hrest
      exact ⟨rfl, rfl⟩

end LogicCalculator
