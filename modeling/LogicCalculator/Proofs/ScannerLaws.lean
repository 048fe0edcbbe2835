import LogicCalculator.Proofs.General
import LogicCalculator.Token.Scanner

/-!
# Steps of scanning

One equation for each way a text can begin: a separator, a symbol, a word or
its end. The tokens of a text are those of its words and symbols, and then the
end of the input, which occurs nowhere else.
-/

namespace LogicCalculator

namespace Scanner

variable {c : Char} {cs word rest : List Char}

/-- What stands here does not go on with a word. -/
def Breaks (rest : List Char) : Prop := ∀ c ∈ rest.head?, c.isAlpha = false

theorem breaks_cons (h : c.isAlpha = false) : Breaks (c :: cs) := by
  simpa [Breaks] using h

theorem isSeparator_eq_false_of_isAlpha (h : c.isAlpha = true) : isSeparator c = false := by
  refine Bool.eq_false_iff.mpr fun hs => ?_
  have hs : ((c = ' ' ∨ c = '\t') ∨ c = '\r') ∨ c = '\n' := by
    simpa [isSeparator] using hs
  rcases hs with ((rfl | rfl) | rfl) | rfl <;> simp at h

theorem isAlpha_eq_false_of_isSeparator (h : isSeparator c = true) : c.isAlpha = false := by
  refine Bool.eq_false_iff.mpr fun ha => ?_
  rw [isSeparator_eq_false_of_isAlpha ha] at h
  cases h

-- ---------------------------------------------------------------------------
-- One token
-- ---------------------------------------------------------------------------

theorem tokens_of_next_eq {s s' : Scanner} (h : s.next = s'.next) : s.tokens = s'.tokens := by
  conv => lhs; rw [tokens, h]
  conv => rhs; rw [tokens]

theorem next_nil (position : Position) :
    (mk [] position).next = (.bare .endOfInput position, mk [] position) := rfl

theorem tokens_nil (position : Position) :
    (mk [] position).tokens = [.bare .endOfInput position] := by
  rw [tokens]
  rfl

theorem next_separator (position : Position) (hc : isSeparator c = true) :
    (mk (c :: cs) position).next = (mk cs (position.after c)).next := by
  have hskip : (mk (c :: cs) position).skipWhile isSeparator =
      (mk cs (position.after c)).skipWhile isSeparator := by
    simp [skipWhile, hc]
  rw [next, next, hskip]

theorem next_separators {blanks : List Char} (h : ∀ c ∈ blanks, isSeparator c = true)
    (rest : List Char) (position : Position) :
    (mk (blanks ++ rest) position).next = (mk rest (position.afterAll blanks)).next := by
  induction blanks generalizing position with
  | nil => rfl
  | cons c cs ih =>
    obtain ⟨hc, hcs⟩ := List.forall_mem_cons.mp h
    rw [List.cons_append, next_separator position hc, ih hcs, Position.afterAll_cons]

theorem tokens_separator (position : Position) (hc : isSeparator c = true) :
    (mk (c :: cs) position).tokens = (mk cs (position.after c)).tokens :=
  tokens_of_next_eq (next_separator position hc)

theorem skipWhile_of_head (s : Scanner) {p : Char → Bool} (h : ∀ c ∈ s.rest.head?, p c = false) :
    s.skipWhile p = s := by
  rcases s with ⟨_ | ⟨c, cs⟩, position⟩
  · rfl
  · simp [skipWhile, h c rfl]

theorem kind_ofSymbol (c : Char) (position : Position) :
    (Token.ofSymbol c position).kind ≠ .endOfInput := by
  unfold Token.ofSymbol
  split
  · simp [Token.bare]
  · split <;> simp [Token.bare, Token.illegal]

theorem kind_ofWord (word : List Char) (position : Position) :
    (Token.ofWord word position).kind ≠ .endOfInput := by
  unfold Token.ofWord Token.Kind.keyword?
  split
  · rename_i kind h
    split at h <;> simp_all [Token.bare] <;> simp [← h]
  · simp [Token.identifier]

theorem next_symbol (cs : List Char) (position : Position) (hs : isSeparator c = false)
    (ha : c.isAlpha = false) :
    (mk (c :: cs) position).next = (.ofSymbol c position, mk cs (position.after c)) := by
  rw [next, skipWhile_of_head _ (by simpa using hs)]
  simp [ha]

theorem tokens_symbol (position : Position) (hs : isSeparator c = false)
    (ha : c.isAlpha = false) :
    (mk (c :: cs) position).tokens =
      .ofSymbol c position :: (mk cs (position.after c)).tokens := by
  have hn := next_symbol cs position hs ha
  rw [tokens, dif_neg (by rw [hn]; exact kind_ofSymbol c position), hn]

/-- The word is taken as a whole because no letter stands behind it. -/
theorem next_word (position : Position) (hne : word ≠ []) (hw : ∀ c ∈ word, c.isAlpha = true)
    (hr : Breaks rest) :
    (mk (word ++ rest) position).next =
      (.ofWord word position, mk rest (position.afterAll word)) := by
  have htake := List.takeWhile_append_of_head hw hr
  have hdrop := List.dropWhile_append_of_head hw hr
  obtain ⟨c, cs, rfl⟩ := List.exists_cons_of_ne_nil hne
  have hc : c.isAlpha = true := hw c (by simp)
  rw [next, skipWhile_of_head _ (by simpa using isSeparator_eq_false_of_isAlpha hc)]
  simp only [List.cons_append] at htake hdrop
  simp only [List.cons_append, hc, if_true, skipWhile, htake, hdrop]

theorem tokens_word (position : Position) (hne : word ≠ []) (hw : ∀ c ∈ word, c.isAlpha = true)
    (hr : Breaks rest) :
    (mk (word ++ rest) position).tokens =
      .ofWord word position :: (mk rest (position.afterAll word)).tokens := by
  have hn := next_word position hne hw hr
  rw [tokens, dif_neg (by rw [hn]; exact kind_ofWord word position), hn]

-- ---------------------------------------------------------------------------
-- Whole texts
-- ---------------------------------------------------------------------------

/-- The end of the input stands behind all other tokens. -/
theorem tokens_eq_append (s : Scanner) :
    ∃ e, e.kind = .endOfInput ∧ s.tokens = s.tokens.dropLast ++ [e] ∧
      ∀ t ∈ s.tokens.dropLast, t.kind ≠ .endOfInput := by
  fun_induction tokens s with
  | case1 s h => exact ⟨s.next.1, h, rfl, by simp⟩
  | case2 s h ih =>
    obtain ⟨e, he, hs, hw⟩ := ih
    have hne : s.next.2.tokens ≠ [] := by
      rw [hs]
      simp
    refine ⟨e, he, ?_, ?_⟩
    · rw [List.dropLast_cons_of_ne_nil hne, List.cons_append, ← hs]
    · rw [List.dropLast_cons_of_ne_nil hne, List.forall_mem_cons]
      exact ⟨h, hw⟩

end Scanner

/-- The tokens of a text in front of its end. -/
def words (source : String) : List Token := (tokenize source).dropLast

theorem tokenize_eq_words_append (source : String) :
    ∃ e, e.kind = .endOfInput ∧ tokenize source = words source ++ [e] ∧
      ∀ t ∈ words source, t.kind ≠ .endOfInput :=
  (Scanner.ofString source).tokens_eq_append

end LogicCalculator
