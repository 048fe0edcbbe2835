import Mathlib.Data.List.Forall2
import LogicCalculator.Proofs.Variables

/-!
# Texts in parts

A text divides at every place that is not within a word: its tokens are those
of the part in front, without the end of the input, and those of the part
behind (`tokens_append`). Only positions depend on where a text begins
(`tokens_matches`).
-/

namespace LogicCalculator

/-- The tokens are of one kind and of one name. They may stand anywhere, and
illegal ones may be of two characters. -/
structure Token.Matches (t u : Token) : Prop where
  kind : u.kind = t.kind
  name? : u.name? = t.name?

namespace Scanner

variable {a b cs word rest : List Char} {c : Char}

-- ---------------------------------------------------------------------------
-- How texts begin
-- ---------------------------------------------------------------------------

theorem breaks_dropWhile (cs : List Char) : Breaks (cs.dropWhile Char.isAlpha) := by
  intro c hc
  have h := cs.head?_dropWhile_not Char.isAlpha
  rw [hc] at h
  exact h

/-- A text is empty or begins with a separator, a symbol or a whole word. -/
@[elab_as_elim]
theorem text_induction {motive : List Char → Prop} (nil : motive [])
    (separator : ∀ c cs, isSeparator c = true → motive cs → motive (c :: cs))
    (symbol : ∀ c cs, isSeparator c = false → c.isAlpha = false → motive cs → motive (c :: cs))
    (word : ∀ word rest, word ≠ [] → (∀ c ∈ word, c.isAlpha = true) → Breaks rest → motive rest →
      motive (word ++ rest)) (cs : List Char) : motive cs := by
  induction h : cs.length using Nat.strongRecOn generalizing cs with
  | _ n ih =>
    subst h
    rcases cs with _ | ⟨c, cs⟩
    · exact nil
    · cases hs : isSeparator c with
      | true => exact separator c cs hs (ih _ (Nat.lt_succ_self _) cs rfl)
      | false =>
        cases ha : c.isAlpha with
        | false => exact symbol c cs hs ha (ih _ (Nat.lt_succ_self _) cs rfl)
        | true =>
          have hlength := length_dropWhile_le Char.isAlpha cs
          have hletters : ∀ d ∈ c :: cs.takeWhile Char.isAlpha, d.isAlpha = true :=
            List.forall_mem_cons.mpr ⟨ha, List.all_eq_true.mp List.all_takeWhile⟩
          have hrest := ih _ (Nat.lt_succ_of_le hlength) (cs.dropWhile Char.isAlpha) rfl
          have := word _ _ (List.cons_ne_nil c _) hletters (breaks_dropWhile cs) hrest
          rwa [List.cons_append, List.takeWhile_append_dropWhile] at this

-- ---------------------------------------------------------------------------
-- Tokens at two places
-- ---------------------------------------------------------------------------

theorem matches_ofWord (word : List Char) (p q : Position) :
    (Token.ofWord word p).Matches (.ofWord word q) := by
  unfold Token.ofWord
  split
  · exact ⟨rfl, rfl⟩
  · exact ⟨rfl, rfl⟩

theorem matches_ofSymbol (c : Char) (p q : Position) :
    (Token.ofSymbol c p).Matches (.ofSymbol c q) := by
  unfold Token.ofSymbol
  split
  · exact ⟨rfl, rfl⟩
  · split
    · exact ⟨rfl, rfl⟩
    · exact ⟨rfl, rfl⟩

theorem tokens_matches (cs : List Char) (p q : Position) :
    List.Forall₂ Token.Matches (mk cs p).tokens (mk cs q).tokens := by
  induction cs using text_induction generalizing p q with
  | nil =>
    rw [tokens_nil, tokens_nil]
    exact .cons ⟨rfl, rfl⟩ .nil
  | separator c cs hs ih =>
    rw [tokens_separator p hs, tokens_separator q hs]
    exact ih _ _
  | symbol c cs hs ha ih =>
    rw [tokens_symbol p hs ha, tokens_symbol q hs ha]
    exact .cons (matches_ofSymbol c p q) (ih _ _)
  | word word rest hne hw hr ih =>
    rw [tokens_word p hne hw hr, tokens_word q hne hw hr]
    exact .cons (matches_ofWord word p q) (ih _ _)

theorem dropLast_tokens_matches (cs : List Char) (p q : Position) :
    List.Forall₂ Token.Matches (mk cs p).tokens.dropLast (mk cs q).tokens.dropLast := by
  have h := tokens_matches cs p q
  rw [List.dropLast_eq_take, List.dropLast_eq_take, h.length_eq]
  exact List.forall₂_take _ h

theorem name?_bare (kind : Token.Kind) (position : Position) :
    (Token.bare kind position).name? = none := by
  unfold Token.name?
  split
  · rfl
  · rfl

theorem name?_ofSymbol (c : Char) (position : Position) :
    (Token.ofSymbol c position).name? = none := by
  unfold Token.ofSymbol
  split
  · exact name?_bare _ _
  · split
    · exact name?_bare _ _
    · rfl

theorem kind_ofSymbol_ne_identifier (c : Char) (position : Position) :
    (Token.ofSymbol c position).kind ≠ .identifier := by
  unfold Token.ofSymbol
  split
  · nofun
  · split
    · nofun
    · nofun

theorem kind_ne_identifier_of_keyword? {kind : Token.Kind}
    (h : Token.Kind.keyword? word = some kind) : kind ≠ .identifier := by
  unfold Token.Kind.keyword? at h
  split at h <;> cases h <;> nofun

theorem isAlpha_of_keyword? {kind : Token.Kind} (h : Token.Kind.keyword? word = some kind) :
    word ≠ [] ∧ ∀ c ∈ word, c.isAlpha = true := by
  have hupper : word.map Char.toUpper ≠ [] ∧
      ∀ c ∈ word.map Char.toUpper, c.isAlpha = true := by
    unfold Token.Kind.keyword? at h
    split at h <;> simp_all
  obtain ⟨hne, hletters⟩ := hupper
  refine ⟨by simpa using hne, fun c hc => ?_⟩
  exact Char.isAlpha_of_isAlpha_toUpper (hletters _ (List.mem_map_of_mem hc))

theorem isName_ofList (hne : word ≠ []) (hw : ∀ c ∈ word, c.isAlpha = true)
    (hk : Token.Kind.keyword? word = none) : IsName (String.ofList word) := by
  refine ⟨by simpa using hne, by simpa using hw, fun hmem => ?_⟩
  have hupper : ∀ keyword, (String.ofList word).toUpper = keyword →
      word.map Char.toUpper = keyword.toList := by
    rintro keyword rfl
    rw [String.toUpper, String.toList_map, String.toList_ofList]
  simp only [List.mem_cons, List.not_mem_nil, or_false] at hmem
  rcases hmem with h | h | h | h <;> simp [Token.Kind.keyword?, hupper _ h] at hk

theorem ofWord_eq_identifier {position : Position} (hne : word ≠ [])
    (hw : ∀ c ∈ word, c.isAlpha = true) : (Token.ofWord word position).kind ≠ .identifier ∨
      ∃ name, IsName name ∧ Token.ofWord word position = .identifier name position := by
  unfold Token.ofWord
  split
  · next hk => exact .inl (kind_ne_identifier_of_keyword? hk)
  · next hk => exact .inr ⟨_, isName_ofList hne hw hk, rfl⟩

/-- A token is an identifier with a name, or carries no name. -/
theorem eq_identifier_of_mem_tokens {t : Token} {position : Position}
    (ht : t ∈ (mk cs position).tokens) :
    (t.kind ≠ .identifier ∧ t.name? = none) ∨
      ∃ name, IsName name ∧ t = .identifier name t.position := by
  suffices h : t.kind ≠ .identifier ∨ ∃ name, IsName name ∧ t = .identifier name t.position from
    h.imp_left fun hk => ⟨hk, if_neg hk⟩
  induction cs using text_induction generalizing position with
  | nil =>
    rw [tokens_nil, List.mem_singleton] at ht
    subst ht
    exact .inl nofun
  | separator c cs hs ih =>
    rw [tokens_separator position hs] at ht
    exact ih ht
  | symbol c cs hs ha ih =>
    rw [tokens_symbol position hs ha] at ht
    rcases List.mem_cons.mp ht with rfl | ht
    · exact .inl (kind_ofSymbol_ne_identifier c position)
    · exact ih ht
  | word word rest hne hw hr ih =>
    rw [tokens_word position hne hw hr] at ht
    rcases List.mem_cons.mp ht with rfl | ht
    · refine (ofWord_eq_identifier hne hw).imp_right fun ⟨name, hname, heq⟩ => ⟨name, hname, ?_⟩
      rw [heq]
      rfl
    · exact ih ht

/-- Only names are carried by tokens. -/
theorem isName_of_mem_tokens {t : Token} {name : String} {position : Position}
    (ht : t ∈ (mk cs position).tokens) (h : t.name? = some name) : IsName name := by
  rcases eq_identifier_of_mem_tokens ht with ⟨-, hnone⟩ | ⟨other, hother, heq⟩
  · rw [hnone] at h
    cases h
  · rw [heq] at h
    obtain rfl := Option.some.inj h
    exact hother

/-- Every identifier carries a name. -/
theorem kind_ne_identifier_of_name? {t : Token} {position : Position}
    (ht : t ∈ (mk cs position).tokens) (h : t.name? = none) : t.kind ≠ .identifier := by
  induction cs using text_induction generalizing position with
  | nil =>
    rw [tokens_nil, List.mem_singleton] at ht
    subst ht
    nofun
  | separator c cs hs ih =>
    rw [tokens_separator position hs] at ht
    exact ih ht
  | symbol c cs hs ha ih =>
    rw [tokens_symbol position hs ha] at ht
    rcases List.mem_cons.mp ht with rfl | ht
    · exact kind_ofSymbol_ne_identifier c position
    · exact ih ht
  | word word rest hne hw hr ih =>
    rw [tokens_word position hne hw hr] at ht
    rcases List.mem_cons.mp ht with rfl | ht
    · unfold Token.ofWord at h ⊢
      split at h
      · exact kind_ne_identifier_of_keyword? ‹_›
      · cases h
    · exact ih ht

-- ---------------------------------------------------------------------------
-- Places between tokens
-- ---------------------------------------------------------------------------

/-- No word goes on from the one text into the other. -/
def Boundary (a b : List Char) : Prop := (∀ c ∈ a.getLast?, c.isAlpha = false) ∨ Breaks b

theorem Boundary.of_append (h : Boundary (a ++ cs) b) : Boundary cs b := by
  rcases h with h | h
  · refine .inl fun c hc => h c ?_
    rw [List.getLast?_append, hc]
    rfl
  · exact .inr h

theorem Boundary.breaks (h : Boundary word b) (hne : word ≠ [])
    (hw : ∀ c ∈ word, c.isAlpha = true) : Breaks b := by
  rcases h with h | h
  · -- the last letter of the word would have to be none
    rw [List.getLast?_eq_some_getLast hne] at h
    have := h _ rfl
    rw [hw _ (List.getLast_mem hne)] at this
    cases this
  · exact h

theorem Boundary.breaks_append (h : Boundary (word ++ rest) b) (hne : word ≠ [])
    (hw : ∀ c ∈ word, c.isAlpha = true) (hr : Breaks rest) : Breaks (rest ++ b) := by
  cases rest with
  | nil =>
    rw [List.append_nil] at h
    exact h.breaks hne hw
  | cons c cs => exact breaks_cons (hr c rfl)

theorem tokens_ne_nil (s : Scanner) : s.tokens ≠ [] := by
  rw [tokens]
  split <;> simp

theorem tokens_append (h : Boundary a b) (position : Position) :
    (mk (a ++ b) position).tokens =
      (mk a position).tokens.dropLast ++ (mk b (position.afterAll a)).tokens := by
  induction a using text_induction generalizing position with
  | nil =>
    rw [tokens_nil]
    rfl
  | separator c cs hs ih =>
    rw [List.cons_append, tokens_separator position hs, tokens_separator position hs]
    exact ih (h.of_append (a := [c])) _
  | symbol c cs hs ha ih =>
    rw [List.cons_append, tokens_symbol position hs ha, tokens_symbol position hs ha,
      List.dropLast_cons_of_ne_nil (tokens_ne_nil _), ih (h.of_append (a := [c]))]
    rfl
  | word word rest hne hw hr ih =>
    rw [List.append_assoc, tokens_word position hne hw (h.breaks_append hne hw hr),
      tokens_word position hne hw hr, List.dropLast_cons_of_ne_nil (tokens_ne_nil _),
      ih h.of_append, Position.afterAll_append]
    rfl

end Scanner

end LogicCalculator
