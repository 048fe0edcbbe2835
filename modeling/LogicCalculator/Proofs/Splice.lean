import LogicCalculator.Proofs.Calculation
import LogicCalculator.Proofs.Grammar.Substitution

/-!
# Texts in the place of identifiers

Texts of terms can be written for the identifiers of a text. The tokens are
then those of the terms in the places of the identifiers (`replaces_tokens`),
so the text means the tree with the trees of the terms in the places of its
variables. An expression becomes a term in parentheses, which need levels of
their own (`parse_splice`).
-/

namespace LogicCalculator

namespace Scanner

variable {c : Char} {cs word rest : List Char} {s : Stratum} {σ : String → Phrase}
  {τ : String → String}

/-- Writes other texts for the words of a text. -/
def mapWords (f : List Char → List Char) : List Char → List Char
  | [] => []
  | c :: cs =>
    if c.isAlpha then
      f (c :: cs.takeWhile Char.isAlpha) ++ mapWords f (cs.dropWhile Char.isAlpha)
    else c :: mapWords f cs
termination_by cs => cs.length
decreasing_by
  · exact Nat.lt_succ_of_le (length_dropWhile_le Char.isAlpha cs)
  · exact Nat.lt_succ_self _

theorem mapWords_cons (f : List Char → List Char) (cs : List Char) (hc : c.isAlpha = false) :
    mapWords f (c :: cs) = c :: mapWords f cs := by
  rw [mapWords, if_neg (Bool.eq_false_iff.mp hc)]

theorem mapWords_word (f : List Char → List Char) (hne : word ≠ [])
    (hw : ∀ c ∈ word, c.isAlpha = true) (hr : Breaks rest) :
    mapWords f (word ++ rest) = f word ++ mapWords f rest := by
  obtain ⟨c, letters, rfl⟩ := List.exists_cons_of_ne_nil hne
  obtain ⟨hc, hletters⟩ := List.forall_mem_cons.mp hw
  rw [List.cons_append, mapWords, if_pos hc, List.takeWhile_append_of_head hletters hr,
    List.dropWhile_append_of_head hletters hr]

theorem breaks_mapWords (f : List Char → List Char) (h : Breaks cs) : Breaks (mapWords f cs) := by
  cases cs with
  | nil =>
    rw [mapWords]
    exact h
  | cons c cs =>
    rw [mapWords_cons f cs (h c rfl)]
    exact breaks_cons (h c rfl)

/-- The text of an identifier with its name. Keywords stay. -/
def substWord (τ : String → String) (word : List Char) : List Char :=
  match Token.Kind.keyword? word with
  | some _ => word
  | none => (τ (String.ofList word)).toList

-- ---------------------------------------------------------------------------
-- Tokens
-- ---------------------------------------------------------------------------

/-- A text is spelled by its characters wherever no letter goes on with them. -/
theorem spells_of_derives {source : String} {c : Phrase} (d : Derives s (words source) c) :
    Spells s source.toList c := by
  intro rest position hrest
  have hd := d.of_matches (dropLast_tokens_matches source.toList .start position)
  exact ⟨_, hd, tokens_append (.inr hrest) position⟩

theorem replaces_tokens (hτ : ∀ name, IsName name → Spells .term (τ name).toList (σ name))
    (cs : List Char) (p q : Position) :
    Replaces σ (mk cs p).tokens.dropLast (mk (mapWords (substWord τ) cs) q).tokens.dropLast := by
  induction cs using text_induction generalizing p q with
  | nil =>
    rw [mapWords, tokens_nil, tokens_nil]
    exact .nil
  | separator c cs hs ih =>
    rw [mapWords_cons _ _ (isAlpha_eq_false_of_isSeparator hs), tokens_separator p hs,
      tokens_separator q hs]
    exact ih _ _
  | symbol c cs hs hc ih =>
    rw [mapWords_cons _ _ hc, tokens_symbol p hs hc, tokens_symbol q hs hc,
      List.dropLast_cons_of_ne_nil (tokens_ne_nil _),
      List.dropLast_cons_of_ne_nil (tokens_ne_nil _)]
    exact .other (name?_ofSymbol c p) (matches_ofSymbol c p q) (ih _ _)
  | word word rest hne hw hr ih =>
    rw [mapWords_word _ hne hw hr, tokens_word p hne hw hr,
      List.dropLast_cons_of_ne_nil (tokens_ne_nil _)]
    have hrest : Breaks (mapWords (substWord τ) rest) := breaks_mapWords _ hr
    cases hk : Token.Kind.keyword? word with
    | some kind =>
      rw [substWord, hk]
      dsimp only
      rw [tokens_word q hne hw hrest, List.dropLast_cons_of_ne_nil (tokens_ne_nil _)]
      refine .other ?_ (matches_ofWord word p q) (ih _ _)
      rw [Token.ofWord, hk]
      exact name?_bare kind p
    | none =>
      obtain ⟨v, hv, htokens⟩ := hτ _ (isName_ofList hne hw hk) _ q hrest
      rw [substWord, hk]
      dsimp only
      rw [htokens, List.dropLast_append_of_ne_nil (tokens_ne_nil _)]
      refine .name ?_ hv (ih _ _)
      rw [Token.ofWord, hk]
      rfl

/-- A text with the texts of terms for its identifiers. -/
theorem derives_words_subst {source : String} {c : Phrase}
    (hτ : ∀ name, IsName name → Spells .term (τ name).toList (σ name))
    (d : Derives s (words source) c) :
    Derives s (words (String.ofList (mapWords (substWord τ) source.toList))) (c.subst σ) := by
  refine d.subst ?_
  rw [words, words, tokenize, tokenize, ofString, ofString, String.toList_ofList]
  exact replaces_tokens hτ _ _ _

end Scanner

/-- The text with texts for the names of its identifiers. -/
def substNames (τ : String → String) (source : String) : String :=
  String.ofList (Scanner.mapWords (Scanner.substWord τ) source.toList)

theorem spells_update {replacement : String} {c : Phrase}
    (d : Derives .expression (words replacement) c) (name other : String) (h : IsName other) :
    Scanner.Spells .term (Function.update id name ("(" ++ replacement ++ ")") other).toList
      (Function.update Phrase.ident name (.group c) other) := by
  by_cases he : other = name
  · subst he
    rw [Function.update_self, Function.update_self]
    simpa using (Scanner.spells_of_derives d).group
  · rw [Function.update_of_ne he, Function.update_of_ne he]
    exact Scanner.spells_ident h

theorem erase_update (name : String) (c : Phrase) :
    (fun other => (Function.update Phrase.ident name (.group c) other).erase) =
      Function.update Expr.var name c.erase := by
  funext other
  by_cases he : other = name
  · subst he
    simp [Phrase.erase]
  · simp [Function.update_of_ne he, Phrase.erase]

/-- The text with an expression in parentheses for a name takes too many levels,
or else it is read as the tree with the tree of the expression for the name. -/
theorem parse_substNames {source replacement : String} {t u : Expr} (name : String)
    (hs : (Parser.ofString source).parse.1 = some t)
    (hr : (Parser.ofString replacement).parse.1 = some u) :
    let r := (Parser.ofString (substNames
      (Function.update id name ("(" ++ replacement ++ ")")) source)).parse
    r.1 = some (t.subst (Function.update .var name u)) ∧ r.2.errors = #[] ∨
      r.1 = none ∧ ∃ position, r.2.errors = #[⟨.nestingTooDeep 256, position⟩] := by
  obtain ⟨c, d, -, rfl⟩ := Parser.exists_derives_of_parse hs
  obtain ⟨c', d', -, rfl⟩ := Parser.exists_derives_of_parse hr
  rw [← erase_update, ← Phrase.erase_subst]
  have hd := Scanner.derives_words_subst (spells_update d' name) d
  rcases Nat.lt_or_ge nestingLimit _ with hdeep | hfits
  · exact .inr (Parser.parse_of_lt_demand hd hdeep)
  · exact .inl (Parser.parse_of_demand_le hd hfits)

/-- An expression in parentheses in the place of each variable of a name: the
text is read as the tree with the tree of the expression in these places, or it
takes too many levels. Where it is read, it has the value that the text had with
the value of the expression for the variable. -/
theorem parse_splice {source replacement : String} {t u : Expr} (name : String)
    (hs : (Parser.ofString source).parse.1 = some t)
    (hr : (Parser.ofString replacement).parse.1 = some u) :
    let spliced := substNames (Function.update id name ("(" ++ replacement ++ ")")) source
    let r := (Parser.ofString spliced).parse
    (r.1 = some (t.subst (Function.update .var name u)) ∧ r.2.errors = #[] ∨
      r.1 = none ∧ ∃ position, r.2.errors = #[⟨.nestingTooDeep 256, position⟩]) ∧
    ∀ b cr cs, calculate replacement b = .ok cr →
      calculate source (b.insert name cr.result) = .ok cs →
      (∃ c, calculate spliced b = .ok c ∧ c.result = cs.result) ∨
        ∃ position,
          calculate spliced b = .error (.unreadable [⟨.nestingTooDeep 256, position⟩]) := by
  intro spliced r
  have hcases := parse_substNames name hs hr
  refine ⟨hcases, ?_⟩
  intro b cr cs hcr hcs
  obtain ⟨u', hu', hu, rfl⟩ := calculate_eq_ok_iff.mp hcr
  obtain ⟨t', ht', ht, rfl⟩ := calculate_eq_ok_iff.mp hcs
  obtain rfl := Option.some.inj (hr.symm.trans hu')
  obtain rfl := Option.some.inj (hs.symm.trans ht')
  rcases hcases with ⟨hread, -⟩ | ⟨hnone, position, herrors⟩
  · refine .inl ⟨_, calculate_eq_ok_iff.mpr ⟨_, hread, hu.subst_update ht, rfl⟩, ?_⟩
    exact Expr.bit_subst_update b name u t
  · refine .inr ⟨position, calculate_eq_unreadable_iff.mpr ⟨hnone, ?_⟩⟩
    rw [herrors]

theorem parse_splice_below_not :
    let source := "X AND NOT X"
    let replacement := "A OR B"
    let t := Expr.binary .and (.var "X") (.not (.var "X"))
    let u := Expr.binary .or (.var "A") (.var "B")
    let b := Bindings.ofList [("A", .one), ("B", .zero)]
    let spliced := "(A OR B) AND NOT (A OR B)"
    (Parser.ofString source).parse.1 = some t ∧ (Parser.ofString replacement).parse.1 = some u ∧
      spliced = substNames (Function.update id "X" ("(" ++ replacement ++ ")")) source ∧
      (Parser.ofString spliced).parse.1 = some (t.subst (Function.update .var "X" u)) ∧
      ∃ cr cs c, calculate replacement b = .ok cr ∧
        calculate source (b.insert "X" cr.result) = .ok cs ∧
        calculate spliced b = .ok c ∧ c.result = cs.result := by
  intro source replacement t u b spliced
  have hs : (Parser.ofString source).parse.1 = some t := by decide +kernel
  have hr : (Parser.ofString replacement).parse.1 = some u := by decide +kernel
  have hspliced : spliced =
      substNames (Function.update id "X" ("(" ++ replacement ++ ")")) source := by
    decide +kernel
  have hread : (Parser.ofString spliced).parse.1 ≠ none := by decide +kernel
  have hcr := calculate_eq_ok_iff.mpr ⟨u, hr, (by decide : u.IsBound b), rfl⟩
  have hcs := calculate_eq_ok_iff.mpr
    ⟨t, hs, (by decide : t.IsBound (b.insert "X" (u.bit b))), rfl⟩
  obtain ⟨hcases, hvalues⟩ := parse_splice "X" hs hr
  rw [← hspliced] at hcases hvalues
  rcases hcases with ⟨htree, -⟩ | ⟨hnone, -⟩
  · rcases hvalues b _ _ hcr hcs with ⟨c, hc, hresult⟩ | ⟨position, hdeep⟩
    · exact ⟨hs, hr, hspliced, htree, _, _, c, hcr, hcs, hc, hresult⟩
    · exact absurd (calculate_eq_unreadable_iff.mp hdeep).1 hread
  · exact absurd hnone hread

end LogicCalculator
