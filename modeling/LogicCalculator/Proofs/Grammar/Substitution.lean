import LogicCalculator.Proofs.Boundary
import LogicCalculator.Proofs.Grammar.Recognition
import LogicCalculator.Proofs.Substitution

/-!
# Terms in the place of identifiers

A derivation stays one when its identifiers give way to terms
(`Derives.subst`), since a term fits wherever an identifier does. Positions play
no part in a derivation (`Derives.of_matches`), and the names of its tree are
those of its tokens (`Derives.names_erase`, `names_of_parse_eq_some`).
-/

namespace LogicCalculator

namespace Phrase

/-- Puts a phrase in the place of each identifier. -/
def subst (σ : String → Phrase) : Phrase → Phrase
  | ident name => σ name
  | not operand => .not (operand.subst σ)
  | group body => .group (body.subst σ)
  | binary operator left right => .binary operator (left.subst σ) (right.subst σ)

theorem erase_subst (σ : String → Phrase) (c : Phrase) :
    (c.subst σ).erase = c.erase.subst fun name => (σ name).erase := by
  induction c with
  | ident name => rfl
  | not operand ih => rw [subst, erase, ih, erase, Expr.subst]
  | group body ih => rw [subst, erase, ih, erase]
  | binary op left right ihl ihr => rw [subst, erase, ihl, ihr, erase, Expr.subst]

theorem subst_ident (c : Phrase) : c.subst .ident = c := by
  induction c with
  | ident name => rfl
  | not operand ih => rw [subst, ih]
  | group body ih => rw [subst, ih]
  | binary op left right ihl ihr => rw [subst, ihl, ihr]

end Phrase

/-- The second list has a term in the place of each identifier of the first
one, and matching tokens in the places of the others. -/
inductive Replaces (σ : String → Phrase) : List Token → List Token → Prop
  | nil : Replaces σ [] []
  | name {t : Token} {name : String} {v w w' : List Token} :
      t.name? = some name → Derives .term v (σ name) → Replaces σ w w' →
      Replaces σ (t :: w) (v ++ w')
  | other {t u : Token} {w w' : List Token} :
      t.name? = none → t.Matches u → Replaces σ w w' → Replaces σ (t :: w) (u :: w')

section
variable {s : Stratum} {σ : String → Phrase} {c : Phrase} {t : Token} {v w x : List Token}

theorem Replaces.cons (ht : t.name? = none) (h : Replaces σ (t :: w) x) :
    ∃ u y, x = u :: y ∧ u.kind = t.kind ∧ Replaces σ w y := by
  cases h with
  | name hname => cases ht.symm.trans hname
  | other _ hu h => exact ⟨_, _, rfl, hu.kind, h⟩

theorem Replaces.append (h : Replaces σ (v ++ w) x) :
    ∃ y z, x = y ++ z ∧ Replaces σ v y ∧ Replaces σ w z := by
  induction v generalizing x with
  | nil => exact ⟨[], x, rfl, .nil, h⟩
  | cons t v ih =>
    cases h with
    | @name _ name u _ _ ht hu h =>
      obtain ⟨y, z, rfl, hy, hz⟩ := ih h
      exact ⟨u ++ y, z, (List.append_assoc ..).symm, .name ht hu hy, hz⟩
    | @other _ u _ _ ht hu h =>
      obtain ⟨y, z, rfl, hy, hz⟩ := ih h
      exact ⟨u :: y, z, rfl, .other ht hu hy, hz⟩

theorem name?_eq_none_of_ofKind? {op : BinaryOperator}
    (h : BinaryOperator.ofKind? t.kind = some op) : t.name? = none :=
  Parser.name?_eq_none fun hk => by simp [hk, BinaryOperator.ofKind?] at h

theorem Derives.subst (d : Derives s w c) (h : Replaces σ w x) : Derives s x (c.subst σ) := by
  induction d generalizing x with
  | ident ht =>
    cases h with
    | name ht' hv h =>
      cases h
      obtain rfl := Option.some.inj (ht.symm.trans ht')
      rwa [List.append_nil]
    | other ht' => cases ht.symm.trans ht'
  | not ht _ ih =>
    obtain ⟨u, y, rfl, hu, hy⟩ := h.cons (Parser.name?_eq_none (by simp [ht]))
    exact .not (hu.trans ht) (ih hy)
  | group ht _ ht' ih =>
    obtain ⟨u, _, rfl, hu, hbody⟩ := h.cons (Parser.name?_eq_none (by simp [ht]))
    obtain ⟨y, _, rfl, hy, hclose⟩ := hbody.append
    obtain ⟨u', _, rfl, hu', hnil⟩ := hclose.cons (Parser.name?_eq_none (by simp [ht']))
    cases hnil
    exact .group (hu.trans ht) (ih hy) (hu'.trans ht')
  | single _ ih => exact .single (ih h)
  | chain _ ht _ ihl ihr =>
    obtain ⟨y, _, rfl, hy, hbehind⟩ := h.append
    obtain ⟨u, z, rfl, hu, hz⟩ := hbehind.cons (name?_eq_none_of_ofKind? ht)
    exact .chain (ihl hy) (hu ▸ ht) (ihr hz)

-- ---------------------------------------------------------------------------
-- Positions and names
-- ---------------------------------------------------------------------------

theorem replaces_of_matches (h : List.Forall₂ Token.Matches w x) : Replaces .ident w x := by
  induction h with
  | nil => exact .nil
  | @cons t u _ _ htu _ ih =>
    cases ht : t.name? with
    | some name => exact .name ht (.ident (htu.name?.trans ht)) ih
    | none => exact .other ht htu ih

theorem Derives.of_matches (d : Derives s w c) (h : List.Forall₂ Token.Matches w x) :
    Derives s x c := by
  have := d.subst (replaces_of_matches h)
  rwa [Phrase.subst_ident] at this

/-- The names of the tree, in the order in which the tokens carry them. -/
theorem Derives.names_erase (d : Derives s w c) : c.erase.names = w.filterMap Token.name? := by
  induction d with
  | ident ht => simp [Phrase.erase, Expr.names, ht]
  | not ht _ ih =>
    rw [Phrase.erase, Expr.names, ih, List.filterMap_cons_none]
    exact Parser.name?_eq_none (by simp [ht])
  | @group t u _ _ ht _ ht' ih =>
    have hopen : t.name? = none := Parser.name?_eq_none (by simp [ht])
    have hclose : u.name? = none := Parser.name?_eq_none (by simp [ht'])
    simp [Phrase.erase, ih, hopen, hclose]
  | single _ ih => exact ih
  | chain _ ht _ ihl ihr =>
    rw [Phrase.erase, Expr.names, ihl, ihr, List.filterMap_append, List.filterMap_cons_none]
    exact name?_eq_none_of_ofKind? ht

end

/-- The names that the identifiers of a text carry, from left to right. -/
def identifiers (source : String) : List String := (tokenize source).filterMap Token.name?

/-- The variables of a tree are the identifiers of the text that it is read from. -/
theorem names_of_parse_eq_some {source : String} {e : Expr}
    (h : (Parser.ofString source).parse.1 = some e) : e.names = identifiers source := by
  obtain ⟨c, d, -, rfl⟩ := Parser.exists_derives_of_parse h
  obtain ⟨t, ht, htokens, -⟩ := tokenize_eq_words_append source
  have hname : t.name? = none := Parser.name?_eq_none (by simp [ht])
  rw [d.names_erase, identifiers, htokens, List.filterMap_append, List.filterMap_cons_none hname,
    List.filterMap_nil, List.append_nil]

theorem isName_of_mem_identifiers {source : String} :
    ∀ name ∈ identifiers source, IsName name := by
  intro name hname
  obtain ⟨t, ht, htname⟩ := List.mem_filterMap.mp hname
  exact Scanner.isName_of_mem_tokens ht htname

theorem isName_of_parse_eq_some {source : String} {e : Expr}
    (h : (Parser.ofString source).parse.1 = some e) : ∀ name ∈ e.names, IsName name := by
  rw [names_of_parse_eq_some h]
  exact isName_of_mem_identifiers

end LogicCalculator
