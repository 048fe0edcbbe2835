import Mathlib.Logic.Relation
import LogicCalculator.Proofs.Calculation
import LogicCalculator.Proofs.Parallel

/-!
# Layout and the casing of keywords

Blanks between tokens and the casing of keywords are lost in scanning: however
they are changed, the tokens match (`Edit.alike`). Texts whose tokens match mean
the same, and what is wrong with one of them is wrong with the other at the same
token (`layout_irrelevant`).
-/

namespace LogicCalculator

theorem Token.Matches.trans {t u v : Token} (h : t.Matches u) (h' : u.Matches v) : t.Matches v :=
  ⟨h'.kind.trans h.kind, h'.name?.trans h.name?⟩

theorem Token.Matches.symm {t u : Token} (h : t.Matches u) : u.Matches t :=
  ⟨h.kind.symm, h.name?.symm⟩

/-- The tokens match and stand at one index of the two sequences. -/
def Token.Abreast (ts us : List Token) (t u : Token) : Prop :=
  t.Matches u ∧ ∃ i : Nat, ts[i]? = some t ∧ us[i]? = some u

theorem forall₂_abreast {ts us : List Token} (h : List.Forall₂ Token.Matches ts us) :
    List.Forall₂ (Token.Abreast ts us) ts us := by
  obtain ⟨hlength, hget⟩ := List.forall₂_iff_get.mp h
  refine List.forall₂_iff_get.mpr ⟨hlength, fun i ht hu => ⟨hget i ht hu, i, ?_, ?_⟩⟩
  · exact List.getElem?_eq_getElem ht
  · exact List.getElem?_eq_getElem hu

namespace Scanner

variable {a b b' cs ds es word blanks : List Char} {kind : Token.Kind}

-- ---------------------------------------------------------------------------
-- Texts of matching tokens
-- ---------------------------------------------------------------------------

/-- The texts are made of matching tokens, wherever they begin. -/
def Alike (cs ds : List Char) : Prop :=
  ∀ p q, List.Forall₂ Token.Matches (mk cs p).tokens (mk ds q).tokens

theorem Alike.refl (cs : List Char) : Alike cs cs := tokens_matches cs

theorem Alike.symm (h : Alike cs ds) : Alike ds cs := by
  intro p q
  exact ((h q p).imp fun _ _ => Token.Matches.symm).flip

theorem Alike.trans (h : Alike cs ds) (h' : Alike ds es) : Alike cs es := by
  intro p q
  have h := h p .start
  have h' := h' .start q
  generalize (mk cs p).tokens = ts, (mk ds .start).tokens = us, (mk es q).tokens = vs at h h' ⊢
  induction h generalizing vs with
  | nil => exact h'
  | cons ht _ ih =>
    cases h' with
    | cons ht' h' => exact .cons (ht.trans ht') (ih _ h')

theorem Alike.append (h : Alike b b') (hb : Boundary a b) (hb' : Boundary a b') :
    Alike (a ++ b) (a ++ b') := by
  intro p q
  rw [tokens_append hb, tokens_append hb']
  exact List.rel_append (dropLast_tokens_matches a p q) (h _ _)

-- ---------------------------------------------------------------------------
-- Casing
-- ---------------------------------------------------------------------------

theorem keyword?_congr {word' : List Char} (h : word'.map Char.toUpper = word.map Char.toUpper) :
    Token.Kind.keyword? word' = Token.Kind.keyword? word := by
  rw [Token.Kind.keyword?, Token.Kind.keyword?, h]

theorem Boundary.of_word (h : Boundary a word) (hne : word ≠ [])
    (hw : ∀ c ∈ word, c.isAlpha = true) (b : List Char) : Boundary a b := by
  rcases h with h | h
  · exact .inl h
  · obtain ⟨c, letters, rfl⟩ := List.exists_cons_of_ne_nil hne
    have := h c rfl
    rw [hw c (List.mem_cons_self ..)] at this
    cases this

theorem alike_recase {word' : List Char} (hk : Token.Kind.keyword? word = some kind)
    (hk' : Token.Kind.keyword? word' = some kind) (hb : Breaks b) :
    Alike (word ++ b) (word' ++ b) := by
  intro p q
  obtain ⟨hne, hw⟩ := isAlpha_of_keyword? hk
  obtain ⟨hne', hw'⟩ := isAlpha_of_keyword? hk'
  rw [tokens_word p hne hw hb, tokens_word q hne' hw' hb, Token.ofWord, Token.ofWord, hk, hk']
  exact .cons ⟨rfl, (name?_bare kind q).trans (name?_bare kind p).symm⟩ (tokens_matches b _ _)

-- ---------------------------------------------------------------------------
-- Blanks
-- ---------------------------------------------------------------------------

theorem tokens_blanks (h : ∀ c ∈ blanks, isSeparator c = true) (position : Position) :
    (mk (blanks ++ b) position).tokens = (mk b (position.afterAll blanks)).tokens := by
  induction blanks generalizing position with
  | nil => rfl
  | cons c cs ih =>
    obtain ⟨hc, hcs⟩ := List.forall_mem_cons.mp h
    rw [List.cons_append, tokens_separator position hc]
    exact ih hcs _

theorem alike_blanks (h : ∀ c ∈ blanks, isSeparator c = true) : Alike b (blanks ++ b) := by
  intro p q
  rw [tokens_blanks h]
  exact tokens_matches b _ _

theorem Boundary.skip (h : Boundary a b) (hs : ∀ c ∈ blanks, isSeparator c = true) :
    Boundary a (blanks ++ b) := by
  cases blanks with
  | nil => exact h
  | cons c cs =>
    have hc := isAlpha_eq_false_of_isSeparator (hs c (List.mem_cons_self ..))
    exact .inr (breaks_cons hc)

-- ---------------------------------------------------------------------------
-- Edits
-- ---------------------------------------------------------------------------

/-- One change of a text that no reader should notice: another casing of a
keyword, or blanks that are put in or taken out at a place where no word goes
on without them. -/
inductive Edit : List Char → List Char → Prop where
  | recase {a b word word' : List Char} {kind : Token.Kind}
      (before : Boundary a word) (behind : Boundary word b)
      (keyword : Token.Kind.keyword? word = some kind)
      (casing : word'.map Char.toUpper = word.map Char.toUpper) :
      Edit (a ++ (word ++ b)) (a ++ (word' ++ b))
  | insert {a b blanks : List Char} (place : Boundary a b)
      (blank : ∀ c ∈ blanks, isSeparator c = true) : Edit (a ++ b) (a ++ (blanks ++ b))
  | delete {a b blanks : List Char} (place : Boundary a b)
      (blank : ∀ c ∈ blanks, isSeparator c = true) : Edit (a ++ (blanks ++ b)) (a ++ b)

theorem Edit.alike (h : Edit cs ds) : Alike cs ds := by
  cases h with
  | recase before behind keyword casing =>
    obtain ⟨hne, hw⟩ := isAlpha_of_keyword? keyword
    have hword := alike_recase keyword ((keyword?_congr casing).trans keyword)
      (behind.breaks hne hw)
    exact hword.append (before.of_word hne hw _) (before.of_word hne hw _)
  | insert place blank => exact (alike_blanks blank).append place (place.skip blank)
  | delete place blank => exact ((alike_blanks blank).append place (place.skip blank)).symm

theorem alike_of_edits (h : Relation.ReflTransGen Edit cs ds) : Alike cs ds := by
  induction h with
  | refl => exact .refl cs
  | tail _ hedit ih => exact ih.trans hedit.alike

end Scanner

/-- Texts of matching tokens are read side by side. -/
theorem parse_agree_of_matches {source other : String}
    (h : List.Forall₂ Token.Matches (tokenize source) (tokenize other)) :
    Parser.Agree (Token.Abreast (tokenize source) (tokenize other)) []
      (Parser.ofString source).parse (Parser.ofString other).parse := by
  refine Parser.parse_agree (fun _ _ h => h.1) ⟨?_, ⟨[], rfl, .nil⟩, rfl⟩
  rw [Parser.tokens_ofString, Parser.tokens_ofString]
  exact forall₂_abreast h

/-- Layout and the casing of keywords make no difference: edits of them leave
the tokens as they were but for positions, and from such tokens the same tree is
read, or the same faults are found at the same tokens, so calculations end in
the same way. -/
theorem layout_irrelevant (source other : String) :
    (Relation.ReflTransGen Scanner.Edit source.toList other.toList →
      List.Forall₂ Token.Matches (tokenize source) (tokenize other)) ∧
    (List.Forall₂ Token.Matches (tokenize source) (tokenize other) →
      let r := (Parser.ofString source).parse
      let s := (Parser.ofString other).parse
      s.1 = r.1 ∧
        List.Forall₂ (SyntaxError.Parallel (Token.Abreast (tokenize source) (tokenize other)))
          r.2.errors.toList s.2.errors.toList ∧
        ∀ b, (r.1 ≠ none → calculate other b = calculate source b) ∧
          (r.1 = none → calculate source b = .error (.unreadable r.2.errors.toList) ∧
            calculate other b = .error (.unreadable s.2.errors.toList))) := by
  refine ⟨fun h => Scanner.alike_of_edits h .start .start, fun h => ?_⟩
  intro r s
  have hagree := parse_agree_of_matches h
  have htree : s.1 = r.1 := hagree.tree
  obtain ⟨faults, hr, hs⟩ := hagree.parser.errors
  refine ⟨htree, ?_, fun b => ⟨fun hread => ?_, fun hnone => ⟨?_, ?_⟩⟩⟩
  · rw [hr]
    exact hs
  · obtain ⟨t, ht⟩ := Option.ne_none_iff_exists'.mp hread
    rw [calculate_of_parse_eq_some ht, calculate_of_parse_eq_some (htree.trans ht)]
  · exact calculate_of_parse_eq_none hnone
  · exact calculate_of_parse_eq_none (htree.trans hnone)

theorem layout_irrelevant_conjunction :
    let source := "x and ("
    let other := "\nx AND("
    let missing := SyntaxError.Cause.unexpectedToken .rightParen .endOfInput
    (∀ rest, List.Forall₂ Token.Matches (tokenize (source ++ rest)) (tokenize (other ++ rest))) ∧
      (∀ b, calculate (source ++ "Y)") b = calculate (other ++ "Y)") b) ∧
      ∀ b, calculate (source ++ "Y") b = .error (.unreadable [⟨missing, ⟨1, 9⟩⟩]) ∧
        calculate (other ++ "Y") b = .error (.unreadable [⟨missing, ⟨2, 8⟩⟩]) := by
  intro source other missing
  have hkeyword : Token.Kind.keyword? "and".toList = some .and := rfl
  have hedits : ∀ rest, Relation.ReflTransGen Scanner.Edit
      (source ++ rest).toList (other ++ rest).toList := by
    intro rest
    rw [String.toList_append, String.toList_append]
    have hcase : Scanner.Edit (['x', ' '] ++ ("and".toList ++ (" (".toList ++ rest.toList)))
        (['x', ' '] ++ ("AND".toList ++ (" (".toList ++ rest.toList))) :=
      .recase (.inl (by simp)) (.inr (Scanner.breaks_cons rfl)) hkeyword rfl
    have hdelete : Scanner.Edit ("x AND".toList ++ ([' '] ++ ("(".toList ++ rest.toList)))
        ("x AND".toList ++ ("(".toList ++ rest.toList)) :=
      .delete (.inr (Scanner.breaks_cons rfl)) (List.forall_mem_singleton.mpr rfl)
    have hinsert : Scanner.Edit ([] ++ ("x AND(".toList ++ rest.toList))
        ([] ++ (['\n'] ++ ("x AND(".toList ++ rest.toList))) :=
      .insert (.inl nofun) (List.forall_mem_singleton.mpr rfl)
    change Relation.ReflTransGen Scanner.Edit ("x and (".toList ++ rest.toList)
      ("\nx AND(".toList ++ rest.toList)
    exact ((Relation.ReflTransGen.single hcase).tail hdelete).tail hinsert
  have htokens : ∀ rest, List.Forall₂ Token.Matches (tokenize (source ++ rest))
      (tokenize (other ++ rest)) :=
    fun rest => (layout_irrelevant (source ++ rest) (other ++ rest)).1 (hedits rest)
  refine ⟨htokens, fun b => ?_, fun b => ?_⟩
  · obtain ⟨-, -, hends⟩ := (layout_irrelevant _ _).2 (htokens "Y)")
    exact ((hends b).1 (by decide +kernel)).symm
  · obtain ⟨-, -, hends⟩ := (layout_irrelevant _ _).2 (htokens "Y")
    have hs : (Parser.ofString (source ++ "Y")).parse.2.errors.toList =
        [⟨missing, ⟨1, 9⟩⟩] := by decide +kernel
    have ho : (Parser.ofString (other ++ "Y")).parse.2.errors.toList =
        [⟨missing, ⟨2, 8⟩⟩] := by decide +kernel
    rw [← hs, ← ho]
    exact (hends b).2 (by decide +kernel)

end LogicCalculator
