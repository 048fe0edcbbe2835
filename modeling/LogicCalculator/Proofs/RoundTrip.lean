import LogicCalculator.Expr.Text
import LogicCalculator.Proofs.Grammar.Recognition
import LogicCalculator.Proofs.Variables

/-!
# Reading what was written

The text of a tree spells the tree with a group around every operator
(`spells_text`), so reading it gives the tree back unless its groups and
operators take more levels than there are (`parse_text`).
-/

namespace LogicCalculator

namespace Expr

/-- How many levels the text of a tree takes. A left operand stands in the
group of its operator, a right operand behind the operator. -/
def cost : Expr → Nat
  | var _ => 1
  | not operand => operand.cost + 2
  | binary _ left right => max (left.cost + 1) (right.cost + 3)

def phrase : Expr → Phrase
  | var name => .ident name
  | not operand => .group (.not operand.phrase)
  | binary operator left right => .group (.binary operator left.phrase right.phrase)

@[simp] theorem erase_phrase (e : Expr) : e.phrase.erase = e := by
  induction e with
  | var name => rfl
  | not operand ih => simp [phrase, Phrase.erase, ih]
  | binary op l r ihl ihr => simp [phrase, Phrase.erase, ihl, ihr]

@[simp] theorem spine_phrase (e : Expr) : e.phrase.spine = 0 := by
  cases e <;> rfl

@[simp] theorem demand_phrase (e : Expr) : e.phrase.demand = e.cost := by
  induction e with
  | var name => rfl
  | not operand ih => simp [phrase, Phrase.demand, cost, ih]
  | binary op l r ihl ihr =>
    simp only [phrase, Phrase.demand, cost, ihl, ihr, spine_phrase]
    omega

end Expr

namespace Scanner

variable {s s' : Stratum} {cs ds word : List Char} {c l r : Phrase}

/-- The characters are the text of a phrase, unless a letter stands behind them. -/
def Spells (s : Stratum) (cs : List Char) (c : Phrase) : Prop :=
  ∀ (rest : List Char) (position : Position), Breaks rest → ∃ w, Derives s w c ∧
    (mk (cs ++ rest) position).tokens = w ++ (mk rest (position.afterAll cs)).tokens

theorem Spells.widen (h : Spells s cs c) (hs : s'.rank ≤ s.rank) : Spells s' cs c := by
  intro rest position hrest
  obtain ⟨w, hd, hw⟩ := h rest position hrest
  exact ⟨w, hd.widen hs, hw⟩

-- ---------------------------------------------------------------------------
-- Groups and keywords
-- ---------------------------------------------------------------------------

theorem Spells.group (h : Spells .expression cs c) :
    Spells .term ('(' :: (cs ++ [')'])) (.group c) := by
  intro rest position _
  obtain ⟨w, hd, hw⟩ := h (')' :: rest) (position.after '(') (breaks_cons rfl)
  let behind := (position.after '(').afterAll cs
  refine ⟨.bare .leftParen position :: (w ++ [.bare .rightParen behind]), .group rfl hd rfl, ?_⟩
  have hclose : (mk (')' :: rest) behind).tokens =
      .bare .rightParen behind :: (mk rest (behind.after ')')).tokens :=
    tokens_symbol behind rfl rfl
  simp only [List.cons_append, List.append_assoc, List.nil_append, Position.afterAll_cons,
    Position.afterAll_append, Position.afterAll_nil]
  rw [tokens_symbol position rfl rfl, hw, hclose]
  rfl

theorem tokens_keyword (position : Position) (kind : Token.Kind)
    (hk : Token.Kind.keyword? word = some kind) (hw : ∀ c ∈ word, c.isAlpha = true) :
    (mk (word ++ ' ' :: cs) position).tokens =
      .bare kind position :: (mk cs ((position.afterAll word).after ' ')).tokens := by
  have hne : word ≠ [] := by
    rintro rfl
    simp [Token.Kind.keyword?] at hk
  rw [tokens_word position hne hw (breaks_cons rfl), tokens_separator _ rfl, Token.ofWord, hk]

theorem Spells.not (h : Spells .term cs c) :
    Spells .term ("NOT".toList ++ ' ' :: cs) (.not c) := by
  intro rest position hrest
  obtain ⟨w, hd, hw⟩ := h rest ((position.afterAll "NOT".toList).after ' ') hrest
  refine ⟨.bare .not position :: w, .not rfl hd, ?_⟩
  rw [List.append_assoc, List.cons_append, tokens_keyword position .not rfl (by simp),
    hw, Position.afterAll_append, Position.afterAll_cons]
  rfl

theorem isAlpha_keyword (op : BinaryOperator) :
    ∀ c ∈ op.keyword.toList, c.isAlpha = true := by
  cases op <;> simp [BinaryOperator.keyword]

theorem keyword?_keyword (op : BinaryOperator) : ∃ kind,
    Token.Kind.keyword? op.keyword.toList = some kind ∧ BinaryOperator.ofKind? kind = some op := by
  cases op <;> exact ⟨_, rfl, rfl⟩

theorem Spells.chain (op : BinaryOperator) (hl : Spells (.chain op) cs l)
    (hr : Spells op.operands ds r) :
    Spells (.chain op) (cs ++ ' ' :: (op.keyword.toList ++ ' ' :: ds)) (.binary op l r) := by
  intro rest position hrest
  obtain ⟨kind, hkey, hkind⟩ := keyword?_keyword op
  let behind := (position.afterAll cs).after ' '
  obtain ⟨v, hdl, hv⟩ := hl (' ' :: (op.keyword.toList ++ ' ' :: (ds ++ rest))) position
    (breaks_cons rfl)
  obtain ⟨w, hdr, hw⟩ := hr rest ((behind.afterAll op.keyword.toList).after ' ') hrest
  have hd : Derives (.chain op) (v ++ .bare kind behind :: w) (.binary op l r) :=
    .chain hdl hkind hdr
  refine ⟨_, hd, ?_⟩
  simp only [List.append_assoc, List.cons_append, Position.afterAll_append, Position.afterAll_cons]
  rw [hv, tokens_separator _ rfl, tokens_keyword _ kind hkey (isAlpha_keyword op), hw]

/-- An operator between terms, such as groups and names. -/
theorem Spells.binary (op : BinaryOperator) (hl : Spells .term cs l) (hr : Spells .term ds r) :
    Spells .expression (cs ++ ' ' :: (op.keyword.toList ++ ' ' :: ds)) (.binary op l r) :=
  ((hl.widen (Stratum.rank_le_term _)).chain op (hr.widen (Stratum.rank_le_term _))).widen
    (Stratum.rank_expression_le _)

-- ---------------------------------------------------------------------------
-- Trees
-- ---------------------------------------------------------------------------

theorem spells_ident {name : String} (h : IsName name) :
    Spells .term name.toList (.ident name) := by
  intro rest position hrest
  have hne : name.toList ≠ [] := fun hn => h.1 (String.toList_eq_nil_iff.mp hn)
  refine ⟨[.identifier name position], .ident rfl, ?_⟩
  rw [tokens_word position hne (List.all_eq_true.mp h.2.1) hrest, h.ofWord]
  rfl

theorem spells_text {e : Expr} (h : ∀ name ∈ e.names, IsName name) :
    Spells .term e.text.toList e.phrase := by
  induction e with
  | var name => exact spells_ident (h name (by simp [Expr.names]))
  | not operand ih =>
    have := ((ih h).not.widen (Stratum.rank_expression_le _)).group
    simpa [Expr.text_not, Expr.notKeyword, Expr.phrase] using this
  | binary op left right ihl ihr =>
    rw [Expr.names, List.forall_mem_append] at h
    have := ((ihl h.1).binary op (ihr h.2)).group
    simpa [Expr.text_binary, Expr.phrase] using this

end Scanner

theorem derives_words_of_spells {source : String} {s : Stratum} {c : Phrase}
    (h : Scanner.Spells s source.toList c) : Derives .expression (words source) c := by
  obtain ⟨w, hd, hw⟩ := h [] .start (by simp [Scanner.Breaks])
  rw [List.append_nil, Scanner.tokens_nil] at hw
  have : words source = w := by
    rw [words, tokenize, Scanner.ofString, hw, List.dropLast_concat]
  rw [this]
  exact hd.widen (Stratum.rank_expression_le _)

theorem derives_words_text {e : Expr} (h : ∀ name ∈ e.names, IsName name) :
    Derives .expression (words e.text) e.phrase :=
  derives_words_of_spells (Scanner.spells_text h)

/-- A text that was written from a tree is read as that tree, and without a
fault, if and only if the tree costs no more levels than there are. Otherwise
that is the only fault. -/
theorem parse_text (e : Expr) (h : ∀ name ∈ e.names, IsName name) :
    (e.cost ≤ 256 → (Parser.ofString e.text).parse.1 = some e ∧
      (Parser.ofString e.text).parse.2.errors = #[]) ∧
    (256 < e.cost → (Parser.ofString e.text).parse.1 = none ∧
      ∃ position, (Parser.ofString e.text).parse.2.errors =
        #[⟨.nestingTooDeep 256, position⟩]) := by
  have hout := Parser.parse_outcome (derives_words_text h)
  rw [Expr.erase_phrase, Expr.demand_phrase] at hout
  generalize (Parser.ofString e.text).parse = r at hout ⊢
  cases hout with
  | read hfits hq =>
    exact ⟨fun _ => ⟨rfl, hq.errors⟩, fun hc => absurd hfits (Nat.not_le.mpr hc)⟩
  | exhausted hfits hq =>
    exact ⟨fun hc => absurd hc hfits, fun _ => ⟨rfl, hq.errors⟩⟩

theorem parse_text_within_and_beyond :
    let near := Expr.binary .and (.var "x") (.not (.var "Carry"))
    let far := Nat.repeat Expr.not 128 (.var "x")
    ((∀ name ∈ near.names, IsName name) ∧ (Parser.ofString near.text).parse.1 = some near) ∧
      (∀ name ∈ far.names, IsName name) ∧ (Parser.ofString far.text).parse.1 = none := by
  have hnear : ∀ name ∈ (Expr.binary .and (.var "x") (.not (.var "Carry"))).names, IsName name := by
    decide +kernel
  have hfar : ∀ name ∈ (Nat.repeat Expr.not 128 (.var "x")).names, IsName name := by
    decide +kernel
  exact ⟨⟨hnear, ((parse_text _ hnear).1 (by decide)).1⟩,
    hfar, ((parse_text _ hfar).2 (by decide +kernel)).1⟩

end LogicCalculator
