import LogicCalculator.Proofs.Calculation
import LogicCalculator.Proofs.Grammar.Substitution

/-!
# Texts read in one way only

The text of a tree shows where it ends within a longer text, so two trees with
one text are one tree, however deep they are (`text_append_inj`). With bits in
the place of names the text still tells the value and all steps
(`unique_reading`). No name may hold what separates the parts of a text.
-/

namespace LogicCalculator

/-- A character that neither separates nor groups. -/
def isPlain (c : Char) : Bool := c ≠ ' ' && c ≠ '(' && c ≠ ')'

theorem isPlain_iff {c : Char} : isPlain c = true ↔ c ≠ ' ' ∧ c ≠ '(' ∧ c ≠ ')' := by
  simp [isPlain, and_assoc]

/-- A name without blanks and parentheses. -/
def IsPlain (name : String) : Prop := name.toList.all isPlain = true

instance (name : String) : Decidable (IsPlain name) := by
  unfold IsPlain
  infer_instance

namespace Expr

/-- The text, with bits for bound variables where bindings are given. -/
def written (b : Option Bindings) (e : Expr) : String :=
  match b with
  | none => e.text
  | some b => e.textWith b

def rename (f : String → String) (e : Expr) : Expr := e.subst fun name => .var (f name)

/-- The tree with bound variables renamed to their bits. -/
def shown (b : Option Bindings) (e : Expr) : Expr :=
  match b with
  | none => e
  | some b => e.rename fun name => ((b.get? name).map Bit.text).getD name

end Expr

-- ---------------------------------------------------------------------------
-- Words within a text
-- ---------------------------------------------------------------------------

/-- A word does not go on here, and no tree begins. -/
def Separates (rest : List Char) : Prop := ∀ c ∈ rest.head?, c = ' ' ∨ c = ')'

section
variable {v w r s : List Char}

theorem separates_nil : Separates [] := nofun

theorem separates_blank (r : List Char) : Separates (' ' :: r) := by simp [Separates]

theorem separates_rightParen (r : List Char) : Separates (')' :: r) := by simp [Separates]

theorem takeWhile_isPlain (hv : v.all isPlain = true) (hr : Separates r) :
    (v ++ r).takeWhile isPlain = v := by
  refine List.takeWhile_append_of_head (List.all_eq_true.mp hv) fun c hc => ?_
  rcases hr c hc with rfl | rfl <;> rfl

theorem append_inj_of_isPlain (hv : v.all isPlain = true) (hw : w.all isPlain = true)
    (hr : Separates r) (hs : Separates s) (h : v ++ r = w ++ s) : v = w ∧ r = s := by
  obtain rfl : v = w := by rw [← takeWhile_isPlain hv hr, h, takeWhile_isPlain hw hs]
  exact ⟨rfl, List.append_cancel_left h⟩

theorem append_ne_leftParen (hv : v.all isPlain = true) (hr : Separates r) :
    v ++ r ≠ '(' :: s := by
  intro h
  cases v with
  | nil =>
    obtain rfl : r = '(' :: s := h
    rcases hr '(' rfl with h | h <;> cases h
  | cons c cs =>
    obtain ⟨rfl, -⟩ := List.cons.inj h
    cases List.all_eq_true.mp hv '(' (List.mem_cons_self ..)

end

-- ---------------------------------------------------------------------------
-- Trees within a text
-- ---------------------------------------------------------------------------

namespace Expr

variable {e f operand left right : Expr} {op : BinaryOperator} {r s v : List Char}

theorem toList_text_not (operand : Expr) (r : List Char) : (not operand).text.toList ++ r =
    '(' :: ("NOT".toList ++ ' ' :: (operand.text.toList ++ ')' :: r)) := by
  simp [text_not, notKeyword]

theorem toList_text_binary (op : BinaryOperator) (left right : Expr) (r : List Char) :
    (binary op left right).text.toList ++ r =
      '(' :: (left.text.toList ++
        ' ' :: (op.keyword.toList ++ ' ' :: (right.text.toList ++ ')' :: r))) := by
  simp [text_binary]

theorem isPlain_notKeyword : IsPlain "NOT" := by decide

theorem isPlain_keyword (op : BinaryOperator) : IsPlain op.keyword := by
  cases op <;> decide

theorem keyword_injective {op op' : BinaryOperator} (h : op.keyword.toList = op'.keyword.toList) :
    op = op' := by
  revert h
  cases op <;> cases op' <;> decide

/-- Where a word stands, no other tree than a variable begins. -/
theorem rest_eq_of_word (hv : v.all isPlain = true) (he : ∀ name ∈ e.names, IsPlain name)
    (hr : Separates r) (hs : Separates s) (h : v ++ r = e.text.toList ++ s) : r = s := by
  cases e with
  | var name => exact (append_inj_of_isPlain hv (he name (List.mem_singleton_self _)) hr hs h).2
  | not operand => exact absurd (h.trans (toList_text_not ..)) (append_ne_leftParen hv hr)
  | binary op left right =>
    exact absurd (h.trans (toList_text_binary ..)) (append_ne_leftParen hv hr)

/-- A left operand that reads `NOT` is followed by an operator, which is no
operand of `NOT` as it ends with a blank. -/
theorem not_ne_binary (ho : ∀ name ∈ operand.names, IsPlain name)
    (hl : ∀ name ∈ left.names, IsPlain name) :
    (not operand).text.toList ++ r ≠ (binary op left right).text.toList ++ s := by
  intro h
  rw [toList_text_not, toList_text_binary] at h
  have hrest := rest_eq_of_word isPlain_notKeyword hl (separates_blank _) (separates_blank _)
    (List.cons.inj h).2
  have hblank := rest_eq_of_word (isPlain_keyword op) ho (separates_blank _)
    (separates_rightParen _) (List.cons.inj hrest).2.symm
  cases (List.cons.inj hblank).1

/-- The text of a tree is read in one way only, and it shows where it ends. -/
theorem text_append_inj (he : ∀ name ∈ e.names, IsPlain name)
    (hf : ∀ name ∈ f.names, IsPlain name) (hr : Separates r) (hs : Separates s)
    (h : e.text.toList ++ r = f.text.toList ++ s) : e = f ∧ r = s := by
  induction e generalizing f r s with
  | var name =>
    have hname := he name (List.mem_singleton_self name)
    cases f with
    | var other =>
      have hother := hf other (List.mem_singleton_self other)
      obtain ⟨hword, hrest⟩ := append_inj_of_isPlain hname hother hr hs h
      exact ⟨congrArg var (String.toList_inj.mp hword), hrest⟩
    | not operand => exact absurd (h.trans (toList_text_not ..)) (append_ne_leftParen hname hr)
    | binary op left right =>
      exact absurd (h.trans (toList_text_binary ..)) (append_ne_leftParen hname hr)
  | not operand ih =>
    cases f with
    | var name =>
      have hname := hf name (List.mem_singleton_self name)
      exact absurd (h.symm.trans (toList_text_not ..)) (append_ne_leftParen hname hs)
    | not operand' =>
      rw [toList_text_not, toList_text_not] at h
      have hoperands := (List.cons.inj (List.append_cancel_left (List.cons.inj h).2)).2
      obtain ⟨rfl, hrest⟩ := ih (f := operand') he hf (separates_rightParen _)
        (separates_rightParen _) hoperands
      exact ⟨rfl, (List.cons.inj hrest).2⟩
    | binary op left right =>
      exact absurd h (not_ne_binary he (List.forall_mem_append.mp hf).1)
  | binary op left right ihl ihr =>
    obtain ⟨hel, her⟩ := List.forall_mem_append.mp he
    cases f with
    | var name =>
      have hname := hf name (List.mem_singleton_self name)
      exact absurd (h.symm.trans (toList_text_binary ..)) (append_ne_leftParen hname hs)
    | not operand => exact absurd h.symm (not_ne_binary hf hel)
    | binary op' left' right' =>
      obtain ⟨hfl, hfr⟩ := List.forall_mem_append.mp hf
      rw [toList_text_binary, toList_text_binary] at h
      obtain ⟨rfl, hoperator⟩ := ihl hel hfl (separates_blank _) (separates_blank _)
        (List.cons.inj h).2
      obtain ⟨hkeyword, hright⟩ := append_inj_of_isPlain (isPlain_keyword op)
        (isPlain_keyword op') (separates_blank _) (separates_blank _) (List.cons.inj hoperator).2
      obtain ⟨rfl, hrest⟩ := ihr her hfr (separates_rightParen _) (separates_rightParen _)
        (List.cons.inj hright).2
      exact ⟨congrArg (binary · left right) (keyword_injective hkeyword), (List.cons.inj hrest).2⟩

theorem text_inj (he : ∀ name ∈ e.names, IsPlain name) (hf : ∀ name ∈ f.names, IsPlain name) :
    e.text = f.text ↔ e = f := by
  refine ⟨fun h => ?_, congrArg text⟩
  exact (text_append_inj (r := []) (s := []) he hf separates_nil separates_nil (by rw [h])).1

-- ---------------------------------------------------------------------------
-- Renamed variables
-- ---------------------------------------------------------------------------

theorem names_rename (f : String → String) (e : Expr) : (e.rename f).names = e.names.map f := by
  rw [rename, names_subst, List.map_eq_flatMap]
  rfl

variable {b b' : Bindings} {f : String → String}

theorem bit_rename (h : ∀ name ∈ e.names, b.isSet (f name) = b'.isSet name) :
    (e.rename f).bit b = e.bit b' := by
  have hholds : (e.rename f).holds b.isSet = e.holds b'.isSet := by
    rw [rename, holds_subst]
    exact holds_congr h
  rw [bit, hholds, bit]

/-- The steps do not tell the names of the variables. -/
theorem steps_rename (h : ∀ name ∈ e.names, b.isSet (f name) = b'.isSet name) (first : Nat) :
    Operation.steps b first (e.rename f).operations =
      Operation.steps b' first e.operations := by
  induction e generalizing first with
  | var name => rfl
  | not operand ih =>
    have hlength := congrArg List.length (ih h first)
    rw [Operation.length_steps, Operation.length_steps] at hlength
    have hstep (index : Nat) : (Operation.not (operand.rename f)).step b index =
        (Operation.not operand).step b' index := by
      rw [Operation.step, Operation.step, bit_not, bit_not, bit_rename (e := operand) h]
    change Operation.steps b first ((operand.rename f).operations ++ [.not (operand.rename f)]) = _
    rw [operations, Operation.steps_append, Operation.steps_append, ih h, hlength,
      Operation.steps_singleton, Operation.steps_singleton, hstep]
  | binary op left right ihl ihr =>
    obtain ⟨hl, hr⟩ := List.forall_mem_append.mp h
    have hleft := congrArg List.length (ihl hl first)
    have hright := congrArg List.length (ihr hr first)
    rw [Operation.length_steps, Operation.length_steps] at hleft hright
    have hstep (index : Nat) : (Operation.binary op (left.rename f) (right.rename f)).step b index =
        (Operation.binary op left right).step b' index := by
      rw [Operation.step, Operation.step, bit_binary, bit_binary, bit_rename hl, bit_rename hr]
    change Operation.steps b first ((left.rename f).operations ++ (right.rename f).operations ++
      [.binary op (left.rename f) (right.rename f)]) = _
    rw [operations, Operation.steps_append, Operation.steps_append, Operation.steps_append,
      Operation.steps_append, List.length_append, List.length_append, ihl hl, ihr hr, hleft, hright,
      Operation.steps_singleton, Operation.steps_singleton, hstep]

end Expr

-- ---------------------------------------------------------------------------
-- Digits as names
-- ---------------------------------------------------------------------------

/-- The digits stand for the bits that they write. -/
def Bindings.digits : Bindings := .ofList [(Bit.zero.text, .zero), (Bit.one.text, .one)]

theorem Bindings.isSet_digits (x : Bit) : digits.isSet x.text = x.isSet := by
  cases x <;> decide

theorem isPlain_text (x : Bit) : IsPlain x.text := by
  cases x <;> decide

namespace Expr

variable {b : Bindings} {e : Expr}

theorem written_eq_text_shown (b : Option Bindings) (e : Expr) :
    e.written b = (e.shown b).text := by
  cases b with
  | none => rfl
  | some b =>
    have hdisplay : b.display = fun name => ((b.get? name).map Bit.text).getD name := by
      funext name
      unfold Bindings.display
      cases b.get? name <;> rfl
    rw [written, textWith_eq_text_subst, shown, rename, hdisplay]

theorem isPlain_names_shown (b : Option Bindings) (h : ∀ name ∈ e.names, IsPlain name) :
    ∀ name ∈ (e.shown b).names, IsPlain name := by
  cases b with
  | none => exact h
  | some b =>
    rw [shown, names_rename, List.forall_mem_map]
    intro name hname
    cases b.get? name with
    | none => exact h name hname
    | some x => exact isPlain_text x

theorem IsBound.isSet_shown (h : e.IsBound b) : ∀ name ∈ e.names,
    Bindings.digits.isSet (((b.get? name).map Bit.text).getD name) = b.isSet name := by
  intro name hname
  obtain ⟨x, hx⟩ := Option.isSome_iff_exists.mp (h name hname)
  have hset : b.isSet name = x.isSet := by simp [Bindings.isSet, hx]
  rw [hset, hx]
  exact Bindings.isSet_digits x

/-- With bits in the place of names the tree has the value that it had. -/
theorem IsBound.bit_shown (h : e.IsBound b) : (e.shown (some b)).bit .digits = e.bit b :=
  bit_rename h.isSet_shown

theorem IsBound.steps_shown (h : e.IsBound b) :
    Operation.steps .digits 0 (e.shown (some b)).operations = Operation.steps b 0 e.operations :=
  steps_rename h.isSet_shown 0

end Expr

-- ---------------------------------------------------------------------------
-- Calculations
-- ---------------------------------------------------------------------------

theorem IsName.isPlain {name : String} (h : IsName name) : IsPlain name := by
  refine List.all_eq_true.mpr fun c hc => ?_
  have ha : c.isAlpha = true := List.all_eq_true.mp h.2.1 c hc
  refine isPlain_iff.mpr ⟨?_, ?_, ?_⟩ <;> rintro rfl <;> simp at ha

section
variable {source : String} {b : Bindings} {c : Calculation}

theorem exists_of_calculate_eq_ok (h : calculate source b = .ok c) :
    ∃ t, (Parser.ofString source).parse.1 = some t ∧ (∀ name ∈ t.names, IsPlain name) ∧
      c.parsed = t.text ∧ c.expression = (t.shown (some b)).text ∧
      c.result = (t.shown (some b)).bit .digits ∧
      c.steps = Operation.steps .digits 0 (t.shown (some b)).operations := by
  obtain ⟨t, ht, hb, rfl⟩ := calculate_eq_ok_iff.mp h
  refine ⟨t, ht, fun name hname => (isName_of_parse_eq_some ht name hname).isPlain, rfl,
    Expr.written_eq_text_shown (some b) t, hb.bit_shown.symm, hb.steps_shown.symm⟩

end

/-- Two trees are written alike, each under its own bindings or under none, if
and only if they are one tree with bits for the bound variables. So what a
calculation has written tells the tree, and with bits for the variables the
value and all steps. -/
theorem unique_reading :
    (∀ (e₁ e₂ : Expr) (b₁ b₂ : Option Bindings),
      (∀ name ∈ e₁.names, IsPlain name) → (∀ name ∈ e₂.names, IsPlain name) →
        (e₁.written b₁ = e₂.written b₂ ↔ e₁.shown b₁ = e₂.shown b₂)) ∧
    (∀ (source : String) (t : Token) (name : String),
      t ∈ tokenize source → t.name? = some name → IsPlain name) ∧
    ∀ (source₁ source₂ : String) (b₁ b₂ : Bindings) (c₁ c₂ : Calculation),
      calculate source₁ b₁ = .ok c₁ → calculate source₂ b₂ = .ok c₂ →
        (c₁.expression = c₂.expression → c₁.result = c₂.result ∧ c₁.steps = c₂.steps) ∧
        (c₁.parsed = c₂.parsed →
          (Parser.ofString source₁).parse.1 = (Parser.ofString source₂).parse.1) := by
  refine ⟨?_, ?_, ?_⟩
  · intro e₁ e₂ b₁ b₂ h₁ h₂
    rw [Expr.written_eq_text_shown, Expr.written_eq_text_shown]
    exact Expr.text_inj (Expr.isPlain_names_shown b₁ h₁) (Expr.isPlain_names_shown b₂ h₂)
  · intro source t name ht hname
    exact (Scanner.isName_of_mem_tokens ht hname).isPlain
  · intro source₁ source₂ b₁ b₂ c₁ c₂ hc₁ hc₂
    obtain ⟨t₁, ht₁, hp₁, hparsed₁, hexpression₁, hresult₁, hsteps₁⟩ :=
      exists_of_calculate_eq_ok hc₁
    obtain ⟨t₂, ht₂, hp₂, hparsed₂, hexpression₂, hresult₂, hsteps₂⟩ :=
      exists_of_calculate_eq_ok hc₂
    constructor
    · intro h
      rw [hexpression₁, hexpression₂, Expr.text_inj (Expr.isPlain_names_shown _ hp₁)
        (Expr.isPlain_names_shown _ hp₂)] at h
      rw [hresult₁, hresult₂, hsteps₁, hsteps₂, h]
      exact ⟨rfl, rfl⟩
    · intro h
      rw [hparsed₁, hparsed₂, Expr.text_inj hp₁ hp₂] at h
      rw [ht₁, ht₂, h]

theorem unique_reading_of_digits :
    let b₁ := Bindings.ofList [("x", .one), ("Y", .zero)]
    let b₂ := Bindings.ofList [("a", .one), ("b", .zero)]
    (Expr.binary .and (.var "x") (.var "NOT")).written (some b₁) =
      (Expr.binary .and (.var "1") (.var "NOT")).written none ∧
    ∃ c₁ c₂, calculate "x OR NOT Y" b₁ = .ok c₁ ∧ calculate "(a or (not b))" b₂ = .ok c₂ ∧
      c₁.expression = c₂.expression ∧ c₁.steps = c₂.steps := by
  intro b₁ b₂
  constructor
  · exact (unique_reading.1 _ _ _ _ (by decide) (by decide)).mpr (by decide)
  · let steps : List Step := [⟨"NOT", none, .zero, .one, 0⟩, ⟨"OR", some .one, .one, .one, 1⟩]
    have hc₁ : calculate "x OR NOT Y" b₁ =
        .ok ⟨"(x OR (NOT Y))", "(1 OR (NOT 0))", .one, steps⟩ := by
      decide +kernel
    have hc₂ : calculate "(a or (not b))" b₂ =
        .ok ⟨"(a OR (NOT b))", "(1 OR (NOT 0))", .one, steps⟩ := by
      decide +kernel
    exact ⟨_, _, hc₁, hc₂, rfl, ((unique_reading.2.2 _ _ _ _ _ _ hc₁ hc₂).1 rfl).2⟩

end LogicCalculator
