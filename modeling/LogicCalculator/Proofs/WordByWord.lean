import LogicCalculator.Proofs.Splice
import LogicCalculator.Proofs.UniqueReading

/-!
# Bits in the place of words

Under bindings a tree is written as without them, but for its words: a run of
letters that is bound and no keyword gives way to a digit
(`Expr.mapWords_text`). Where every variable is bound, no run of letters is left
but the keywords of the operators (`textWith_word_by_word`).
-/

namespace LogicCalculator

/-- What stands for a word under bindings: the digit of its bit if it is bound,
unless it is a keyword in some casing. -/
def Bindings.replacement (b : Bindings) (word : String) : String :=
  if word.toUpper ∈ ["AND", "OR", "XOR", "NOT"] then word
  else
    match b.get? word with
    | some bit => bit.text
    | none => word

/-- The text with other words for its runs of letters, each run taken as a whole. -/
def replaceWords (f : String → String) (text : String) : String :=
  String.ofList (Scanner.mapWords (fun word => (f (String.ofList word)).toList) text.toList)

/-- The runs of letters of a text from left to right, none of which goes on. -/
def letterRuns (cs : List Char) : List (List Char) :=
  (cs.splitOnP fun c => !c.isAlpha).filter (!·.isEmpty)

/-- The keywords of the operators in the order in which the text has them. -/
def Expr.keywords : Expr → List String
  | var _ => []
  | not operand => notKeyword :: operand.keywords
  | binary operator left right => left.keywords ++ operator.keyword :: right.keywords

-- ---------------------------------------------------------------------------
-- Runs of letters
-- ---------------------------------------------------------------------------

section
variable {c : Char} {cs ds word : List Char}

/-- A character that is no letter divides the runs. -/
theorem letterRuns_append_cons (cs ds : List Char) (hc : c.isAlpha = false) :
    letterRuns (cs ++ c :: ds) = letterRuns cs ++ letterRuns ds := by
  rw [letterRuns, List.splitOnP_append_cons cs ds (by rw [hc]; rfl), List.filter_append]
  rfl

theorem letterRuns_nil : letterRuns [] = [] := rfl

theorem letterRuns_cons (cs : List Char) (hc : c.isAlpha = false) :
    letterRuns (c :: cs) = letterRuns cs :=
  letterRuns_append_cons [] cs hc

theorem letterRuns_word (hne : word ≠ []) (hw : ∀ c ∈ word, c.isAlpha = true) :
    letterRuns word = [word] := by
  rw [letterRuns, List.splitOnP_eq_singleton fun c hc => by rw [hw c hc]; rfl]
  simpa using hne

theorem letterRuns_eq_nil (h : ∀ c ∈ cs, c.isAlpha = false) : letterRuns cs = [] := by
  induction cs with
  | nil => rfl
  | cons c cs ih =>
    obtain ⟨hc, hcs⟩ := List.forall_mem_cons.mp h
    rw [letterRuns_cons cs hc, ih hcs]

end

-- ---------------------------------------------------------------------------
-- Texts of trees
-- ---------------------------------------------------------------------------

namespace Expr

variable {e : Expr} {f : List Char → List Char} {g : String → String} {c : Char}
  {rest : List Char}

theorem isAlpha_notKeyword : ∀ c ∈ "NOT".toList, c.isAlpha = true := by simp

theorem keyword_ne_nil (op : BinaryOperator) : op.keyword.toList ≠ [] := by
  cases op <;> decide

/-- Names in the text of a tree are runs of letters, so what is written for runs
is written for names. -/
theorem mapWords_text (hkeyword : ∀ kind word, Token.Kind.keyword? word = some kind → f word = word)
    (hnames : ∀ name ∈ e.names, IsName name ∧ f name.toList = (g name).toList)
    (hrest : Scanner.Breaks rest) :
    Scanner.mapWords f (e.text.toList ++ rest) =
      (e.rename g).text.toList ++ Scanner.mapWords f rest := by
  induction e generalizing rest with
  | var name =>
    obtain ⟨hname, hf⟩ := hnames name (List.mem_singleton_self name)
    have hne : name.toList ≠ [] := fun hnil => hname.1 (String.toList_eq_nil_iff.mp hnil)
    have hword := Scanner.mapWords_word f hne (List.all_eq_true.mp hname.2.1) hrest
    rw [hf] at hword
    exact hword
  | not operand ih =>
    have htext : (not (operand.rename g)).text.toList ++ Scanner.mapWords f rest =
        '(' :: ("NOT".toList ++ ' ' :: ((operand.rename g).text.toList ++
          ')' :: Scanner.mapWords f rest)) := toList_text_not ..
    change _ = (not (operand.rename g)).text.toList ++ _
    rw [htext, toList_text_not, Scanner.mapWords_cons f _ rfl,
      Scanner.mapWords_word f (by decide) isAlpha_notKeyword (Scanner.breaks_cons rfl),
      hkeyword .not _ rfl, Scanner.mapWords_cons f _ rfl,
      ih hnames (Scanner.breaks_cons rfl), Scanner.mapWords_cons f _ rfl]
  | binary op left right ihl ihr =>
    obtain ⟨hl, hr⟩ := List.forall_mem_append.mp hnames
    obtain ⟨kind, hkind, -⟩ := Scanner.keyword?_keyword op
    have htext : (binary op (left.rename g) (right.rename g)).text.toList ++
        Scanner.mapWords f rest = '(' :: ((left.rename g).text.toList ++
          ' ' :: (op.keyword.toList ++ ' ' :: ((right.rename g).text.toList ++
            ')' :: Scanner.mapWords f rest))) := toList_text_binary ..
    change _ = (binary op (left.rename g) (right.rename g)).text.toList ++ _
    rw [htext, toList_text_binary, Scanner.mapWords_cons f _ rfl,
      ihl hl (Scanner.breaks_cons rfl), Scanner.mapWords_cons f _ rfl,
      Scanner.mapWords_word f (keyword_ne_nil op) (Scanner.isAlpha_keyword op)
        (Scanner.breaks_cons rfl),
      hkeyword kind _ hkind, Scanner.mapWords_cons f _ rfl, ihr hr (Scanner.breaks_cons rfl),
      Scanner.mapWords_cons f _ rfl]

theorem letterRuns_text (h : ∀ name ∈ e.names, ∀ c ∈ name.toList, c.isAlpha = false) :
    letterRuns e.text.toList = e.keywords.map String.toList := by
  induction e with
  | var name => exact letterRuns_eq_nil (h name (List.mem_singleton_self name))
  | not operand ih =>
    rw [← List.append_nil (not operand).text.toList, toList_text_not, letterRuns_cons _ rfl,
      letterRuns_append_cons _ _ rfl, letterRuns_append_cons _ _ rfl, ih h,
      letterRuns_word (by decide) isAlpha_notKeyword, letterRuns_nil, List.append_nil]
    rfl
  | binary op left right ihl ihr =>
    obtain ⟨hl, hr⟩ := List.forall_mem_append.mp h
    rw [← List.append_nil (binary op left right).text.toList, toList_text_binary,
      letterRuns_cons _ rfl, letterRuns_append_cons _ _ rfl, letterRuns_append_cons _ _ rfl,
      letterRuns_append_cons _ _ rfl, ihl hl, ihr hr,
      letterRuns_word (keyword_ne_nil op) (Scanner.isAlpha_keyword op), letterRuns_nil,
      List.append_nil, keywords, List.map_append, List.map_cons]
    rfl

theorem keywords_rename (g : String → String) (e : Expr) : (e.rename g).keywords = e.keywords := by
  induction e with
  | var name => rfl
  | not operand ih => exact congrArg (notKeyword :: ·) ih
  | binary op left right ihl ihr =>
    change (left.rename g).keywords ++ op.keyword :: (right.rename g).keywords = _
    rw [ihl, ihr, keywords]

/-- A character of the text is a letter, or it separates or groups, or a name
holds it. -/
theorem mem_toList_text (hc : c ∈ e.text.toList) :
    c.isAlpha = true ∨ c ∈ [' ', '(', ')'] ∨ ∃ name ∈ e.names, c ∈ name.toList := by
  induction e with
  | var name => exact .inr (.inr ⟨name, List.mem_singleton_self name, hc⟩)
  | not operand ih =>
    rw [← List.append_nil (not operand).text.toList, toList_text_not] at hc
    simp only [List.mem_cons, List.mem_append, List.not_mem_nil, or_false] at hc
    rcases hc with rfl | hc | rfl | hc | rfl
    · simp
    · exact .inl (isAlpha_notKeyword c hc)
    · simp
    · exact ih hc
    · simp
  | binary op left right ihl ihr =>
    rw [← List.append_nil (binary op left right).text.toList, toList_text_binary] at hc
    simp only [List.mem_cons, List.mem_append, List.not_mem_nil, or_false] at hc
    rcases hc with rfl | hc | rfl | hc | rfl | hc | rfl
    · simp
    · refine (ihl hc).imp_right (.imp_right ?_)
      rintro ⟨name, hname, hc⟩
      exact ⟨name, List.mem_append_left _ hname, hc⟩
    · simp
    · exact .inl (Scanner.isAlpha_keyword op c hc)
    · simp
    · refine (ihr hc).imp_right (.imp_right ?_)
      rintro ⟨name, hname, hc⟩
      exact ⟨name, List.mem_append_right _ hname, hc⟩
    · simp

end Expr

-- ---------------------------------------------------------------------------
-- Texts under bindings
-- ---------------------------------------------------------------------------

section
variable {b : Bindings} {e : Expr} {name : String} {c : Char}

theorem Bindings.replacement_of_isName (h : IsName name) : b.replacement name = b.display name :=
  if_neg h.2.2

theorem Bindings.replacement_of_keyword {kind : Token.Kind} {word : List Char}
    (h : Token.Kind.keyword? word = some kind) :
    b.replacement (String.ofList word) = String.ofList word := by
  refine if_pos ?_
  by_contra hupper
  obtain ⟨hne, hword⟩ := Scanner.isAlpha_of_keyword? h
  have hname : IsName (String.ofList word) := by
    refine ⟨by simpa using hne, ?_, hupper⟩
    rw [String.toList_ofList]
    exact List.all_eq_true.mpr hword
  have hnone := hname.keyword?_eq_none
  rw [String.toList_ofList, h] at hnone
  cases hnone

theorem textWith_eq_text_rename (b : Bindings) (e : Expr) :
    e.textWith b = (e.rename b.display).text :=
  Expr.textWith_eq_text_subst b e

theorem textWith_eq_replaceWords (b : Bindings) (h : ∀ name ∈ e.names, IsName name) :
    e.textWith b = replaceWords b.replacement e.text := by
  let f := fun word => (b.replacement (String.ofList word)).toList
  have hkeyword : ∀ kind word, Token.Kind.keyword? word = some kind → f word = word := by
    intro kind word hk
    change (b.replacement (String.ofList word)).toList = word
    rw [Bindings.replacement_of_keyword hk, String.toList_ofList]
  have hnames : ∀ name ∈ e.names, IsName name ∧ f name.toList = (b.display name).toList := by
    intro name hname
    refine ⟨h name hname, ?_⟩
    change (b.replacement (String.ofList name.toList)).toList = _
    rw [String.ofList_toList, Bindings.replacement_of_isName (h name hname)]
  have hmap : Scanner.mapWords f (e.text.toList ++ []) =
      (e.rename b.display).text.toList ++ Scanner.mapWords f [] :=
    Expr.mapWords_text hkeyword hnames nofun
  rw [List.append_nil, Scanner.mapWords, List.append_nil] at hmap
  rw [replaceWords, hmap, String.ofList_toList, textWith_eq_text_rename]

namespace Expr

/-- A bound name is written as a digit. -/
theorem IsBound.mem_toList_name (h : e.IsBound b) (hname : name ∈ (e.rename b.display).names)
    (hc : c ∈ name.toList) : c ∈ ['0', '1'] := by
  rw [names_rename, List.mem_map] at hname
  obtain ⟨key, hkey, rfl⟩ := hname
  rw [display_eq_text (h key hkey)] at hc
  cases hbit : (var key).bit b with
  | zero =>
    rw [hbit] at hc
    exact List.mem_append_left ['1'] hc
  | one =>
    rw [hbit] at hc
    exact List.mem_append_right ['0'] hc

theorem IsBound.letterRuns_textWith (h : e.IsBound b) :
    letterRuns (e.textWith b).toList = e.keywords.map String.toList := by
  have hdigits : ∀ c ∈ ['0', '1'], c.isAlpha = false := by simp
  rw [textWith_eq_text_rename, letterRuns_text, keywords_rename]
  intro name hname c hc
  exact hdigits c (h.mem_toList_name hname hc)

theorem IsBound.mem_toList_textWith (h : e.IsBound b) (hc : c ∈ (e.textWith b).toList)
    (ha : c.isAlpha = false) : c ∈ [' ', '(', ')', '0', '1'] := by
  rw [textWith_eq_text_rename] at hc
  rcases mem_toList_text hc with hletter | hgroup | ⟨name, hname, hc⟩
  · rw [ha] at hletter
    cases hletter
  · exact List.mem_append_left ['0', '1'] hgroup
  · exact List.mem_append_right [' ', '(', ')'] (h.mem_toList_name hname hc)

end Expr

end

/-- The text of a tree under bindings is its text with digits for the runs of
letters that are bound and no keywords. In what a calculation has written so,
the only letters are those of the operators' keywords. -/
theorem textWith_word_by_word :
    (∀ (e : Expr) (b : Bindings), (∀ name ∈ e.names, IsName name) →
      e.textWith b = replaceWords b.replacement e.text) ∧
    ∀ (source : String) (b : Bindings) (c : Calculation), calculate source b = .ok c →
      ∃ t, (Parser.ofString source).parse.1 = some t ∧
        letterRuns c.expression.toList = t.keywords.map String.toList ∧
        ∀ x ∈ c.expression.toList, x.isAlpha = false → x ∈ [' ', '(', ')', '0', '1'] := by
  refine ⟨fun e b h => textWith_eq_replaceWords b h, ?_⟩
  intro source b c hc
  obtain ⟨t, ht, hbound, rfl⟩ := calculate_eq_ok_iff.mp hc
  exact ⟨t, ht, hbound.letterRuns_textWith, fun x hx => hbound.mem_toList_textWith hx⟩

theorem textWith_word_by_word_of_tangled_names :
    let e := Expr.binary .or (.var "X") (.not (.var "ORX"))
    let b := Bindings.ofList [("ORX", .one), ("or", .zero), ("NOT", .zero), ("OR", .one)]
    (e.text = "(X OR (NOT ORX))" ∧ e.textWith b = "(X OR (NOT 1))" ∧
      e.textWith b = replaceWords b.replacement e.text) ∧
    ∃ c, calculate "not orx Or X" (.ofList [("orx", .one), ("X", .zero)]) = .ok c ∧
      c.expression = "((NOT 1) OR 0)" ∧
        letterRuns c.expression.toList = ["NOT".toList, "OR".toList] := by
  intro e b
  have hnames : ∀ name ∈ e.names, IsName name := by decide +kernel
  refine ⟨⟨by decide +kernel, by decide +kernel, textWith_word_by_word.1 e b hnames⟩, ?_⟩
  let t := Expr.binary .or (.not (.var "orx")) (.var "X")
  have ht : (Parser.ofString "not orx Or X").parse.1 = some t := by decide +kernel
  have hcalc := calculate_eq_ok_iff.mpr
    ⟨t, ht, (by decide : t.IsBound (.ofList [("orx", .one), ("X", .zero)])), rfl⟩
  obtain ⟨t', ht', hruns, -⟩ := textWith_word_by_word.2 _ _ _ hcalc
  obtain rfl := Option.some.inj (ht.symm.trans ht')
  exact ⟨_, hcalc, by decide +kernel, hruns⟩

end LogicCalculator
