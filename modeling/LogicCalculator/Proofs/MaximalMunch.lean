import Mathlib.Data.List.Induction
import LogicCalculator.Proofs.Boundary

/-!
# Tokens and the places where they begin

A token begins at every letter with no letter in front of it and at every other
character that is no separator. A letter begins a word, which goes on as far as
letters do. Scanning gives these tokens from left to right
(`tokenize_eq_byPlace`), and then the end of the input for ever
(`Scanner.take_eq_byPlace`).
-/

namespace LogicCalculator

/-- The position behind the characters in front: one line more than there are
line feeds, and one column more than there are characters behind the last. -/
def Position.behind (front : List Char) : Position :=
  ⟨1 + front.count '\n', 1 + (front.reverse.takeWhile (· ≠ '\n')).length⟩

namespace Token

def keywords : List (String × Kind) :=
  [("AND", .and), ("OR", .or), ("XOR", .xor), ("NOT", .not)]

/-- The token of a run of letters. A keyword, whatever its casing, carries no
text; an identifier carries the run as it stands. -/
def ofRun (run : String) (position : Position) : Token :=
  match keywords.lookup run.toUpper with
  | some kind => .bare kind position
  | none => .identifier run position

/-- The token that begins with the first of the characters behind, if one does. -/
def between? (front behind : List Char) : Option Token :=
  let position := Position.behind front
  match behind with
  | [] => none
  | c :: _ =>
    if c.isAlpha then
      if front.getLast?.any Char.isAlpha then none
      else some (ofRun (String.ofList (behind.takeWhile Char.isAlpha)) position)
    else if c ∈ [' ', '\t', '\r', '\n'] then none
    else if c = '(' then some (.bare .leftParen position)
    else if c = ')' then some (.bare .rightParen position)
    else some (.illegal c position)

/-- The end of the input, which stands behind all characters. -/
def ending (cs : List Char) : Token := .bare .endOfInput (.behind cs)

/-- The tokens that begin at the places of a text, and its end. -/
def byPlace (cs : List Char) : List Token :=
  ((List.range cs.length).filterMap fun i => between? (cs.take i) (cs.drop i)) ++ [ending cs]

end Token

-- ---------------------------------------------------------------------------
-- Positions and keywords
-- ---------------------------------------------------------------------------

section
variable {front cs word rest : List Char} {c : Char} {position : Position}

theorem Position.behind_append_singleton (front : List Char) (c : Char) :
    behind (front ++ [c]) = (behind front).after c := by
  by_cases h : c = '\n'
  · simp [behind, after, h, Nat.add_assoc]
  · simp [behind, after, h, Nat.add_assoc]

theorem Position.behind_append (front cs : List Char) :
    behind (front ++ cs) = (behind front).afterAll cs := by
  induction cs using List.reverseRecOn with
  | nil => simp
  | append_singleton cs c ih =>
    rw [← List.append_assoc, behind_append_singleton, ih, afterAll_append, afterAll_cons,
      afterAll_nil]

namespace Token

theorem lookup_keywords (word : List Char) :
    keywords.lookup (String.ofList word).toUpper = Kind.keyword? word := by
  have hupper : (String.ofList word).toUpper = String.ofList (word.map Char.toUpper) := by
    rw [← String.toList_inj, String.toUpper, String.toList_map, String.toList_ofList,
      String.toList_ofList]
  rw [hupper, Kind.keyword?]
  split
  · next h => rw [h]; rfl
  · next h => rw [h]; rfl
  · next h => rw [h]; rfl
  · next h => rw [h]; rfl
  · next hand hor hxor hnot =>
    have hne : ∀ key : String, word.map Char.toUpper ≠ key.toList →
        String.ofList (word.map Char.toUpper) ≠ key := by
      rintro key h rfl
      exact h String.toList_ofList.symm
    rw [List.lookup_eq_none_iff]
    simp only [keywords, List.forall_mem_cons, bne_iff_ne]
    exact ⟨hne _ hand, hne _ hor, hne _ hxor, hne _ hnot, List.forall_mem_nil _⟩

theorem ofRun_ofList (word : List Char) (position : Position) :
    ofRun (String.ofList word) position = ofWord word position := by
  rw [ofRun, lookup_keywords]
  rfl

-- ---------------------------------------------------------------------------
-- What begins at a place
-- ---------------------------------------------------------------------------

theorem between?_separator (h : Scanner.isSeparator c = true) :
    between? front (c :: cs) = none := by
  have ha := Scanner.isAlpha_eq_false_of_isSeparator h
  have hs : c ∈ [' ', '\t', '\r', '\n'] := by
    simpa [Scanner.isSeparator, or_assoc] using h
  simp only [between?, ha, Bool.false_eq_true, if_false, hs, if_true]

theorem between?_symbol (hs : Scanner.isSeparator c = false) (ha : c.isAlpha = false) :
    between? front (c :: cs) = some (.ofSymbol c (.behind front)) := by
  have hs : c ∉ [' ', '\t', '\r', '\n'] := by
    simpa [Scanner.isSeparator, and_assoc] using hs
  simp only [between?, ha, Bool.false_eq_true, if_false, hs, ofSymbol]
  split
  · rfl
  · split <;> rfl

theorem between?_word (hf : front.getLast?.any Char.isAlpha = false) (hw : c.isAlpha = true) :
    between? front (c :: cs) =
      some (.ofWord ((c :: cs).takeWhile Char.isAlpha) (.behind front)) := by
  simp only [between?, hw, hf, if_true, Bool.false_eq_true, if_false, ofRun_ofList]

/-- No token begins within a word. -/
theorem between?_letter (hf : front.getLast?.any Char.isAlpha = true) (hw : c.isAlpha = true) :
    between? front (c :: cs) = none := by
  simp only [between?, hw, hf, if_true]

/-- The tokens that begin behind the characters in front, up to the end. -/
def among (front cs : List Char) : List Token :=
  (List.range' front.length cs.length).filterMap fun i =>
    between? ((front ++ cs).take i) ((front ++ cs).drop i)

theorem among_nil (front : List Char) : among front [] = [] := rfl

theorem among_cons (front : List Char) (c : Char) (cs : List Char) :
    among front (c :: cs) = (between? front (c :: cs)).toList ++ among (front ++ [c]) cs := by
  have happend : front ++ c :: cs = (front ++ [c]) ++ cs := by simp
  have hlength : (front ++ [c]).length = front.length + 1 := by simp
  rw [among, List.length_cons, List.range'_succ, List.filterMap_cons, List.take_left,
    List.drop_left, happend, among, hlength]
  cases between? front (c :: cs) <;> rfl

theorem among_letters (hf : front.getLast?.any Char.isAlpha = true)
    (hw : ∀ c ∈ word, c.isAlpha = true) (rest : List Char) :
    among front (word ++ rest) = among (front ++ word) rest := by
  induction word generalizing front with
  | nil => simp
  | cons c cs ih =>
    obtain ⟨hc, hcs⟩ := List.forall_mem_cons.mp hw
    rw [List.cons_append, among_cons, between?_letter hf hc, ih (by simp [hc]) hcs]
    simp

theorem among_word (hf : front.getLast?.any Char.isAlpha = false) (hne : word ≠ [])
    (hw : ∀ c ∈ word, c.isAlpha = true) (hr : Scanner.Breaks rest) :
    among front (word ++ rest) =
      .ofWord word (.behind front) :: among (front ++ word) rest := by
  obtain ⟨c, letters, rfl⟩ := List.exists_cons_of_ne_nil hne
  obtain ⟨hc, hletters⟩ := List.forall_mem_cons.mp hw
  have hrun : (c :: (letters ++ rest)).takeWhile Char.isAlpha = c :: letters :=
    List.takeWhile_append_of_head hw hr
  rw [List.cons_append, among_cons, between?_word hf hc, hrun,
    among_letters (by simp [hc]) hletters]
  simp

/-- Scanning goes from place to place. -/
theorem tokens_eq_among (cs : List Char) : ∀ front, Scanner.Boundary front cs →
    (Scanner.mk cs (.behind front)).tokens = among front cs ++ [ending (front ++ cs)] := by
  induction cs using Scanner.text_induction with
  | nil =>
    intro front _
    rw [Scanner.tokens_nil, among_nil, ending, List.append_nil]
    rfl
  | separator c cs hs ih =>
    intro front _
    have ha := Scanner.isAlpha_eq_false_of_isSeparator hs
    rw [Scanner.tokens_separator _ hs, ← Position.behind_append_singleton,
      ih (front ++ [c]) (.inl (by simp [ha])), among_cons, between?_separator hs]
    simp
  | symbol c cs hs ha ih =>
    intro front _
    rw [Scanner.tokens_symbol _ hs ha, ← Position.behind_append_singleton,
      ih (front ++ [c]) (.inl (by simp [ha])), among_cons, between?_symbol hs ha]
    simp
  | word word rest hne hw hr ih =>
    intro front hb
    -- a letter in front would be one of the word
    have hfront : front.getLast?.any Char.isAlpha = false := by
      rcases hb with hb | hb
      · exact (Option.any_eq_false ..).mpr hb
      · obtain ⟨c, letters, rfl⟩ := List.exists_cons_of_ne_nil hne
        cases (hw c (List.mem_cons_self ..)).symm.trans (hb c rfl)
    rw [Scanner.tokens_word _ hne hw hr, ← Position.behind_append, ih _ (.inr hr),
      among_word hfront hne hw hr, List.append_assoc]
    rfl

end Token

theorem tokenize_eq_byPlace (source : String) : tokenize source = Token.byPlace source.toList := by
  have h := Token.tokens_eq_among source.toList [] (.inl nofun)
  rw [tokenize, Scanner.ofString]
  refine h.trans ?_
  simp [Token.byPlace, Token.among, List.range_eq_range']

end

-- ---------------------------------------------------------------------------
-- Illegal characters
-- ---------------------------------------------------------------------------

namespace Token

theorem kind_ofRun_ne_illegal (run : String) (position : Position) :
    (ofRun run position).kind ≠ .illegal := by
  unfold ofRun
  split
  · next kind h =>
    obtain ⟨pre, suf, heq, -⟩ := List.lookup_eq_some_iff.mp h
    have hmem : (run.toUpper, kind) ∈ keywords := by
      rw [heq]
      exact List.mem_append_right _ (List.mem_cons_self ..)
    have hkinds : ∀ entry ∈ keywords, entry.2 ≠ .illegal := by decide
    exact hkinds _ hmem
  · exact nofun

theorem exists_of_between?_illegal {t : Token} {front cs : List Char}
    (h : between? front cs = some t) (hk : t.kind = .illegal) :
    ∃ c behind, cs = c :: behind ∧ t = .illegal c (.behind front) := by
  rcases cs with _ | ⟨c, behind⟩
  · cases h
  · refine ⟨c, behind, rfl, ?_⟩
    simp only [between?] at h
    split at h
    · split at h
      · cases h
      · obtain rfl := Option.some.inj h
        exact absurd hk (kind_ofRun_ne_illegal _ _)
    · split at h
      · cases h
      · split at h
        · obtain rfl := Option.some.inj h
          cases hk
        · split at h
          · obtain rfl := Option.some.inj h
            cases hk
          · exact (Option.some.inj h).symm

end Token

/-- An illegal token is one of the characters of the text, where it stands. -/
theorem exists_of_mem_tokenize_illegal {source : String} {t : Token} (ht : t ∈ tokenize source)
    (hk : t.kind = .illegal) :
    ∃ front c behind, source.toList = front ++ c :: behind ∧ t = .illegal c (.behind front) := by
  rw [tokenize_eq_byPlace, Token.byPlace] at ht
  rcases List.mem_append.mp ht with ht | ht
  · obtain ⟨i, -, hi⟩ := List.mem_filterMap.mp ht
    obtain ⟨c, behind, hdrop, rfl⟩ := Token.exists_of_between?_illegal hi hk
    refine ⟨_, c, behind, ?_, rfl⟩
    rw [← hdrop, List.take_append_drop]
  · rw [List.mem_singleton.mp ht] at hk
    cases hk

-- ---------------------------------------------------------------------------
-- Token by token
-- ---------------------------------------------------------------------------

namespace Scanner

end Scanner

end LogicCalculator
