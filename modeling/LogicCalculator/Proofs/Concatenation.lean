import LogicCalculator.Proofs.LongestMatch

/-!
# Texts one behind the other

Scanning is local. The tokens of a text are the same behind any other text, as
long as no word goes on from the one into the other, and only their positions
tell what stands in front (`tokenize_append`). They all move down by the lines
in front; those on the first line also move to the right.
-/

namespace LogicCalculator

/-- Where a position of a text comes to lie when the text begins at `origin`. -/
def Position.shift (p origin : Position) : Position where
  line := p.line + (origin.line - 1)
  column := if p.line = 1 then p.column + (origin.column - 1) else p.column

/-- The same token in a text that begins at `origin`. -/
def Token.shift (t : Token) (origin : Position) : Token :=
  { t with position := t.position.shift origin }

-- ---------------------------------------------------------------------------
-- Positions
-- ---------------------------------------------------------------------------

namespace Position

variable {p : Position}

theorem line_after_pos (h : 0 < p.line) (c : Char) : 0 < (p.after c).line := by
  unfold after
  split
  · exact Nat.succ_pos _
  · exact h

theorem line_afterAll_pos (h : 0 < p.line) (cs : List Char) : 0 < (p.afterAll cs).line := by
  induction cs generalizing p with
  | nil => exact h
  | cons c cs ih => exact ih (line_after_pos h c)

/-- A line feed ends the first line, and only there the columns are different. -/
theorem shift_after (h : 0 < p.line) (origin : Position) (c : Char) :
    (p.after c).shift origin = (p.shift origin).after c := by
  by_cases hc : c = '\n'
  · simp [after, shift, hc, Nat.ne_of_gt h, Nat.add_right_comm]
  · by_cases hline : p.line = 1
    · simp [after, shift, hc, hline, Nat.add_right_comm]
    · simp [after, shift, hc, hline]

theorem shift_afterAll (h : 0 < p.line) (origin : Position) (cs : List Char) :
    (p.afterAll cs).shift origin = (p.shift origin).afterAll cs := by
  induction cs generalizing p with
  | nil => rfl
  | cons c cs ih => rw [afterAll_cons, ih (line_after_pos h c), shift_after h, afterAll_cons]

/-- A text that begins behind another one begins where the other one ends. -/
theorem shift_start_behind (front : List Char) : start.shift (behind front) = behind front := by
  simp [shift, start, behind]

end Position

-- ---------------------------------------------------------------------------
-- Tokens
-- ---------------------------------------------------------------------------

namespace Scanner

variable {p : Position}

theorem shift_ofSymbol (c : Char) (p origin : Position) :
    (Token.ofSymbol c p).shift origin = .ofSymbol c (p.shift origin) := by
  unfold Token.ofSymbol
  split
  · rfl
  · split <;> rfl

theorem shift_ofWord (word : List Char) (p origin : Position) :
    (Token.ofWord word p).shift origin = .ofWord word (p.shift origin) := by
  unfold Token.ofWord
  split <;> rfl

theorem tokens_shift (h : 0 < p.line) (origin : Position) (cs : List Char) :
    (mk cs (p.shift origin)).tokens = (mk cs p).tokens.map (·.shift origin) := by
  induction cs using text_induction generalizing p with
  | nil =>
    rw [tokens_nil, tokens_nil]
    rfl
  | separator c cs hs ih =>
    rw [tokens_separator _ hs, tokens_separator _ hs, ← Position.shift_after h,
      ih (Position.line_after_pos h c)]
  | symbol c cs hs ha ih =>
    rw [tokens_symbol _ hs ha, tokens_symbol _ hs ha, ← Position.shift_after h,
      ih (Position.line_after_pos h c), List.map_cons, shift_ofSymbol]
  | word word rest hne hw hr ih =>
    rw [tokens_word _ hne hw hr, tokens_word _ hne hw hr, ← Position.shift_afterAll h,
      ih (Position.line_afterAll_pos h word), List.map_cons, shift_ofWord]

end Scanner

theorem tokens_ofString_append {a b : String} (h : Scanner.Boundary a.toList b.toList) :
    tokenize (a ++ b) =
      words a ++ (tokenize b).map (·.shift (Token.ending a.toList).position) := by
  have hend : Position.start.afterAll a.toList = .behind a.toList :=
    (Position.behind_append [] a.toList).symm
  have hshift := Scanner.tokens_shift (p := .start) Nat.one_pos (.behind a.toList) b.toList
  rw [Position.shift_start_behind] at hshift
  rw [tokenize, Scanner.ofString, String.toList_append, Scanner.tokens_append h, hend, hshift]
  rfl

/-- The tokens of two texts one behind the other are those of the first one up
to its end, and then those of the second one, with the end of the first one as
their origin. The names that they carry are the same. So it is whichever lexer
finds the lexemes, although it counts offsets from the beginning of the whole. -/
theorem tokenize_append (lexer : Lexer) {a b : String}
    (h : Scanner.Boundary a.toList b.toList) :
    ∃ ending, ending.kind = .endOfInput ∧ tokenize a = words a ++ [ending] ∧
      tokenize (a ++ b) = words a ++ (tokenize b).map (·.shift ending.position) ∧
      (tokenize (a ++ b)).map Token.name? =
        (words a).map Token.name? ++ (tokenize b).map Token.name? ∧
      (OffsetScanner.ofString (a ++ b)).tokens lexer =
        ((OffsetScanner.ofString a).tokens lexer).dropLast ++
          ((OffsetScanner.ofString b).tokens lexer).map (·.shift ending.position) := by
  have hscan : ∀ source, (OffsetScanner.ofString source).tokens lexer = tokenize source :=
    fun source => OffsetScanner.tokens_eq lexer (OffsetScanner.follows_ofString source)
  have hlast : tokenize a = words a ++ [Token.ending a.toList] := by
    rw [words, tokenize_eq_byPlace, Token.byPlace, List.dropLast_concat]
  have happend := tokens_ofString_append h
  refine ⟨.ending a.toList, rfl, hlast, happend, ?_, ?_⟩
  · rw [happend, List.map_append, List.map_map]
    rfl
  · rw [hscan, hscan, hscan]
    exact happend

theorem tokenize_append_of_lines :
    let a := "x\n é"
    let b := "or (\ny"
    Scanner.Boundary a.toList b.toList ∧
      (tokenize b).map Token.position = [⟨1, 1⟩, ⟨1, 4⟩, ⟨2, 1⟩, ⟨2, 2⟩] ∧
      tokenize (a ++ b) = [.identifier "x" ⟨1, 1⟩, .illegal 'é' ⟨2, 2⟩, .bare .or ⟨2, 3⟩,
        .bare .leftParen ⟨2, 6⟩, .identifier "y" ⟨3, 1⟩, .bare .endOfInput ⟨3, 2⟩] := by
  intro a b
  have hend : a.toList.getLast? = some 'é' := by decide +kernel
  have h : Scanner.Boundary a.toList b.toList := by
    refine .inl fun c hc => ?_
    rw [hend, Option.mem_some_iff] at hc
    exact hc ▸ rfl
  obtain ⟨ending, -, hlast, happend, -⟩ := tokenize_append Lexer.greedy h
  have hposition : (tokenize a).getLast?.map Token.position = some ⟨2, 3⟩ := by decide +kernel
  rw [hlast, List.getLast?_concat, Option.map_some, Option.some_inj] at hposition
  refine ⟨h, by decide +kernel, ?_⟩
  rw [happend, hposition]
  decide +kernel

end LogicCalculator
