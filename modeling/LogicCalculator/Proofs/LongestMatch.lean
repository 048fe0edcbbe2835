import LogicCalculator.Proofs.MaximalMunch
import LogicCalculator.Token.Lexer

/-!
# What scanning needs of a lexer

The first character of a text decides its rule, and the longest match is the
run of the characters that the rule admits, so that any two lexers agree
(`Lexer.next_of_admits`). The offsets that scanning keeps give the positions
that counting characters gives (`take_tokens`).
-/

namespace LogicCalculator

-- ---------------------------------------------------------------------------
-- Rules
-- ---------------------------------------------------------------------------

namespace Rule

variable {rule found : Rule} {c : Char} {cs front : List Char}

/-- A character begins the lexemes of one rule at most. -/
theorem admits_unique (h : rule.admits c = true) (h' : found.admits c = true) : rule = found := by
  have ha : c.isAlpha = true → c ≠ ' ' ∧ c ≠ '\t' ∧ c ≠ '\r' ∧ c ≠ '\n' ∧ c ≠ '(' ∧ c ≠ ')' := by
    intro hc
    refine ⟨?_, ?_, ?_, ?_, ?_, ?_⟩ <;> rintro rfl <;> simp at hc
  cases rule <;> cases found <;> grind [admits]

/-- The front part of a text that follows the rule, as long as can be. -/
def lexeme (rule : Rule) (cs : List Char) : List Char :=
  if rule.repeats then cs.takeWhile rule.admits else cs.take 1

theorem lexeme_isPrefix (rule : Rule) (cs : List Char) : rule.lexeme cs <+: cs := by
  unfold lexeme
  split
  · exact List.takeWhile_prefix _
  · exact List.take_prefix _ _

theorem matches_lexeme (h : rule.admits c = true) : rule.Matches (rule.lexeme (c :: cs)) := by
  unfold lexeme
  split
  · next hr => exact ⟨by simp [h], List.all_takeWhile, .inl hr⟩
  · exact ⟨by simp, by simp [h], .inr rfl⟩

theorem Matches.admits (h : rule.Matches front) : ∀ c ∈ front, rule.admits c = true :=
  List.all_eq_true.mp h.2.1

theorem Matches.length_le (h : rule.Matches front) (hfront : front <+: cs) :
    front.length ≤ (rule.lexeme cs).length := by
  obtain ⟨rest, rfl⟩ := hfront
  unfold lexeme
  split
  · rw [List.takeWhile_append_of_pos h.admits, List.length_append]
    exact Nat.le_add_right ..
  · next hr =>
    rw [h.2.2.resolve_left hr, List.length_take, List.length_append, h.2.2.resolve_left hr]
    omega

/-- The rule of the lexemes that begin with a character. -/
def of? (c : Char) : Option Rule :=
  [blanks, newline, leftParen, rightParen, word].find? (·.admits c)

theorem admits_of_of? (h : of? c = some rule) : rule.admits c = true :=
  List.find?_some (p := fun rule : Rule => rule.admits c) h

theorem of?_of_admits (h : rule.admits c = true) : of? c = some rule := by
  have hmem : rule ∈ [blanks, newline, leftParen, rightParen, word] := by
    cases rule <;> decide
  cases hfound : of? c with
  | none => exact absurd h (by simpa using List.find?_eq_none.mp hfound rule hmem)
  | some found => rw [admits_unique h (admits_of_of? hfound)]

theorem not_admits_of_of? (h : of? c = none) (rule : Rule) : rule.admits c = false :=
  Bool.eq_false_iff.mpr fun hc => by cases h.symm.trans (of?_of_admits hc)

end Rule

-- ---------------------------------------------------------------------------
-- Lexers
-- ---------------------------------------------------------------------------

namespace Lexer

variable {lexer : Lexer} {rule : Rule} {c : Char} {cs : List Char}

theorem next_of_admits (lexer : Lexer) (h : rule.admits c = true) (cs : List Char) :
    lexer.next (c :: cs) = (some rule, rule.lexeme (c :: cs)) := by
  have hpart := rule.lexeme_isPrefix (c :: cs)
  obtain ⟨found, lexeme, hnext, hlength⟩ := lexer.longest hpart (Rule.matches_lexeme h)
  obtain ⟨hlexeme, hmatches⟩ := lexer.sound hnext
  -- the lexeme begins with the same character, so it is of the same rule
  have hc : c ∈ lexeme := by
    obtain ⟨d, ds, rfl⟩ := List.exists_cons_of_ne_nil hmatches.1
    obtain ⟨rest, hrest⟩ := hlexeme
    obtain ⟨rfl, -⟩ := List.cons.inj hrest
    exact List.mem_cons_self ..
  obtain rfl := Rule.admits_unique h (hmatches.admits c hc)
  have heq : rule.lexeme (c :: cs) = lexeme :=
    (List.prefix_of_prefix_length_le hpart hlexeme hlength).eq_of_length
      (Nat.le_antisymm hlength (hmatches.length_le hlexeme))
  rw [hnext, heq]

theorem next_of_not_admits (lexer : Lexer) (h : ∀ rule : Rule, rule.admits c = false)
    (cs : List Char) : lexer.next (c :: cs) = (none, [c]) := by
  refine lexer.unmatched fun rule front hfront hmatches => ?_
  obtain ⟨d, ds, rfl⟩ := List.exists_cons_of_ne_nil hmatches.1
  obtain ⟨rest, hrest⟩ := hfront
  obtain ⟨rfl, -⟩ := List.cons.inj hrest
  cases (h rule).symm.trans (hmatches.admits d (List.mem_cons_self ..))

/-- The lexer that takes the run of the first character's rule. -/
def greedy : Lexer where
  next
    | [] => (none, [])
    | c :: cs =>
      match Rule.of? c with
      | some rule => (some rule, rule.lexeme (c :: cs))
      | none => (none, [c])
  sound {cs lexeme rule} h := by
    cases cs with
    | nil => cases h
    | cons c cs =>
      dsimp only at h
      split at h
      · next found hfound =>
        obtain ⟨hrule, rfl⟩ := Prod.mk.inj h
        obtain rfl := Option.some.inj hrule
        exact ⟨found.lexeme_isPrefix _, Rule.matches_lexeme (Rule.admits_of_of? hfound)⟩
      · cases h
  longest {cs front rule} hfront hmatches := by
    obtain ⟨c, ds, rfl⟩ := List.exists_cons_of_ne_nil hmatches.1
    obtain ⟨rest, rfl⟩ := hfront
    have hc := Rule.of?_of_admits (hmatches.admits c (List.mem_cons_self ..))
    refine ⟨rule, rule.lexeme (c :: (ds ++ rest)), by simp [hc], ?_⟩
    exact hmatches.length_le (List.prefix_append ..)
  unmatched {c cs} h := by
    cases hc : Rule.of? c with
    | none => simp [hc]
    | some rule =>
      exact absurd (Rule.matches_lexeme (Rule.admits_of_of? hc)) (h rule _ (rule.lexeme_isPrefix _))

end Lexer

-- ---------------------------------------------------------------------------
-- Byte offsets
-- ---------------------------------------------------------------------------

namespace Text

variable {c : Char}

theorem byteLength_append (a b : List Char) :
    byteLength (a ++ b) = byteLength a + byteLength b := by
  induction a with
  | nil => rw [List.nil_append, byteLength, Nat.zero_add]
  | cons c cs ih => rw [List.cons_append, byteLength, ih, byteLength, Nat.add_assoc]

theorem dropBytes?_cons {n : Nat} (h : c.utf8Size ≤ n) (cs : List Char) :
    dropBytes? n (c :: cs) = dropBytes? (n - c.utf8Size) cs := by
  cases n with
  | zero => exact absurd c.utf8Size_pos (Nat.not_lt.mpr h)
  | succ n => rw [dropBytes?, if_pos h]

theorem takeBytes?_cons {n : Nat} (h : c.utf8Size ≤ n) (cs : List Char) :
    takeBytes? n (c :: cs) = (takeBytes? (n - c.utf8Size) cs).map (c :: ·) := by
  cases n with
  | zero => exact absurd c.utf8Size_pos (Nat.not_lt.mpr h)
  | succ n => rw [takeBytes?, if_pos h]

theorem dropBytes?_append (a b : List Char) : dropBytes? (byteLength a) (a ++ b) = some b := by
  induction a with
  | nil => rw [byteLength, List.nil_append, dropBytes?]
  | cons c cs ih =>
    rw [byteLength, List.cons_append, dropBytes?_cons (Nat.le_add_right ..),
      Nat.add_sub_cancel_left, ih]

theorem takeBytes?_append (a b : List Char) : takeBytes? (byteLength a) (a ++ b) = some a := by
  induction a with
  | nil => rw [byteLength, takeBytes?]
  | cons c cs ih =>
    rw [byteLength, List.cons_append, takeBytes?_cons (Nat.le_add_right ..),
      Nat.add_sub_cancel_left, ih, Option.map_some]

theorem slice?_append (a b cs : List Char) :
    slice? (a ++ (b ++ cs)) (byteLength a) (byteLength a + byteLength b) = some b := by
  rw [slice?, if_pos (Nat.le_add_right ..), dropBytes?_append, Option.bind_some,
    Nat.add_sub_cancel_left, takeBytes?_append]

end Text

-- ---------------------------------------------------------------------------
-- Offsets and positions
-- ---------------------------------------------------------------------------

namespace OffsetScanner

variable {s : OffsetScanner} {t : Scanner} {lexeme rest : List Char} {position : Position}

/-- Both scanners stand at one place: the offset of the line and the offset
behind the latest lexeme enclose as many characters as the column counts. -/
def Follows (s : OffsetScanner) (t : Scanner) : Prop :=
  t.rest = s.rest ∧ (s.exhausted = true → s.rest = []) ∧
    ∃ before line, s.source = before ++ (line ++ s.rest) ∧ s.lineStart = Text.byteLength before ∧
      s.last = Text.byteLength before + Text.byteLength line ∧
        t.position = ⟨s.line, line.length + 1⟩

theorem follows_ofString (source : String) : (ofString source).Follows (.ofString source) :=
  ⟨rfl, nofun, [], [], rfl, rfl, rfl, rfl⟩

theorem Follows.position_last (h : s.Follows t) : s.position s.last = t.position := by
  obtain ⟨-, -, before, line, hsource, hstart, hlast, hposition⟩ := h
  simp only [OffsetScanner.position, hsource, hstart, hlast, Text.slice?_append, hposition]

theorem Follows.ending (h : s.Follows t) (hrest : s.rest = []) :
    s.ending = .bare .endOfInput t.position := by
  obtain ⟨-, -, before, line, hsource, hstart, hlast, hposition⟩ := id h
  rw [OffsetScanner.ending, ← h.position_last, hlast, hsource, hrest, List.append_nil,
    Text.byteLength_append]

theorem afterAll_of_line (line column : Nat) (h : ∀ c ∈ lexeme, c ≠ '\n') :
    (Position.mk line column).afterAll lexeme = ⟨line, column + lexeme.length⟩ := by
  induction lexeme generalizing column with
  | nil => rfl
  | cons c cs ih =>
    obtain ⟨hc, hcs⟩ := List.forall_mem_cons.mp h
    rw [Position.afterAll_cons, Position.after, if_neg hc, ih _ hcs, List.length_cons,
      Nat.add_right_comm, Nat.add_assoc]

theorem Follows.cover (h : s.Follows ⟨lexeme ++ rest, position⟩) (hs : s.exhausted = false)
    (hl : ∀ c ∈ lexeme, c ≠ '\n') :
    (s.cover lexeme).Follows ⟨rest, position.afterAll lexeme⟩ := by
  obtain ⟨hrest, -, before, line, hsource, hstart, hlast, rfl⟩ := h
  change lexeme ++ rest = s.rest at hrest
  have hdrop : (s.cover lexeme).rest = rest := by
    rw [OffsetScanner.cover, ← hrest, List.drop_left]
  refine ⟨hdrop.symm, fun he => absurd he (by simp [OffsetScanner.cover, hs]), before,
    line ++ lexeme, ?_, hstart, ?_, ?_⟩
  · rw [hdrop, List.append_assoc, hrest]
    exact hsource
  · rw [OffsetScanner.cover, hlast, Text.byteLength_append, Nat.add_assoc]
  · rw [afterAll_of_line _ _ hl, List.length_append, Nat.add_right_comm]
    rfl

theorem Follows.position_first (h : s.Follows t) (lexeme : List Char) :
    (s.cover lexeme).position (s.cover lexeme).first = t.position :=
  h.position_last

theorem Follows.breakLine (h : s.Follows ⟨'\n' :: rest, position⟩) (hs : s.exhausted = false) :
    (s.cover ['\n']).breakLine.Follows ⟨rest, position.after '\n'⟩ := by
  obtain ⟨hrest, -, before, line, hsource, hstart, hlast, rfl⟩ := h
  change '\n' :: rest = s.rest at hrest
  have hdrop : (s.cover ['\n']).breakLine.rest = rest := by
    rw [OffsetScanner.breakLine, OffsetScanner.cover, ← hrest]
    rfl
  refine ⟨hdrop.symm, fun he => absurd he (by simp [OffsetScanner.breakLine,
    OffsetScanner.cover, hs]), before ++ (line ++ ['\n']), [], ?_, ?_, ?_, rfl⟩
  · rw [hdrop, List.nil_append, List.append_assoc, List.append_assoc, List.singleton_append, hrest]
    exact hsource
  · rw [OffsetScanner.breakLine, OffsetScanner.cover, hlast, Text.byteLength_append,
      Text.byteLength_append, Nat.add_assoc]
  · rw [OffsetScanner.breakLine, OffsetScanner.cover, hlast, Text.byteLength_append,
      Text.byteLength_append, Nat.add_assoc]
    rfl

-- ---------------------------------------------------------------------------
-- Token by token
-- ---------------------------------------------------------------------------

theorem next_of_exhausted (lexer : Lexer) (hs : s.exhausted = true) :
    s.next lexer = (s.ending, s) := by
  rw [OffsetScanner.next, if_pos hs]

theorem next_of_nil (lexer : Lexer) (hs : s.exhausted = false) (hrest : s.rest = []) :
    s.next lexer = (s.ending, { s with exhausted := true }) := by
  rw [OffsetScanner.next, if_neg (by simp [hs])]
  split
  · rfl
  · next hr => cases hrest.symm.trans hr

/-- What is made of one lexeme. -/
def react (lexer : Lexer) (s : OffsetScanner) (rule : Option Rule) (lexeme : List Char) :
    Token × OffsetScanner :=
  let covered := s.cover lexeme
  let position := covered.position covered.first
  match rule with
  | some .blanks => covered.next lexer
  | some .newline => covered.breakLine.next lexer
  | some .leftParen => (.bare .leftParen position, covered)
  | some .rightParen => (.bare .rightParen position, covered)
  | some .word => (.ofWord lexeme position, covered)
  | none => (⟨.illegal, some (String.ofList lexeme), position⟩, covered)

theorem next_of_cons {c : Char} {cs : List Char} {rule : Option Rule} (hs : s.exhausted = false)
    (hrest : s.rest = c :: cs) {lexer : Lexer} (hl : lexer.next (c :: cs) = (rule, lexeme)) :
    s.next lexer = s.react lexer rule lexeme := by
  rw [OffsetScanner.next, if_neg (by simp [hs])]
  split
  · next hr => cases hrest.symm.trans hr
  · next d ds hr =>
    obtain ⟨rfl, rfl⟩ := List.cons.inj (hrest.symm.trans hr)
    split <;>
    · next hfound =>
      obtain ⟨rfl, rfl⟩ := Prod.mk.inj (hl.symm.trans hfound)
      rfl

theorem isSeparator_of_blanks {c : Char} (h : Rule.blanks.admits c = true) :
    Scanner.isSeparator c = true ∧ c ≠ '\n' := by
  have hc : (c = ' ' ∨ c = '\t') ∨ c = '\r' := by simpa [Rule.admits] using h
  rcases hc with (rfl | rfl) | rfl <;> decide

theorem isSeparator_of_not_admits {c : Char} (h : ∀ rule : Rule, rule.admits c = false) :
    Scanner.isSeparator c = false := by
  have hblanks := h .blanks
  have hnewline := h .newline
  simp only [Rule.admits] at hblanks hnewline
  rw [Scanner.isSeparator, hblanks, hnewline]
  rfl

theorem ofSymbol_of_not_admits {c : Char} (h : ∀ rule : Rule, rule.admits c = false)
    (position : Position) :
    Token.ofSymbol c position = ⟨.illegal, some (String.ofList [c]), position⟩ := by
  have hleft : c ≠ '(' := by simpa [Rule.admits] using h .leftParen
  have hright : c ≠ ')' := by simpa [Rule.admits] using h .rightParen
  rw [Token.ofSymbol, if_neg hleft, if_neg hright]
  rfl

/-- The same token, and behind it the same place. -/
def Agrees (r : Token × OffsetScanner) (r' : Token × Scanner) : Prop :=
  r.1 = r'.1 ∧ r.2.Follows r'.2

theorem agrees_ending {r : Token × OffsetScanner} (h : s.Follows ⟨[], position⟩)
    (hr : r.1 = s.ending) (hs : r.2.Follows ⟨[], position⟩) :
    Agrees r (Scanner.mk [] position).next := by
  rw [Scanner.next_nil]
  exact ⟨hr.trans (h.ending h.1.symm), hs⟩

theorem agrees_symbol {c : Char} {cs : List Char} (h : s.Follows ⟨c :: cs, position⟩)
    (hs : s.exhausted = false) (hc : Scanner.isSeparator c = false) (ha : c.isAlpha = false) :
    Agrees (.ofSymbol c ((s.cover [c]).position (s.cover [c]).first), s.cover [c])
      (Scanner.mk (c :: cs) position).next := by
  have hline : ∀ d ∈ [c], d ≠ '\n' := by
    rintro d hd rfl
    obtain rfl := List.mem_singleton.mp hd
    cases hc
  have hcover : (s.cover [c]).Follows ⟨cs, position.afterAll [c]⟩ := Follows.cover h hs hline
  rw [Scanner.next_symbol cs position hc ha, h.position_first]
  exact ⟨rfl, hcover⟩

theorem agrees_word {word : List Char} (h : s.Follows ⟨word ++ rest, position⟩)
    (hs : s.exhausted = false) (hne : word ≠ []) (hw : ∀ c ∈ word, c.isAlpha = true)
    (hr : Scanner.Breaks rest) :
    Agrees (.ofWord word ((s.cover word).position (s.cover word).first), s.cover word)
      (Scanner.mk (word ++ rest) position).next := by
  have hline : ∀ c ∈ word, c ≠ '\n' := by
    rintro c hc rfl
    cases hw _ hc
  rw [Scanner.next_word position hne hw hr, h.position_first]
  exact ⟨rfl, h.cover hs hline⟩

theorem breaks_of_lexeme {cs : List Char} (h : Rule.word.lexeme cs ++ rest = cs) :
    Scanner.Breaks rest := by
  have hsplit : Rule.word.lexeme cs ++ rest = Rule.word.lexeme cs ++ cs.dropWhile Char.isAlpha :=
    h.trans List.takeWhile_append_dropWhile.symm
  rw [List.append_cancel_left hsplit]
  exact Scanner.breaks_dropWhile cs

theorem agrees_illegal {c : Char} {cs : List Char} (lexer : Lexer)
    (h : s.Follows ⟨c :: cs, position⟩) (hs : s.exhausted = false)
    (hnot : ∀ rule : Rule, rule.admits c = false) :
    Agrees (s.react lexer none [c]) (Scanner.mk (c :: cs) position).next := by
  have hsymbol := agrees_symbol h hs (isSeparator_of_not_admits hnot) (hnot .word)
  rwa [ofSymbol_of_not_admits hnot] at hsymbol

/-- The lexeme of a rule gives what scanning gives, if scanning agrees from
there on. -/
theorem agrees_lexeme {c : Char} {cs : List Char} {rule : Rule} (lexer : Lexer)
    (h : s.Follows ⟨c :: cs, position⟩) (hs : s.exhausted = false) (hc : rule.admits c = true)
    (hlater : ∀ {s' : OffsetScanner} {t : Scanner}, s'.rest.length < s.rest.length →
      s'.Follows t → Agrees (s'.next lexer) t.next) :
    Agrees (s.react lexer (some rule) (rule.lexeme (c :: cs)))
      (Scanner.mk (c :: cs) position).next := by
  have hmatches : rule.Matches (rule.lexeme (c :: cs)) := Rule.matches_lexeme hc
  obtain ⟨rest, hpart⟩ := rule.lexeme_isPrefix (c :: cs)
  have hlt : (s.rest.drop (rule.lexeme (c :: cs)).length).length < s.rest.length := by
    rw [← h.1]
    exact lexer.length_drop_lt (lexer.next_of_admits hc cs)
  cases rule with
  | blanks =>
    have hblanks := fun d hd => isSeparator_of_blanks (hmatches.admits d hd)
    generalize Rule.blanks.lexeme (c :: cs) = blanks at hblanks hlt hpart ⊢
    rw [← hpart] at h ⊢
    rw [Scanner.next_separators fun d hd => (hblanks d hd).1]
    exact hlater hlt (h.cover hs fun d hd => (hblanks d hd).2)
  | newline =>
    obtain rfl : c = '\n' := by simpa [Rule.admits] using hc
    rw [Scanner.next_separator position rfl]
    exact hlater hlt (h.breakLine hs)
  | leftParen =>
    obtain rfl : c = '(' := by simpa [Rule.admits] using hc
    exact agrees_symbol h hs rfl rfl
  | rightParen =>
    obtain rfl : c = ')' := by simpa [Rule.admits] using hc
    exact agrees_symbol h hs rfl rfl
  | word =>
    have hbreaks := breaks_of_lexeme hpart
    have hletters := hmatches.admits
    have hne := hmatches.1
    generalize Rule.word.lexeme (c :: cs) = word at hne hletters hpart ⊢
    rw [← hpart] at h ⊢
    exact agrees_word h hs hne hletters hbreaks

theorem Follows.next (lexer : Lexer) (h : s.Follows t) : Agrees (s.next lexer) t.next := by
  induction hn : s.rest.length using Nat.strongRecOn generalizing s t with
  | _ n ih =>
    subst hn
    obtain ⟨rest, position⟩ := t
    have hrest : rest = s.rest := h.1
    cases hs : s.exhausted with
    | true =>
      obtain rfl : rest = [] := hrest.trans (h.2.1 hs)
      rw [next_of_exhausted lexer hs]
      exact agrees_ending h rfl h
    | false =>
      rcases rest with _ | ⟨c, cs⟩
      · rw [next_of_nil lexer hs hrest.symm]
        exact agrees_ending h rfl ⟨h.1, fun _ => hrest.symm, h.2.2⟩
      · cases hrule : Rule.of? c with
        | none =>
          have hnot := Rule.not_admits_of_of? hrule
          rw [next_of_cons hs hrest.symm (lexer.next_of_not_admits hnot cs)]
          exact agrees_illegal lexer h hs hnot
        | some rule =>
          have hc := Rule.admits_of_of? hrule
          rw [next_of_cons hs hrest.symm (lexer.next_of_admits hc cs)]
          exact agrees_lexeme lexer h hs hc fun hlt hfollows => ih _ hlt hfollows rfl

theorem tokens_eq (lexer : Lexer) (h : s.Follows t) : s.tokens lexer = t.tokens := by
  induction hn : t.rest.length using Nat.strongRecOn generalizing s t with
  | _ n ih =>
    subst hn
    obtain ⟨htoken, hfollows⟩ := h.next lexer
    rw [OffsetScanner.tokens, Scanner.tokens, htoken]
    split
    · rfl
    · next hend => rw [ih _ (Scanner.length_rest_next_lt hend) hfollows rfl]

end OffsetScanner

-- ---------------------------------------------------------------------------
-- Every lexer
-- ---------------------------------------------------------------------------

end LogicCalculator
