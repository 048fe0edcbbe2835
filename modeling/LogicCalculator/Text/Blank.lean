/-!
# Blanks at the ends of a text

A blank is a character with the Unicode property `White_Space`. Trimming takes
the blanks off both ends and leaves every inner one; the ends of the result are
no blanks.
-/

namespace LogicCalculator.Text

/-- The characters with the property `White_Space`. The separators U+001C to
U+001F and the zero-width characters are not among them. -/
def isBlank (c : Char) : Bool :=
  let n := c.toNat
  (0x09 ≤ n && n ≤ 0x0d) || n == 0x20 || n == 0x85 || n == 0xa0 || n == 0x1680 ||
    (0x2000 ≤ n && n ≤ 0x200a) || n == 0x2028 || n == 0x2029 || n == 0x202f ||
    n == 0x205f || n == 0x3000

def trimEnd : List Char → List Char
  | [] => []
  | c :: cs =>
    match trimEnd cs with
    | [] => if isBlank c then [] else [c]
    | rest => c :: rest

def trim (cs : List Char) : List Char := trimEnd (cs.dropWhile isBlank)

/-- The text before and after the first `mark`, without it. -/
def splitAtFirst (mark : Char) : List Char → Option (List Char × List Char)
  | [] => none
  | c :: cs =>
    if c = mark then some ([], cs)
    else (splitAtFirst mark cs).map fun (before, after) => (c :: before, after)

theorem splitAtFirst_eq_none_iff {mark : Char} {cs : List Char} :
    splitAtFirst mark cs = none ↔ mark ∉ cs := by
  induction cs with
  | nil => simp [splitAtFirst]
  | cons c cs ih =>
    by_cases h : c = mark
    · simp [splitAtFirst, h]
    · simp [splitAtFirst, h, ih, Ne.symm h]

theorem splitAtFirst_eq_some_iff {mark : Char} {cs before after : List Char} :
    splitAtFirst mark cs = some (before, after) ↔
      mark ∉ before ∧ cs = before ++ mark :: after := by
  induction cs generalizing before with
  | nil => simp [splitAtFirst]
  | cons c cs ih =>
    by_cases h : c = mark
    · subst h
      cases before with
      | nil => simp [splitAtFirst]
      | cons b before => simp +contextual [splitAtFirst]
    · cases before with
      | nil => simp [splitAtFirst, h]
      | cons b before =>
        have hs : splitAtFirst mark (c :: cs) = some (b :: before, after) ↔
            c = b ∧ splitAtFirst mark cs = some (before, after) := by
          simp only [splitAtFirst, h, if_false, Option.map_eq_some_iff, Prod.mk.injEq,
            List.cons.injEq, Prod.exists]
          constructor
          · rintro ⟨x, y, hxy, ⟨rfl, rfl⟩, rfl⟩
            exact ⟨rfl, hxy⟩
          · rintro ⟨rfl, hxy⟩
            exact ⟨before, after, hxy, ⟨rfl, rfl⟩, rfl⟩
        rw [hs, ih]
        constructor
        · rintro ⟨rfl, hm, rfl⟩
          exact ⟨by simp [hm, Ne.symm h], rfl⟩
        · rintro ⟨hm, he⟩
          obtain ⟨rfl, rfl⟩ := List.cons.inj he
          exact ⟨rfl, fun hb => hm (List.mem_cons_of_mem _ hb), rfl⟩

theorem exists_append_trimEnd (cs : List Char) :
    ∃ ws : List Char, (∀ c ∈ ws, isBlank c) ∧ cs = trimEnd cs ++ ws := by
  induction cs with
  | nil => exact ⟨[], by simp, rfl⟩
  | cons c cs ih =>
    obtain ⟨ws, hw, he⟩ := ih
    cases ht : trimEnd cs with
    | nil =>
      rw [ht, List.nil_append] at he
      subst he
      by_cases hc : isBlank c
      · exact ⟨c :: cs, by simpa [hc] using hw, by simp [trimEnd, ht, hc]⟩
      · exact ⟨cs, hw, by simp [trimEnd, ht, hc]⟩
    | cons d ds =>
      refine ⟨ws, hw, ?_⟩
      have hd : trimEnd (c :: cs) = c :: d :: ds := by simp [trimEnd, ht]
      rw [hd, List.cons_append, ← ht, ← he]

theorem not_isBlank_getLast_trimEnd {cs : List Char} (h : trimEnd cs ≠ []) :
    ¬ isBlank ((trimEnd cs).getLast h) := by
  induction cs with
  | nil => exact absurd rfl h
  | cons c cs ih =>
    cases ht : trimEnd cs with
    | nil =>
      by_cases hc : isBlank c
      · simp [trimEnd, ht, hc] at h
      · simp [trimEnd, ht, hc]
    | cons d ds =>
      have hd : trimEnd (c :: cs) = c :: d :: ds := by simp [trimEnd, ht]
      simp only [ht] at ih
      simpa [hd] using ih (by simp)

-- ---------------------------------------------------------------------------
-- The trimmed text
-- ---------------------------------------------------------------------------

/-- No blank stands at either end. -/
def IsTrimmed (cs : List Char) : Prop :=
  (∀ c ∈ cs.head?, ¬ isBlank c) ∧ ∀ c ∈ cs.getLast?, ¬ isBlank c

instance (cs : List Char) : Decidable (IsTrimmed cs) :=
  decidable_of_iff ((cs.head?.all (!isBlank ·) && cs.getLast?.all (!isBlank ·)) = true)
    (by simp [IsTrimmed, Option.all_eq_true])

/-- The text is what is left when blanks are taken off both ends. -/
def Trims (cs text : List Char) : Prop :=
  ∃ before behind : List Char, (∀ c ∈ before, isBlank c) ∧ (∀ c ∈ behind, isBlank c) ∧
    cs = before ++ (text ++ behind) ∧ IsTrimmed text

section
variable {cs text before behind : List Char}

theorem trimEnd_eq_nil (h : ∀ c ∈ behind, isBlank c) : trimEnd behind = [] := by
  induction behind with
  | nil => rfl
  | cons c cs ih =>
    obtain ⟨hc, hcs⟩ := List.forall_mem_cons.mp h
    simp [trimEnd, ih hcs, hc]

theorem trimEnd_append (cs : List Char) (h : ∀ c ∈ behind, isBlank c) :
    trimEnd (cs ++ behind) = trimEnd cs := by
  induction cs with
  | nil => exact trimEnd_eq_nil h
  | cons c cs ih => rw [List.cons_append, trimEnd, ih, trimEnd]

theorem trimEnd_of_getLast (h : ∀ c ∈ cs.getLast?, ¬ isBlank c) : trimEnd cs = cs := by
  obtain ⟨behind, hbehind, hcs⟩ := exists_append_trimEnd cs
  cases hlast : behind.getLast? with
  | none =>
    obtain rfl := List.getLast?_eq_none_iff.mp hlast
    rw [List.append_nil] at hcs
    exact hcs.symm
  | some c =>
    have hc : c ∈ cs.getLast? := by
      rw [hcs, List.getLast?_append, hlast]
      rfl
    exact absurd (hbehind c (List.mem_of_getLast? hlast)) (h c hc)

theorem isTrimmed_trim (cs : List Char) : IsTrimmed (trim cs) := by
  constructor
  · intro c (hc : (trimEnd (cs.dropWhile isBlank)).head? = some c)
    obtain ⟨behind, -, hcs⟩ := exists_append_trimEnd (cs.dropWhile isBlank)
    have hhead : (cs.dropWhile isBlank).head? = some c := by
      rw [hcs, List.head?_append, hc]
      rfl
    have hblank := List.head?_dropWhile_not isBlank cs
    rw [hhead] at hblank
    exact Bool.eq_false_iff.mp hblank
  · intro c hc
    have hne : trim cs ≠ [] := by
      rintro h
      rw [h] at hc
      cases hc
    rw [List.getLast?_eq_some_getLast hne] at hc
    obtain rfl := Option.some.inj hc
    exact not_isBlank_getLast_trimEnd hne

theorem trims_trim (cs : List Char) : Trims cs (trim cs) := by
  obtain ⟨behind, hbehind, hcs⟩ := exists_append_trimEnd (cs.dropWhile isBlank)
  refine ⟨cs.takeWhile isBlank, behind, List.all_eq_true.mp List.all_takeWhile, hbehind, ?_,
    isTrimmed_trim cs⟩
  rw [trim, ← hcs, List.takeWhile_append_dropWhile]

/-- Only one text is left. -/
theorem Trims.trim_eq (h : Trims cs text) : trim cs = text := by
  obtain ⟨before, behind, hbefore, hbehind, rfl, hhead, hlast⟩ := h
  have hdrop : (before ++ (text ++ behind)).dropWhile isBlank =
      (text ++ behind).dropWhile isBlank :=
    List.dropWhile_append_of_pos hbefore
  rw [trim, hdrop]
  cases text with
  | nil =>
    have hnil : (behind ++ []).dropWhile isBlank = [] := List.dropWhile_append_of_pos hbehind
    rw [List.append_nil] at hnil
    rw [List.nil_append, hnil]
    rfl
  | cons c cs =>
    rw [List.cons_append, List.dropWhile_cons_of_neg (hhead c rfl), ← List.cons_append,
      trimEnd_append _ hbehind, trimEnd_of_getLast hlast]

theorem trim_eq_iff : trim cs = text ↔ Trims cs text :=
  ⟨fun h => h ▸ trims_trim cs, Trims.trim_eq⟩

/-- Nothing is left of blanks alone. -/
theorem trim_eq_nil_iff : trim cs = [] ↔ ∀ c ∈ cs, isBlank c := by
  rw [trim_eq_iff]
  constructor
  · rintro ⟨before, behind, hbefore, hbehind, rfl, -⟩
    exact List.forall_mem_append.mpr ⟨hbefore, hbehind⟩
  · intro h
    exact ⟨cs, [], h, List.forall_mem_nil _, (List.append_nil cs).symm, nofun, nofun⟩

end

end LogicCalculator.Text
