import Mathlib.Algebra.GroupWithZero.Nat
import Mathlib.Data.Nat.Choose.Basic
import LogicCalculator.Proofs.RoundTrip

/-!
# How deep accepted texts nest

What the levels bound are not the lengths of the paths through a phrase. A path
that turns to a right operand pays for the operators in front of that one, too,
and one that turns to a left operand pays nothing (`parse_isSome_iff_charges`).
So a text can be refused that has no path as long as there are levels, and a
tree that is read can be higher than there are levels. How far the two come
apart depends on the lengths of the chains (`parse_isSome_of_length_le`,
`height_le_of_parse_eq_some`).
-/

namespace LogicCalculator

theorem choose_two_succ (n : Nat) : (n + 1).choose 2 = n + n.choose 2 := by
  rw [Nat.choose_succ_succ, Nat.choose_one_right]

/-- A step on a path through a phrase. A right operand has operators of its
chain in front of the one that it belongs to. -/
inductive Turn where
  | not
  | group
  | left
  | right (before : Nat)
deriving DecidableEq, Repr

/-- The levels that a turn takes. -/
def Turn.charge : Turn → Nat
  | not => 1
  | group => 1
  | left => 0
  | right before => before + 2

namespace Phrase

/-- The paths from the root to the leaves. -/
def paths : Phrase → List (List Turn)
  | ident _ => [[]]
  | not operand => operand.paths.map (.not :: ·)
  | group body => body.paths.map (.group :: ·)
  | binary _ left right =>
    left.paths.map (.left :: ·) ++ right.paths.map (.right left.spine :: ·)

/-- The last token of a path takes one level more than its turns. -/
theorem forall_paths_charge_lt_iff {c : Phrase} {base n : Nat} :
    (∀ path ∈ c.paths, base + (path.map Turn.charge).sum < n) ↔ base + c.demand ≤ n := by
  induction c generalizing base with
  | ident name =>
    simp only [paths, demand, List.forall_mem_singleton, List.map_nil, List.sum_nil]
    omega
  | not c ih | group c ih =>
    simp only [paths, demand, List.forall_mem_map, List.map_cons, List.sum_cons, Turn.charge,
      ← Nat.add_assoc, ih]
    omega
  | binary op l r ihl ihr =>
    simp only [paths, demand, List.forall_mem_append, List.forall_mem_map, List.map_cons,
      List.sum_cons, Turn.charge, ← Nat.add_assoc, Nat.add_zero, ihl, ihr]
    omega

/-- The path to the first term turns left at each operator of the spine. -/
theorem exists_spine_le_length (c : Phrase) : ∃ path ∈ c.paths, c.spine ≤ path.length := by
  induction c with
  | ident name => exact ⟨[], by simp [paths], Nat.le_refl 0⟩
  | not c ih | group c ih =>
    obtain ⟨path, hpath, -⟩ := ih
    exact ⟨_, List.mem_map_of_mem hpath, Nat.zero_le _⟩
  | binary op l r ihl _ =>
    obtain ⟨path, hpath, hspine⟩ := ihl
    exact ⟨_, List.mem_append_left _ (List.mem_map_of_mem hpath), Nat.succ_le_succ hspine⟩

/-- On short paths no chain is long, so the turns of short paths take few levels. -/
theorem demand_le_choose {c : Phrase} {n : Nat} (h : ∀ path ∈ c.paths, path.length ≤ n) :
    c.demand ≤ (n + 2).choose 2 := by
  induction c generalizing n with
  | ident name => exact Nat.choose_pos (Nat.le_add_left 2 n)
  | not c ih | group c ih =>
    rw [paths, List.forall_mem_map] at h
    obtain ⟨path, hpath, -⟩ := c.exists_spine_le_length
    obtain _ | n := n
    · exact absurd (h path hpath) (Nat.not_succ_le_zero _)
    · have hdemand := ih fun path hpath => Nat.le_of_succ_le_succ (h path hpath)
      rw [demand, choose_two_succ (n + 2)]
      omega
  | binary op l r ihl ihr =>
    rw [paths, List.forall_mem_append, List.forall_mem_map, List.forall_mem_map] at h
    obtain ⟨hleft, hright⟩ := h
    obtain ⟨path, hpath, hspine⟩ := l.exists_spine_le_length
    obtain _ | n := n
    · exact absurd (hleft path hpath) (Nat.not_succ_le_zero _)
    · have hlength := Nat.le_of_succ_le_succ (hleft path hpath)
      have hl := ihl fun path hpath => Nat.le_of_succ_le_succ (hleft path hpath)
      have hr := ihr fun path hpath => Nat.le_of_succ_le_succ (hright path hpath)
      rw [demand, choose_two_succ (n + 2)]
      omega

end Phrase

-- ---------------------------------------------------------------------------
-- Long texts
-- ---------------------------------------------------------------------------

namespace Phrase

/-- The phrase behind `NOT`s. -/
def negated (n : Nat) (c : Phrase) : Phrase :=
  Nat.repeat .not n c

/-- A chain of the phrase and of operands behind it. -/
def conjoined (n : Nat) (c : Phrase) : Phrase :=
  Nat.repeat (.binary .and · (.ident "X")) n c

end Phrase

namespace Scanner

variable {text operand : String} {c r : Phrase}

theorem spells_name : Spells .term "X".toList (.ident "X") :=
  spells_ident (by decide +kernel)

theorem Spells.conjunction (h : Spells (.chain .and) text.toList c)
    (hr : Spells .term operand.toList r) :
    Spells (.chain .and) (text ++ " AND " ++ operand).toList (.binary .and c r) := by
  simpa [BinaryOperator.keyword] using h.chain .and hr

theorem Spells.negated (n : Nat) (h : Spells .term text.toList c) :
    Spells .term (String.join (List.replicate n "NOT ") ++ text).toList (c.negated n) := by
  induction n with
  | zero => simpa [Phrase.negated, Nat.repeat] using h
  | succ n ih => simpa [List.replicate_succ, Phrase.negated, Nat.repeat] using ih.not

theorem Spells.conjoined (n : Nat) (h : Spells (.chain .and) text.toList c) :
    Spells (.chain .and) (text ++ String.join (List.replicate n " AND X")).toList
      (c.conjoined n) := by
  induction n with
  | zero => simpa [Phrase.conjoined, Nat.repeat] using h
  | succ n ih =>
    simpa [List.replicate_succ', Phrase.conjoined, Nat.repeat] using ih.conjunction spells_name

end Scanner

-- ---------------------------------------------------------------------------
-- What a path takes
-- ---------------------------------------------------------------------------

/-- A text of the grammar is read as a tree if and only if the turns of each
path take fewer levels than there are. -/
theorem parse_isSome_iff_charges {source : String} {c : Phrase}
    (d : Derives .expression (words source) c) :
    (Parser.ofString source).parse.1.isSome ↔
      ∀ path ∈ c.paths, (path.map Turn.charge).sum < nestingLimit := by
  have hfits := @Phrase.forall_paths_charge_lt_iff c 0 nestingLimit
  simp only [Nat.zero_add] at hfits
  rw [hfits, Parser.parse_eq_ite d, Option.isSome_ite]

theorem parse_isSome_iff_charges_nots :
    let source := String.join (List.replicate 255 "NOT ") ++ "X"
    ∃ c, Derives .expression (words source) c ∧
      (∀ path ∈ c.paths, (path.map Turn.charge).sum < nestingLimit) ∧
      (Parser.ofString source).parse.1.isSome := by
  have d := derives_words_of_spells (Scanner.spells_name.negated 255)
  have hpaths : ∀ path ∈ (Phrase.negated 255 (.ident "X")).paths,
      (path.map Turn.charge).sum < nestingLimit := by
    decide +kernel
  exact ⟨_, d, hpaths, (parse_isSome_iff_charges d).mpr hpaths⟩

/-- An operand that is accepted behind the first operator is not accepted behind
the last operator of a chain, although no path has more than half as many turns
as there are levels. -/
theorem exists_short_paths_parse_eq_none :
    let operand := String.join (List.replicate 127 "NOT ") ++ "X"
    let chain := "X" ++ String.join (List.replicate 127 " AND X")
    (∃ c, Derives .expression (words (chain ++ " AND " ++ operand)) c ∧
      ∀ path ∈ c.paths, path.length ≤ 128) ∧
    (Parser.ofString (chain ++ " AND " ++ operand)).parse.1 = none ∧
    (Parser.ofString ("X" ++ " AND " ++ operand)).parse.1.isSome := by
  have hx := Scanner.spells_name.widen (Stratum.rank_le_term (.chain .and))
  have hoperand := Scanner.spells_name.negated 127
  have dlong := derives_words_of_spells ((hx.conjoined 127).conjunction hoperand)
  have dshort := derives_words_of_spells (hx.conjunction hoperand)
  refine ⟨⟨_, dlong, by decide +kernel⟩, ?_, ?_⟩
  · rw [Parser.parse_eq_ite dlong, if_neg (by decide +kernel)]
  · rw [Parser.parse_eq_ite dshort, if_pos (by decide +kernel)]
    rfl

/-- A text of the grammar is not refused if none of its paths has more turns
than this. -/
theorem parse_isSome_of_length_le {source : String} {c : Phrase}
    (d : Derives .expression (words source) c) (h : ∀ path ∈ c.paths, path.length ≤ 21) :
    (Parser.ofString source).parse.1.isSome := by
  have hfits : c.demand ≤ nestingLimit := (Phrase.demand_le_choose h).trans (by decide)
  rw [Parser.parse_eq_ite d, if_pos hfits]
  rfl

-- ---------------------------------------------------------------------------
-- How high a tree can be
-- ---------------------------------------------------------------------------

/-- The operator nodes on the longest path from the root to a leaf. -/
def Expr.height : Expr → Nat
  | var _ => 0
  | not operand => operand.height + 1
  | binary _ left right => max left.height right.height + 1

/-- The height of the highest tree of a term that takes so many levels: one for
a name, two for `NOT`s in front of it, and each of the others for a group with a
chain in it. -/
def termHeight (levels : Nat) : Nat :=
  (levels - 2).choose 2 + min (levels - 1) 2

theorem termHeight_mono {m n : Nat} (h : m ≤ n) : termHeight m ≤ termHeight n :=
  Nat.add_le_add (Nat.choose_le_choose 2 (by omega)) (by omega)

/-- A group takes one level, whatever the length of the chain in it. -/
theorem chain_le_termHeight (levels : Nat) :
    levels - 2 + termHeight levels ≤ termHeight (levels + 1) := by
  unfold termHeight
  rcases levels with _ | _ | levels
  · decide
  · decide
  · simp only [Nat.add_sub_cancel, Nat.reduceSubDiff, choose_two_succ]
    omega

theorem not_le_termHeight {levels : Nat} (h : 0 < levels) :
    termHeight levels + 1 ≤ termHeight (levels + 1) := by
  have hchain := chain_le_termHeight levels
  rcases levels with _ | _ | _ | levels
  · contradiction
  · decide
  · decide
  · omega

theorem Phrase.spine_le (c : Phrase) : c.spine ≤ c.demand - 2 := by
  cases c with
  | ident | not | group => exact Nat.zero_le _
  | binary op l r =>
    have hr := r.demand_pos
    simp only [spine, demand]
    omega

/-- The operators of a chain come on top of the highest of its terms. -/
theorem Derives.height_le {s : Stratum} {w : List Token} {c : Phrase} (d : Derives s w c) :
    c.erase.height ≤ c.spine + termHeight c.demand := by
  induction d with
  | ident h => simp [Phrase.erase, Expr.height]
  | @not _ _ c h d ih =>
    rw [d.spine_eq_zero] at ih
    have hnot := not_le_termHeight c.demand_pos
    simp only [Phrase.erase, Expr.height, Phrase.demand]
    omega
  | @group _ _ _ c h d h' ih =>
    have hspine := c.spine_le
    have hgroup := chain_le_termHeight c.demand
    simp only [Phrase.erase, Phrase.demand]
    omega
  | single d ih => exact ih
  | @chain _ _ _ _ l r dl h dr ihl ihr =>
    have hl := termHeight_mono (Nat.le_max_left l.demand (l.spine + 2 + r.demand))
    have hr : termHeight (r.demand + 1) ≤ termHeight (max l.demand (l.spine + 2 + r.demand)) :=
      termHeight_mono (by omega)
    have hspine := r.spine_le
    have hchain := chain_le_termHeight r.demand
    simp only [Phrase.erase, Expr.height, Phrase.spine, Phrase.demand]
    omega

theorem Derives.height_le_choose {s : Stratum} {w : List Token} {c : Phrase}
    (d : Derives s w c) : c.erase.height ≤ (c.demand - 1).choose 2 + 2 := by
  have hheight := d.height_le
  have hspine := c.spine_le
  calc
    c.erase.height ≤ c.demand - 2 + termHeight c.demand := by omega
    _ ≤ termHeight (c.demand + 1) := chain_le_termHeight c.demand
    _ ≤ (c.demand - 1).choose 2 + 2 := Nat.add_le_add_left (Nat.min_le_right ..) _

namespace Phrase

/-- No chain has two operators: every left operand is a term. -/
def Unchained : Phrase → Prop
  | ident _ => True
  | not operand => operand.Unchained
  | group body => body.Unchained
  | binary _ left right => left.spine = 0 ∧ left.Unchained ∧ right.Unchained

def decUnchained : (c : Phrase) → Decidable c.Unchained
  | ident _ => .isTrue trivial
  | not operand => operand.decUnchained
  | group body => body.decUnchained
  | binary _ left right =>
    have := left.decUnchained
    have := right.decUnchained
    inferInstanceAs (Decidable (left.spine = 0 ∧ left.Unchained ∧ right.Unchained))

instance (c : Phrase) : Decidable c.Unchained := c.decUnchained

end Phrase

/-- A term takes a level more than it has operators on a path. The one operator
of a chain makes up for that. -/
theorem Derives.height_le_demand {s : Stratum} {w : List Token} {c : Phrase} (d : Derives s w c)
    (hc : c.Unchained) :
    c.erase.height ≤ c.demand ∧ (c.spine = 0 → c.erase.height < c.demand) := by
  induction d with
  | ident h => simp [Phrase.erase, Expr.height, Phrase.demand]
  | not h d ih =>
    have hlt := (ih hc).2 d.spine_eq_zero
    simp only [Phrase.erase, Expr.height, Phrase.demand]
    omega
  | group h d h' ih =>
    have hle := (ih hc).1
    simp only [Phrase.erase, Phrase.demand]
    omega
  | single d ih => exact ih hc
  | chain dl h dr ihl ihr =>
    obtain ⟨hspine, hl, hr⟩ := hc
    have hlt := (ihl hl).2 hspine
    have hle := (ihr hr).1
    simp only [Phrase.erase, Expr.height, Phrase.demand, Phrase.spine]
    omega

theorem Parser.height_le {source : String} {e : Expr} (h : (ofString source).parse.1 = some e) :
    e.height ≤ (nestingLimit - 1).choose 2 + 2 := by
  obtain ⟨c, d, hc, rfl⟩ := exists_derives_of_parse h
  have hchoose := Nat.choose_le_choose 2 (Nat.sub_le_sub_right hc 1)
  exact d.height_le_choose.trans (Nat.add_le_add_right hchoose 2)

/-- A tree that is read can be higher than there are levels, by the chains in
its groups, but has no more than 32387 operators on a path. It is not higher
than there are levels when no chain has two operators. -/
theorem height_le_of_parse_eq_some {source : String} {e : Expr}
    (h : (Parser.ofString source).parse.1 = some e) :
    e.height ≤ (nestingLimit - 1).choose 2 + 2 ∧
      ∀ c, Derives .expression (words source) c → c.Unchained → e.height ≤ nestingLimit := by
  refine ⟨Parser.height_le h, fun c d hc => ?_⟩
  rw [Parser.parse_eq_ite d, Option.ite_none_right_eq_some] at h
  obtain ⟨hfits, he⟩ := h
  obtain rfl := Option.some.inj he
  exact (d.height_le_demand hc).1.trans hfits

theorem height_le_of_parse_eq_some_nots :
    let source := String.join (List.replicate 255 "NOT ") ++ "X" ++ " AND " ++ "X"
    ∃ e c, (Parser.ofString source).parse.1 = some e ∧ e.height = nestingLimit ∧
      e.height ≤ (nestingLimit - 1).choose 2 + 2 ∧
      Derives .expression (words source) c ∧ c.Unchained ∧ e.height ≤ nestingLimit := by
  have hleft := (Scanner.spells_name.negated 255).widen (Stratum.rank_le_term (.chain .and))
  have d := derives_words_of_spells (hleft.conjunction Scanner.spells_name)
  have h := (Parser.parse_eq_ite d).trans (if_pos (by decide +kernel))
  have hc : (Phrase.binary .and (.negated 255 (.ident "X")) (.ident "X")).Unchained := by
    decide +kernel
  obtain ⟨hle, hunchained⟩ := height_le_of_parse_eq_some h
  exact ⟨_, _, h, by decide +kernel, hle, d, hc, hunchained _ d hc⟩

/-- A deep operand at the head of a chain is read, although the operators behind
it make the tree higher than there are levels. -/
theorem exists_height_gt_nestingLimit :
    let source := String.join (List.replicate 255 "NOT ") ++ "X" ++
      String.join (List.replicate 2 " AND X")
    ∃ e, (Parser.ofString source).parse.1 = some e ∧ e.height = 257 := by
  have hleft := (Scanner.spells_name.negated 255).widen (Stratum.rank_le_term (.chain .and))
  have d := derives_words_of_spells (hleft.conjoined 2)
  have h := (Parser.parse_eq_ite d).trans (if_pos (by decide +kernel))
  exact ⟨_, h, by decide +kernel⟩

-- ---------------------------------------------------------------------------
-- The highest tree
-- ---------------------------------------------------------------------------

/-- The phrase with the highest tree: a chain in a group at the head of a longer
chain, and so on. -/
def Phrase.tower : Nat → Phrase
  | 0 => .conjoined 1 (.negated 2 (.ident "X"))
  | n + 1 => .conjoined (n + 2) (.group (tower n))

def towerText : Nat → String
  | 0 => String.join (List.replicate 2 "NOT ") ++ "X" ++ String.join (List.replicate 1 " AND X")
  | n + 1 => "(" ++ towerText n ++ ")" ++ String.join (List.replicate (n + 2) " AND X")

theorem Scanner.spells_towerText (n : Nat) :
    Spells (.chain .and) (towerText n).toList (.tower n) := by
  induction n with
  | zero =>
    exact ((spells_name.negated 2).widen (Stratum.rank_le_term _)).conjoined 1
  | succ n ih =>
    have hgroup : Spells .term ("(" ++ towerText n ++ ")").toList (.group (.tower n)) := by
      simpa using (ih.widen (Stratum.rank_expression_le _)).group
    exact (hgroup.widen (Stratum.rank_le_term _)).conjoined (n + 2)

namespace Phrase

variable (n : Nat) (c : Phrase)

theorem spine_conjoined : (c.conjoined n).spine = c.spine + n := by
  induction n with
  | zero => rfl
  | succ n ih => rw [conjoined, Nat.repeat, spine, ← conjoined, ih, Nat.add_assoc]

theorem demand_conjoined_succ :
    (c.conjoined (n + 1)).demand = max c.demand (c.spine + n + 3) := by
  induction n with
  | zero => rfl
  | succ n ih =>
    rw [conjoined, Nat.repeat, demand, ← conjoined, ih, spine_conjoined, demand]
    omega

theorem height_conjoined : (c.conjoined n).erase.height = c.erase.height + n := by
  induction n with
  | zero => rfl
  | succ n ih =>
    rw [conjoined, Nat.repeat, erase, ← conjoined, Expr.height, ih, erase, Expr.height]
    omega

theorem demand_tower : (tower n).demand = n + 3 := by
  induction n with
  | zero => rfl
  | succ n ih =>
    have hspine : (group (tower n)).spine = 0 := rfl
    rw [tower, demand_conjoined_succ, demand, ih, hspine]
    omega

theorem height_tower : (tower n).erase.height = (n + 2).choose 2 + 2 := by
  induction n with
  | zero => rfl
  | succ n ih =>
    rw [tower, height_conjoined, erase, ih, choose_two_succ (n + 2)]
    omega

end Phrase

/-- No better bound holds for the height of trees that are read. -/
theorem exists_height_eq :
    ∃ source e, (Parser.ofString source).parse.1 = some e ∧
      e.height = (nestingLimit - 1).choose 2 + 2 := by
  have d := derives_words_of_spells (Scanner.spells_towerText (nestingLimit - 3))
  have hfits : (Phrase.tower (nestingLimit - 3)).demand ≤ nestingLimit :=
    (Phrase.demand_tower _).le
  exact ⟨_, _, (Parser.parse_eq_ite d).trans (if_pos hfits), Phrase.height_tower _⟩

end LogicCalculator
