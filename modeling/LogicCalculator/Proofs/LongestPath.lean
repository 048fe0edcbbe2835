import LogicCalculator.Proofs.Nesting

/-!
# The longest path

From the root of a tree to its leaves lead paths over the operators. The
longest has as many operators as the tree is high, so the height of the trees
that are read is exactly what a recursion on one of them has to get through
(`longest_path`).
-/

namespace LogicCalculator

namespace Expr

/-- The operators on the ways from the root to the leaves, by their keywords. -/
def paths : Expr → List (List String)
  | var _ => [[]]
  | not operand => operand.paths.map (notKeyword :: ·)
  | binary operator left right => (left.paths ++ right.paths).map (operator.keyword :: ·)

theorem length_le_height {e : Expr} {path : List String} (h : path ∈ e.paths) :
    path.length ≤ e.height := by
  induction e generalizing path with
  | var name =>
    obtain rfl : path = [] := by simpa [paths] using h
    exact Nat.le_refl 0
  | not e ih =>
    obtain ⟨rest, hrest, rfl⟩ := List.mem_map.mp h
    exact Nat.succ_le_succ (ih hrest)
  | binary op l r ihl ihr =>
    obtain ⟨rest, hrest, rfl⟩ := List.mem_map.mp h
    refine Nat.succ_le_succ ?_
    obtain hrest | hrest := List.mem_append.mp hrest
    · exact (ihl hrest).trans (Nat.le_max_left ..)
    · exact (ihr hrest).trans (Nat.le_max_right ..)

theorem exists_length_eq_height (e : Expr) : ∃ path ∈ e.paths, path.length = e.height := by
  induction e with
  | var name => exact ⟨[], by simp [paths], rfl⟩
  | not e ih =>
    obtain ⟨path, hpath, hlength⟩ := ih
    exact ⟨_, List.mem_map_of_mem hpath, congrArg Nat.succ hlength⟩
  | binary op l r ihl ihr =>
    -- the longer one of the two paths goes on
    suffices ∃ path ∈ l.paths ++ r.paths, path.length = max l.height r.height by
      obtain ⟨path, hpath, hlength⟩ := this
      exact ⟨_, List.mem_map_of_mem hpath, congrArg Nat.succ hlength⟩
    obtain hle | hle := Nat.le_total l.height r.height
    · obtain ⟨path, hpath, hlength⟩ := ihr
      exact ⟨path, List.mem_append_right _ hpath, by rw [hlength, Nat.max_eq_right hle]⟩
    · obtain ⟨path, hpath, hlength⟩ := ihl
      exact ⟨path, List.mem_append_left _ hpath, by rw [hlength, Nat.max_eq_left hle]⟩

end Expr

theorem choose_two_nestingLimit : (nestingLimit - 1).choose 2 = 254 * 255 / 2 := by
  rw [Nat.choose_two_right, Nat.mul_comm]
  rfl

/-- No tree that is read has more operators than this on a path, and one has as
many. -/
theorem longest_path :
    (∀ source e, (Parser.ofString source).parse.1 = some e →
      ∀ path ∈ e.paths, path.length ≤ 254 * 255 / 2 + 2) ∧
    ∃ source e, (Parser.ofString source).parse.1 = some e ∧
      ∃ path ∈ e.paths, path.length = 254 * 255 / 2 + 2 := by
  rw [← choose_two_nestingLimit]
  constructor
  · intro source e h path hpath
    exact (Expr.length_le_height hpath).trans (Parser.height_le h)
  · obtain ⟨source, e, h, hheight⟩ := exists_height_eq
    obtain ⟨path, hpath, hlength⟩ := e.exists_length_eq_height
    exact ⟨source, e, h, path, hpath, hlength.trans hheight⟩

end LogicCalculator
