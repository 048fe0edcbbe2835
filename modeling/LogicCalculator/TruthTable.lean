import LogicCalculator.Calculation

/-!
# Truth tables

The rows of a truth table count up in binary, with the first name as the most
significant bit. A name that is listed twice takes its later bit.
-/

namespace LogicCalculator.TruthTable

/-- All ways to give bits to the names, in the order of the rows. -/
def assignments : List String → List (List (String × Bit))
  | [] => [[]]
  | name :: rest =>
    (assignments rest).map ((name, .zero) :: ·) ++ (assignments rest).map ((name, .one) :: ·)

def rows (source : String) (names : List String) : List (Except Failure Calculation) :=
  (assignments names).map fun pairs => calculate source (Bindings.ofList pairs)

theorem length_assignments (names : List String) :
    (assignments names).length = Nat.pow 2 names.length := by
  induction names with
  | nil => rfl
  | cons name rest ih =>
    simp only [assignments, List.length_append, List.length_map, ih, List.length_cons, Nat.pow]
    exact (Nat.mul_two _).symm

theorem length_rows (source : String) (names : List String) :
    (rows source names).length = Nat.pow 2 names.length := by
  simp [rows, length_assignments]

end LogicCalculator.TruthTable
