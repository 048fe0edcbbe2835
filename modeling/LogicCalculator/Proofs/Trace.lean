import LogicCalculator.Proofs.Denotation

/-!
# What evaluation records

The steps of an evaluation are those of the operator nodes whose variables are
all bound, tree by tree and in post-order, and they are numbered through
(`steps_ofTrees`).
-/

namespace LogicCalculator

/-- A node that applies an operator. -/
inductive Operation where
  | not (operand : Expr)
  | binary (operator : BinaryOperator) (left right : Expr)

namespace Operation

def toExpr : Operation → Expr
  | not operand => .not operand
  | binary operator left right => .binary operator left right

def step (b : Bindings) (index : Nat) : Operation → Step
  | not operand => ⟨"NOT", none, operand.bit b, (Expr.not operand).bit b, index⟩
  | binary operator left right =>
    ⟨operator.keyword, some (left.bit b), right.bit b, (Expr.binary operator left right).bit b,
      index⟩

@[simp] theorem index_step (b : Bindings) (index : Nat) (o : Operation) :
    (o.step b index).index = index := by
  cases o <;> rfl

@[simp] theorem result_step (b : Bindings) (index : Nat) (o : Operation) :
    (o.step b index).result = o.toExpr.bit b := by
  cases o <;> rfl

end Operation

/-- The operator nodes of a tree in post-order. -/
def Expr.operations : Expr → List Operation
  | var _ => []
  | not operand => operand.operations ++ [.not operand]
  | binary operator left right =>
    left.operations ++ right.operations ++ [.binary operator left right]

def Expr.computable (b : Bindings) (e : Expr) : List Operation :=
  e.operations.filter fun o => o.toExpr.IsBound b

/-- The steps of nodes that complete in this order, numbered from `first` on. -/
def Operation.steps (b : Bindings) (first : Nat) (nodes : List Operation) : List Step :=
  (nodes.zipIdx first).map fun (o, index) => o.step b index

@[simp] theorem Operation.length_steps (b : Bindings) (first : Nat) (nodes : List Operation) :
    (Operation.steps b first nodes).length = nodes.length := by
  simp [steps]

theorem Operation.steps_append (b : Bindings) (first : Nat) (nodes more : List Operation) :
    Operation.steps b first (nodes ++ more) =
      Operation.steps b first nodes ++ Operation.steps b (first + nodes.length) more := by
  rw [steps, List.zipIdx_append, List.map_append]
  rfl

theorem Operation.steps_singleton (b : Bindings) (first : Nat) (o : Operation) :
    Operation.steps b first [o] = [o.step b first] := rfl

theorem Operation.index_steps (b : Bindings) (first : Nat) (nodes : List Operation) :
    (Operation.steps b first nodes).map Step.index = List.range' first nodes.length := by
  rw [steps, List.map_map, ← List.zipIdx_map_snd]
  exact List.map_congr_left fun _ _ => Operation.index_step b _ _

-- ---------------------------------------------------------------------------
-- Added steps
-- ---------------------------------------------------------------------------

namespace Evaluation

variable {b : Bindings} {u v w : Evaluation} {nodes more : List Operation}

/-- `w` has the steps of `v` and behind them those of the nodes. -/
def Records (b : Bindings) (v : Evaluation) (nodes : List Operation) (w : Evaluation) : Prop :=
  w.steps.toList = v.steps.toList ++ Operation.steps b v.steps.size nodes

theorem Records.refl (b : Bindings) (v : Evaluation) : Records b v [] v := by
  simp [Records, Operation.steps]

theorem Records.size (h : Records b v nodes w) : w.steps.size = v.steps.size + nodes.length := by
  have := congrArg List.length h
  simpa using this

theorem Records.trans (h : Records b v nodes w) (h' : Records b w more u) :
    Records b v (nodes ++ more) u := by
  unfold Records
  rw [h', h, h.size, List.append_assoc]
  simp [Operation.steps, List.zipIdx_append]

theorem records_record (v : Evaluation) (o : Operation) {operator : String} {left : Option Bit}
    {right result : Bit}
    (h : o.step b v.steps.size = ⟨operator, left, right, result, v.steps.size⟩) :
    Records b v [o] (v.record operator left right result) := by
  simp [Records, Operation.steps, record, h]

end Evaluation

namespace Expr

variable {b : Bindings} {e operand left right : Expr} {op : BinaryOperator}

theorem computable_not : (not operand).computable b =
    operand.computable b ++ if operand.IsBound b then [.not operand] else [] := by
  by_cases h : operand.IsBound b <;>
    simp [computable, operations, Operation.toExpr, isBound_not, h]

theorem computable_binary : (binary op left right).computable b =
    left.computable b ++ right.computable b ++
      if left.IsBound b ∧ right.IsBound b then [.binary op left right] else [] := by
  by_cases h : left.IsBound b ∧ right.IsBound b <;>
    simp [computable, operations, Operation.toExpr, isBound_binary, h]

open Evaluation

theorem records_concludeNot {r : Option Bit × Evaluation}
    (h : r.1 = if operand.IsBound b then some (operand.bit b) else none) :
    Records b r.2 (if operand.IsBound b then [.not operand] else []) (concludeNot r).2 := by
  obtain ⟨x, v⟩ := r
  obtain rfl : x = _ := h
  split
  · exact records_record v _ (by rw [Operation.step, bit_not, notKeyword])
  · exact .refl b v

theorem records_concludeBinary {x : Option Bit} {r : Option Bit × Evaluation}
    (hx : x = if left.IsBound b then some (left.bit b) else none)
    (hr : r.1 = if right.IsBound b then some (right.bit b) else none) :
    Records b r.2 (if left.IsBound b ∧ right.IsBound b then [.binary op left right] else [])
      (concludeBinary op x r).2 := by
  obtain ⟨y, v⟩ := r
  obtain rfl : y = _ := hr
  subst hx
  by_cases hl : left.IsBound b <;> by_cases hr : right.IsBound b
  · rw [if_pos hl, if_pos hr, if_pos ⟨hl, hr⟩]
    exact records_record v _ (by rw [Operation.step, bit_binary])
  · rw [if_pos hl, if_neg hr, if_neg (mt And.right hr)]
    exact .refl b v
  · rw [if_neg hl, if_neg (mt And.left hl)]
    exact .refl b v
  · rw [if_neg hl, if_neg (mt And.left hl)]
    exact .refl b v

-- ---------------------------------------------------------------------------
-- Runs
-- ---------------------------------------------------------------------------

/-- An evaluation adds the steps of its tree. -/
theorem records_evaluate (b : Bindings) (e : Expr) (v : Evaluation) :
    Records b v (e.computable b) (e.evaluate b v).2 := by
  induction e generalizing v with
  | var name =>
    simp only [evaluate]
    cases b.get? name
    · exact Records.refl b v
    · exact Records.refl b v
  | not operand ih =>
    rw [evaluate_not, computable_not]
    exact (ih v).trans (records_concludeNot (evaluate_fst b operand v))
  | binary op left right ihl ihr =>
    rw [evaluate_binary, computable_binary]
    exact ((ihl v).trans (ihr _)).trans
      (records_concludeBinary (evaluate_fst b left v) (evaluate_fst b right _))

theorem records_ofTrees (b : Bindings) (trees : List Expr) :
    Records b .empty (trees.flatMap (computable b)) (.ofTrees b trees) := by
  rcases List.eq_nil_or_concat trees with rfl | ⟨earlier, e, rfl⟩
  · exact .refl b .empty
  · rw [List.concat_eq_append, ofTrees_concat, List.flatMap_append, List.flatMap_singleton]
    exact (records_ofTrees b earlier).trans (records_evaluate b e _)
termination_by trees.length

/-- A bound operator node is the last of its own operations to complete. -/
theorem computable_eq_concat (h : e.IsBound b) (hv : ∀ name, e ≠ .var name) :
    ∃ nodes o, e.computable b = nodes ++ [o] ∧ o.toExpr = e := by
  cases e with
  | var name => exact absurd rfl (hv name)
  | not operand => exact ⟨_, .not operand, by rw [computable_not, if_pos (isBound_not.mp h)], rfl⟩
  | binary op left right =>
    exact ⟨_, .binary op left right, by rw [computable_binary, if_pos (isBound_binary.mp h)], rfl⟩

/-- The steps of a run: one for each operator node without an unbound variable,
tree by tree and in post-order, with its place in the trace as the index. A call
that gives the bit of an operator node ends the trace with that bit. -/
theorem steps_ofTrees (b : Bindings) (trees : List Expr) :
    let trace := (Evaluation.ofTrees b trees).steps.toList
    trace =
        ((trees.flatMap operations).filter fun o => o.toExpr.IsBound b).zipIdx.map
          (fun (o, index) => o.step b index) ∧
      trace.map Step.index = List.range trace.length ∧
      ∀ e bit, (e.evaluate b (.ofTrees b trees)).1 = some bit → (∀ name, e ≠ .var name) →
        (Evaluation.ofTrees b (trees ++ [e])).steps.back?.map Step.result = some bit := by
  have htrace : (Evaluation.ofTrees b trees).steps.toList =
      Operation.steps b 0 (trees.flatMap (computable b)) := records_ofTrees b trees
  refine ⟨?_, ?_, ?_⟩
  · rw [htrace, Operation.steps, List.filter_flatMap]
    rfl
  · rw [htrace, Operation.index_steps, Operation.length_steps, List.range_eq_range']
  · intro e bit hbit hv
    rw [evaluate_fst] at hbit
    obtain ⟨hbound, rfl⟩ : e.IsBound b ∧ e.bit b = bit := by simpa using hbit
    obtain ⟨nodes, o, hnodes, rfl⟩ := computable_eq_concat hbound hv
    -- the last node to complete is the tree itself
    have hsteps := records_evaluate b o.toExpr (.ofTrees b trees)
    rw [hnodes, Records, Operation.steps, List.zipIdx_append] at hsteps
    rw [ofTrees_concat, ← Array.getLast?_toList, hsteps]
    simp

theorem steps_ofTrees_after_failure :
    let b := Bindings.ofList [("x", .one)]
    let failing := Expr.binary .and (.not (.var "x")) (.var "y")
    let e := Expr.binary .or (.var "x") (.not (.var "x"))
    ((e.evaluate b (.ofTrees b [failing])).1 = some .one ∧ ∀ name, e ≠ .var name) ∧
      (Evaluation.ofTrees b ([failing] ++ [e])).steps.back?.map Step.result = some .one ∧
      (Evaluation.ofTrees b ([failing] ++ [e])).steps.toList =
        [⟨"NOT", none, .one, .zero, 0⟩, ⟨"NOT", none, .one, .zero, 1⟩,
          ⟨"OR", some .one, .zero, .one, 2⟩] := by
  intro b failing e
  have hbit : (e.evaluate b (.ofTrees b [failing])).1 = some .one := by decide
  have hsteps := (steps_ofTrees b ([failing] ++ [e])).1
  exact ⟨⟨hbit, nofun⟩, (steps_ofTrees b [failing]).2.2 e _ hbit nofun,
    hsteps.trans (by decide)⟩

end Expr

end LogicCalculator
