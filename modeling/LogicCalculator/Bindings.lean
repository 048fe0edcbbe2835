import LogicCalculator.Bit

/-!
# Bindings

A finite map from variable names to bits. Names are compared exactly, so `x`
and `X` are two names, and no name is bound twice.
-/

namespace LogicCalculator

/-- The bound names with their bits, in the order in which the names were first
bound. That order is not observable through `get?`. -/
structure Bindings where
  entries : List (String × Bit)
  names_nodup : (entries.map Prod.fst).Nodup

namespace Bindings

def empty : Bindings := ⟨[], List.nodup_nil⟩

instance : EmptyCollection Bindings := ⟨empty⟩

instance : Inhabited Bindings := ⟨empty⟩

def names (b : Bindings) : List String := b.entries.map Prod.fst

def size (b : Bindings) : Nat := b.entries.length

def find? (name : String) : List (String × Bit) → Option Bit
  | [] => none
  | (other, bit) :: rest => if other = name then some bit else find? name rest

def get? (b : Bindings) (name : String) : Option Bit := find? name b.entries

def contains (b : Bindings) (name : String) : Bool := (b.get? name).isSome

/-- Rebinding a name keeps its place; a new name goes to the end. -/
def put (name : String) (bit : Bit) : List (String × Bit) → List (String × Bit)
  | [] => [(name, bit)]
  | (other, value) :: rest =>
    if other = name then (name, bit) :: rest else (other, value) :: put name bit rest

theorem names_put (name : String) (bit : Bit) (entries : List (String × Bit)) :
    (put name bit entries).map Prod.fst =
      if name ∈ entries.map Prod.fst then entries.map Prod.fst
      else entries.map Prod.fst ++ [name] := by
  induction entries with
  | nil => simp [put]
  | cons entry rest ih =>
    obtain ⟨other, value⟩ := entry
    by_cases h : other = name
    · simp [put, h]
    · have h' : ¬ name = other := fun e => h e.symm
      simp only [put, h, if_false, List.map_cons, ih, List.mem_cons, h', false_or]
      split <;> simp

theorem nodup_put (name : String) (bit : Bit) {entries : List (String × Bit)}
    (h : (entries.map Prod.fst).Nodup) : ((put name bit entries).map Prod.fst).Nodup := by
  rw [names_put]
  split
  · exact h
  · rename_i hn
    refine List.nodup_append.mpr ⟨h, by simp, ?_⟩
    intro a ha b hb hab
    rw [List.mem_singleton] at hb
    exact hn (hb ▸ hab ▸ ha)

def insert (b : Bindings) (name : String) (bit : Bit) : Bindings :=
  ⟨put name bit b.entries, nodup_put name bit b.names_nodup⟩

/-- Binds the pairs one after the other; of two bits for one name the later
one stays. -/
def ofList (pairs : List (String × Bit)) : Bindings :=
  pairs.foldl (fun b (name, bit) => b.insert name bit) ∅

@[simp] theorem get?_empty (name : String) : (∅ : Bindings).get? name = none := rfl

theorem find?_put (name other : String) (bit : Bit) (entries : List (String × Bit)) :
    find? other (put name bit entries) =
      if name = other then some bit else find? other entries := by
  induction entries with
  | nil => rfl
  | cons entry rest ih =>
    obtain ⟨key, value⟩ := entry
    by_cases hk : key = name
    · subst hk
      by_cases h : key = other <;> simp [put, find?, h]
    · by_cases ho : key = other
      · subst ho
        simp [put, find?, hk, Ne.symm hk]
      · simp [put, find?, hk, ho, ih]

theorem get?_insert (b : Bindings) (name other : String) (bit : Bit) :
    (b.insert name bit).get? other = if name = other then some bit else b.get? other :=
  find?_put name other bit b.entries

theorem find?_isSome_iff (name : String) (entries : List (String × Bit)) :
    (find? name entries).isSome ↔ name ∈ entries.map Prod.fst := by
  induction entries with
  | nil => simp [find?]
  | cons entry rest ih =>
    obtain ⟨other, bit⟩ := entry
    by_cases h : other = name
    · simp [find?, h]
    · simp [find?, h, ih, Ne.symm h]

theorem contains_iff_mem_names {b : Bindings} {name : String} :
    b.contains name ↔ name ∈ b.names :=
  find?_isSome_iff name b.entries

theorem find?_eq_some_iff {name : String} {bit : Bit} {entries : List (String × Bit)}
    (h : (entries.map Prod.fst).Nodup) : find? name entries = some bit ↔ (name, bit) ∈ entries := by
  induction entries with
  | nil => simp [find?]
  | cons entry rest ih =>
    obtain ⟨other, value⟩ := entry
    obtain ⟨hother, hrest⟩ := List.nodup_cons.mp h
    by_cases hn : other = name
    · subst hn
      have hmem : (other, bit) ∉ rest := fun hm => hother (List.mem_map.mpr ⟨_, hm, rfl⟩)
      simp [find?, hmem, eq_comm]
    · simp [find?, hn, Ne.symm hn, ih hrest]

/-- What a name is bound to is what it is entered with. -/
theorem get?_eq_some_iff {b : Bindings} {name : String} {bit : Bit} :
    b.get? name = some bit ↔ (name, bit) ∈ b.entries :=
  find?_eq_some_iff b.names_nodup

end Bindings

end LogicCalculator
