import Mathlib.Data.List.Forall2
import LogicCalculator.Bindings.Entry
import LogicCalculator.Proofs.General

/-!
# Bindings from pairs and texts

Collecting succeeds where no name repeats and stops at the first that does
(`collect_of_not_nodup`). The names are those of the texts, without the blanks around
them (`ReadAs.names`).
-/

namespace LogicCalculator.Bindings

variable {b : Bindings} {name other : String} {bit : Bit} {pairs : List (String × Bit)}

theorem contains_insert : (b.insert name bit).contains other ↔ name = other ∨ b.contains other := by
  rw [contains, get?_insert]
  split
  · next h => simp [h]
  · next h => simp [h, contains]

theorem not_contains_empty (name : String) : ¬ (∅ : Bindings).contains name := by
  simp [contains]

-- ---------------------------------------------------------------------------
-- Pair by pair
-- ---------------------------------------------------------------------------

/-- Each of the names is bound for the first time. -/
def Free (b : Bindings) (names : List String) : Prop :=
  names.Nodup ∧ ∀ name ∈ names, ¬ b.contains name

theorem free_empty_iff {names : List String} : (∅ : Bindings).Free names ↔ names.Nodup :=
  ⟨And.left, fun h => ⟨h, fun name _ => not_contains_empty name⟩⟩

theorem free_nil (b : Bindings) : b.Free [] := ⟨List.nodup_nil, nofun⟩

theorem free_cons (bit : Bit) {names : List String} :
    b.Free (name :: names) ↔ ¬ b.contains name ∧ (b.insert name bit).Free names := by
  simp only [Free, List.nodup_cons, List.forall_mem_cons, contains_insert, not_or]
  constructor
  · rintro ⟨⟨hname, hnodup⟩, hb, hnames⟩
    exact ⟨hb, hnodup, fun other ho => ⟨fun h => hname (h ▸ ho), hnames other ho⟩⟩
  · rintro ⟨hb, hnodup, hnames⟩
    exact ⟨⟨fun h => (hnames name h).1 rfl, hnodup⟩, hb, fun other ho => (hnames other ho).2⟩

theorem extend_of_free (h : b.Free (pairs.map Prod.fst)) :
    b.extend pairs = .ok (pairs.foldl (fun b (name, bit) => b.insert name bit) b) := by
  induction pairs generalizing b with
  | nil => rfl
  | cons pair rest ih =>
    obtain ⟨name, bit⟩ := pair
    obtain ⟨hb, hrest⟩ := (free_cons bit).mp h
    rw [extend, if_neg hb, ih hrest]
    rfl

/-- What is reported is the first name that was bound before. -/
theorem extend_of_not_free (h : ¬ b.Free (pairs.map Prod.fst)) :
    ∃ before name after, pairs.map Prod.fst = before ++ name :: after ∧
      b.Free before ∧ (b.contains name ∨ name ∈ before) ∧
      b.extend pairs = .error (.duplicateName name) := by
  induction pairs generalizing b with
  | nil => exact absurd (free_nil b) h
  | cons pair rest ih =>
    obtain ⟨name, bit⟩ := pair
    by_cases hb : b.contains name
    · exact ⟨[], name, rest.map Prod.fst, rfl, free_nil b, .inl hb, if_pos hb⟩
    · have hrest : ¬ (b.insert name bit).Free (rest.map Prod.fst) :=
        fun hfree => h ((free_cons bit).mpr ⟨hb, hfree⟩)
      obtain ⟨before, other, after, hnames, hfree, hother, herror⟩ := ih hrest
      refine ⟨name :: before, other, after, ?_, (free_cons bit).mpr ⟨hb, hfree⟩, ?_, ?_⟩
      · rw [List.map_cons, hnames]
        rfl
      · rw [contains_insert] at hother
        rcases hother with (rfl | hother) | hother
        · exact .inr (List.mem_cons_self ..)
        · exact .inl hother
        · exact .inr (List.mem_cons_of_mem _ hother)
      · rw [extend, if_neg hb, herror]

theorem collect_of_nodup (h : (pairs.map Prod.fst).Nodup) :
    collect pairs = .ok (ofList pairs) :=
  extend_of_free (free_empty_iff.mpr h)

theorem collect_of_not_nodup (h : ¬ (pairs.map Prod.fst).Nodup) :
    ∃ before name after, pairs.map Prod.fst = before ++ name :: after ∧ before.Nodup ∧
      name ∈ before ∧ collect pairs = .error (.duplicateName name) := by
  obtain ⟨before, name, after, hnames, hfree, hname, herror⟩ :=
    extend_of_not_free (mt free_empty_iff.mp h)
  exact ⟨before, name, after, hnames, hfree.1, hname.resolve_left (not_contains_empty name), herror⟩

-- ---------------------------------------------------------------------------
-- Texts
-- ---------------------------------------------------------------------------

/-- The name in front of the first `=` of a text, without the blanks around it. -/
def nameOf (text : String) : String :=
  String.ofList (Text.trim (text.toList.takeWhile (· ≠ '=')))

theorem takeWhile_of_splitAtFirst {mark : Char} {cs before after : List Char}
    (h : Text.splitAtFirst mark cs = some (before, after)) : cs.takeWhile (· ≠ mark) = before := by
  obtain ⟨hbefore, rfl⟩ := Text.splitAtFirst_eq_some_iff.mp h
  have hne : ∀ c ∈ before, decide (c ≠ mark) = true := by
    intro c hc
    exact decide_eq_true fun h => hbefore (h ▸ hc)
  rw [List.takeWhile_append_of_pos hne]
  simp

theorem fst_of_readEntry {text : String} {entry : String × Bit} (h : readEntry text = .ok entry) :
    entry.1 = nameOf text := by
  unfold readEntry at h
  split at h
  · cases h
  · next before after hsplit =>
    rw [nameOf, takeWhile_of_splitAtFirst hsplit]
    split at h
    · cases h
    · cases hbit : Bit.read after with
      | error e => simp [hbit, Except.map] at h
      | ok bit =>
        rw [hbit] at h
        exact congrArg Prod.fst (Except.ok.inj h).symm

/-- The pairs are those that the texts are read as, one for each. -/
def ReadAs (texts : List String) (pairs : List (String × Bit)) : Prop :=
  List.Forall₂ (fun text entry => readEntry text = .ok entry) texts pairs

theorem ReadAs.names {texts : List String} (h : ReadAs texts pairs) :
    pairs.map Prod.fst = texts.map nameOf := by
  induction h with
  | nil => rfl
  | cons hentry _ ih => rw [List.map_cons, List.map_cons, fst_of_readEntry hentry, ih]

end LogicCalculator.Bindings
