/-!
# Lemmas of no theory in particular

About results, texts, characters and lists, as the proofs here need them.
-/

theorem Except.bind_eq_ok_iff {ε α β : Type} {x : Except ε α} {f : α → Except ε β} {y : β} :
    x >>= f = .ok y ↔ ∃ a, x = .ok a ∧ f a = .ok y := by
  cases x with
  | error e => simp [bind, Except.bind]
  | ok a => simp [bind, Except.bind]

theorem String.fromUTF8?_eq_some_iff {bytes : ByteArray} {s : String} :
    String.fromUTF8? bytes = some s ↔ bytes = s.toUTF8 := by
  unfold String.fromUTF8?
  constructor
  · intro h
    split at h
    · next hvalid =>
      obtain rfl := Option.some.inj h
      rfl
    · cases h
  · rintro rfl
    exact dif_pos s.isValidUTF8

theorem String.append_ne_empty {front rest : String} (h : rest ≠ "") : front ++ rest ≠ "" := by
  intro hempty
  exact h (String.append_eq_empty_iff.mp hempty).2

theorem Char.isAlpha_of_isAlpha_toUpper {c : Char} (h : c.toUpper.isAlpha = true) :
    c.isAlpha = true := by
  unfold Char.toUpper at h
  split at h
  · rename_i hc
    have hlower : c.isLower = true := by
      change (decide (c.val ≥ 97) && decide (c.val ≤ 122)) = true
      simpa using hc
    change (c.isUpper || c.isLower) = true
    rw [hlower, Bool.or_true]
  · exact h

namespace List

section
variable {α : Type} {p : α → Bool} {front rest : List α}

theorem takeWhile_append_of_head (hfront : ∀ a ∈ front, p a = true)
    (hrest : ∀ a ∈ rest.head?, p a = false) : (front ++ rest).takeWhile p = front := by
  rw [List.takeWhile_append_of_pos hfront]
  cases rest with
  | nil => simp
  | cons a rest => simp [hrest a rfl]

theorem dropWhile_append_of_head (hfront : ∀ a ∈ front, p a = true)
    (hrest : ∀ a ∈ rest.head?, p a = false) : (front ++ rest).dropWhile p = rest := by
  rw [List.dropWhile_append_of_pos hfront]
  cases rest with
  | nil => rfl
  | cons a rest => simp [hrest a rfl]

end

theorem not_mem_take_of_nodup {α : Type} {l : List α} {a : α} {i : Nat} (h : l.Nodup)
    (ha : l[i]? = some a) : a ∉ l.take i := by
  obtain ⟨hi, rfl⟩ := List.getElem?_eq_some_iff.mp ha
  rw [← List.take_append_drop i l, List.drop_eq_getElem_cons hi] at h
  intro hmem
  exact (List.nodup_append.mp h).2.2 _ hmem _ (List.mem_cons_self ..) rfl

end List
