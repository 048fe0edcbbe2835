import LogicCalculator.Proofs.BindingLaws

/-!
# Texts that bind a name

A text binds a name to a bit if only blanks stand beside the name, the first
`=` and the digit. It then binds no other name and no other bit. Every other
text is faulty, in one way only (`readEntry_outcome`).
-/

namespace LogicCalculator

section
variable {cs : List Char} {bit : Bit}

theorem Bit.toList_text (bit : Bit) : bit.text.toList = [bit.digit] := by
  cases bit <;> rfl

theorem Bit.read_of_digit (h : Text.trim cs = [bit.digit]) : Bit.read cs = .ok bit := by
  rw [Bit.read, h]
  cases bit <;> rfl

theorem Bit.read_of_ne_digit (h : ∀ bit : Bit, Text.trim cs ≠ [bit.digit]) :
    Bit.read cs = .error (.invalidBit (String.ofList (Text.trim cs))) := by
  unfold Bit.read
  split
  · next hzero => exact absurd hzero (h .zero)
  · next hone => exact absurd hone (h .one)
  · rfl

end

namespace Bindings

-- ---------------------------------------------------------------------------
-- What texts mean
-- ---------------------------------------------------------------------------

def AllBlank (s : String) : Prop := ∀ c ∈ s.toList, Text.isBlank c

instance (s : String) : Decidable (AllBlank s) :=
  decidable_of_iff (s.toList.all Text.isBlank = true) (by simp [AllBlank])

/-- A name that a text can bind. Blanks within it are part of it. -/
structure IsKey (name : String) : Prop where
  ne_empty : name ≠ ""
  no_mark : '=' ∉ name.toList
  trimmed : Text.IsTrimmed name.toList

/-- The text binds the name to the bit. -/
def Binds (text name : String) (bit : Bit) : Prop :=
  IsKey name ∧ ∃ w₁ w₂ w₃ w₄ : String, AllBlank w₁ ∧ AllBlank w₂ ∧ AllBlank w₃ ∧ AllBlank w₄ ∧
    text = w₁ ++ name ++ w₂ ++ "=" ++ w₃ ++ bit.text ++ w₄

/-- What is wrong with a text: it has no `=`, or no name in front of the first
one, or something else than a bit behind it. -/
inductive Faulty (text : String) : BindingError → Prop
  | missingSeparator : '=' ∉ text.toList → Faulty text (.missingSeparator text)
  | emptyName (before after : String) : text = before ++ "=" ++ after → AllBlank before →
      Faulty text (.emptyName text)
  | invalidBit (before after value : String) : text = before ++ "=" ++ after →
      '=' ∉ before.toList → ¬ AllBlank before → Text.Trims after.toList value.toList →
      (∀ bit : Bit, value ≠ bit.text) → Faulty text (.invalidBit value)

-- ---------------------------------------------------------------------------
-- One equation for each way to read
-- ---------------------------------------------------------------------------

section
variable {text name : String} {bit : Bit} {before after : List Char} {error : BindingError}

theorem readEntry_of_not_mem (h : '=' ∉ text.toList) :
    readEntry text = .error (.missingSeparator text) := by
  rw [readEntry, Text.splitAtFirst_eq_none_iff.mpr h]

theorem readEntry_of_trim_eq_nil (htext : text.toList = before ++ '=' :: after)
    (hmark : '=' ∉ before) (h : Text.trim before = []) :
    readEntry text = .error (.emptyName text) := by
  rw [readEntry, Text.splitAtFirst_eq_some_iff.mpr ⟨hmark, htext⟩]
  dsimp only
  rw [h]

theorem readEntry_of_trim_ne_nil (htext : text.toList = before ++ '=' :: after)
    (hmark : '=' ∉ before) (h : Text.trim before ≠ []) :
    readEntry text =
      (Bit.read after).map fun bit => (String.ofList (Text.trim before), bit) := by
  rw [readEntry, Text.splitAtFirst_eq_some_iff.mpr ⟨hmark, htext⟩]
  dsimp only
  split
  · next hnil => exact absurd hnil h
  · rfl

theorem not_mem_of_allBlank {s : String} (h : AllBlank s) : '=' ∉ s.toList := by
  intro hc
  exact absurd (h _ hc) (by decide)

theorem IsKey.toList_ne_nil (h : IsKey name) : name.toList ≠ [] :=
  fun hnil => h.ne_empty (String.toList_eq_nil_iff.mp hnil)

theorem Binds.readEntry_eq (h : Binds text name bit) : readEntry text = .ok (name, bit) := by
  obtain ⟨hkey, w₁, w₂, w₃, w₄, h₁, h₂, h₃, h₄, rfl⟩ := h
  have htext : (w₁ ++ name ++ w₂ ++ "=" ++ w₃ ++ bit.text ++ w₄).toList =
      (w₁.toList ++ (name.toList ++ w₂.toList)) ++
        '=' :: (w₃.toList ++ ([bit.digit] ++ w₄.toList)) := by
    simp [Bit.toList_text]
  have hmark : '=' ∉ w₁.toList ++ (name.toList ++ w₂.toList) := by
    simp only [List.mem_append, not_or]
    exact ⟨not_mem_of_allBlank h₁, hkey.no_mark, not_mem_of_allBlank h₂⟩
  have hname : Text.trim (w₁.toList ++ (name.toList ++ w₂.toList)) = name.toList :=
    Text.Trims.trim_eq ⟨_, _, h₁, h₂, rfl, hkey.trimmed⟩
  have hdigit : Text.trim (w₃.toList ++ ([bit.digit] ++ w₄.toList)) = [bit.digit] :=
    Text.Trims.trim_eq ⟨_, _, h₃, h₄, rfl, by cases bit <;> decide⟩
  have hne : Text.trim (w₁.toList ++ (name.toList ++ w₂.toList)) ≠ [] := by
    rw [hname]
    exact hkey.toList_ne_nil
  rw [readEntry_of_trim_ne_nil htext hmark hne, Bit.read_of_digit hdigit, hname,
    String.ofList_toList]
  rfl

theorem Faulty.readEntry_eq (h : Faulty text error) : readEntry text = .error error := by
  cases h with
  | missingSeparator hmark => exact readEntry_of_not_mem hmark
  | emptyName before after htext hblank =>
    have htext : text.toList = before.toList ++ '=' :: after.toList := by simp [htext]
    exact readEntry_of_trim_eq_nil htext (not_mem_of_allBlank hblank)
      (Text.trim_eq_nil_iff.mpr hblank)
  | invalidBit before after value htext hmark hblank htrims hvalue =>
    have htext : text.toList = before.toList ++ '=' :: after.toList := by simp [htext]
    have hdigit : ∀ bit : Bit, Text.trim after.toList ≠ [bit.digit] := by
      intro bit hbit
      rw [htrims.trim_eq, ← Bit.toList_text] at hbit
      exact hvalue bit (String.toList_inj.mp hbit)
    rw [readEntry_of_trim_ne_nil htext hmark (mt Text.trim_eq_nil_iff.mp hblank),
      Bit.read_of_ne_digit hdigit, htrims.trim_eq, String.ofList_toList]
    rfl

theorem isKey_ofList_trim (hmark : '=' ∉ before) (h : Text.trim before ≠ []) :
    IsKey (String.ofList (Text.trim before)) := by
  refine ⟨by simpa using h, ?_, ?_⟩
  · rw [String.toList_ofList]
    obtain ⟨w₁, w₂, -, -, hbefore, -⟩ := Text.trims_trim before
    rw [hbefore] at hmark
    exact fun hc => hmark (List.mem_append_right _ (List.mem_append_left _ hc))
  · rw [String.toList_ofList]
    exact Text.isTrimmed_trim before

theorem binds_of_trim (htext : text.toList = before ++ '=' :: after) (hmark : '=' ∉ before)
    (h : Text.trim before ≠ []) (hbit : Text.trim after = [bit.digit]) :
    Binds text (String.ofList (Text.trim before)) bit := by
  obtain ⟨w₁, w₂, h₁, h₂, hbefore, -⟩ := Text.trims_trim before
  obtain ⟨w₃, w₄, h₃, h₄, hafter, -⟩ := Text.trims_trim after
  refine ⟨isKey_ofList_trim hmark h, .ofList w₁, .ofList w₂, .ofList w₃, .ofList w₄, ?_, ?_, ?_,
    ?_, ?_⟩
  · simpa [AllBlank] using h₁
  · simpa [AllBlank] using h₂
  · simpa [AllBlank] using h₃
  · simpa [AllBlank] using h₄
  · rw [hbit] at hafter
    rw [← String.toList_inj, htext, hafter, hbefore]
    simp [Bit.toList_text, ← hbefore]

theorem eq_append_of_toList_eq (htext : text.toList = before ++ '=' :: after) :
    text = String.ofList before ++ "=" ++ String.ofList after := by
  rw [← String.toList_inj, htext]
  simp

theorem faulty_of_trim_eq_nil (htext : text.toList = before ++ '=' :: after)
    (h : Text.trim before = []) : Faulty text (.emptyName text) := by
  refine .emptyName _ _ (eq_append_of_toList_eq htext) ?_
  simpa [AllBlank] using Text.trim_eq_nil_iff.mp h

theorem faulty_of_ne_digit (htext : text.toList = before ++ '=' :: after) (hmark : '=' ∉ before)
    (h : Text.trim before ≠ []) (hbit : ∀ bit : Bit, Text.trim after ≠ [bit.digit]) :
    Faulty text (.invalidBit (String.ofList (Text.trim after))) := by
  refine .invalidBit _ _ _ (eq_append_of_toList_eq htext) ?_ ?_ ?_ ?_
  · rwa [String.toList_ofList]
  · rw [AllBlank, String.toList_ofList]
    exact mt Text.trim_eq_nil_iff.mpr h
  · rw [String.toList_ofList, String.toList_ofList]
    exact Text.trims_trim after
  · intro bit hdigit
    rw [← String.toList_inj, String.toList_ofList, Bit.toList_text] at hdigit
    exact hbit bit hdigit

/-- A text that does not bind has a fault. -/
theorem binds_or_faulty (text : String) :
    (∃ name bit, Binds text name bit) ∨ ∃ error, Faulty text error := by
  cases hsplit : Text.splitAtFirst '=' text.toList with
  | none => exact .inr ⟨_, .missingSeparator (Text.splitAtFirst_eq_none_iff.mp hsplit)⟩
  | some parts =>
    obtain ⟨before, after⟩ := parts
    obtain ⟨hmark, htext⟩ := Text.splitAtFirst_eq_some_iff.mp hsplit
    by_cases hname : Text.trim before = []
    · exact .inr ⟨_, faulty_of_trim_eq_nil htext hname⟩
    · by_cases hbit : ∃ bit : Bit, Text.trim after = [bit.digit]
      · obtain ⟨bit, hbit⟩ := hbit
        exact .inl ⟨_, bit, binds_of_trim htext hmark hname hbit⟩
      · exact .inr ⟨_, faulty_of_ne_digit htext hmark hname (not_exists.mp hbit)⟩

theorem readEntry_eq_ok_iff : readEntry text = .ok (name, bit) ↔ Binds text name bit := by
  refine ⟨fun h => ?_, Binds.readEntry_eq⟩
  rcases binds_or_faulty text with ⟨name', bit', hbinds⟩ | ⟨error, hfaulty⟩
  · obtain ⟨rfl, rfl⟩ := Prod.mk.inj (Except.ok.inj (h.symm.trans hbinds.readEntry_eq))
    exact hbinds
  · cases h.symm.trans hfaulty.readEntry_eq

theorem readEntry_eq_error_iff : readEntry text = .error error ↔ Faulty text error := by
  refine ⟨fun h => ?_, Faulty.readEntry_eq⟩
  rcases binds_or_faulty text with ⟨name, bit, hbinds⟩ | ⟨error', hfaulty⟩
  · cases h.symm.trans hbinds.readEntry_eq
  · obtain rfl := Except.error.inj (h.symm.trans hfaulty.readEntry_eq)
    exact hfaulty

theorem binds_written (h : IsKey name) (bit : Bit) : Binds (name ++ "=" ++ bit.text) name bit :=
  ⟨h, "", "", "", "", nofun, nofun, nofun, nofun, by simp⟩

end

/-- Reading gives a name and a bit if and only if the text binds the one to the
other, and an error if and only if that is what is wrong with the text. A text
binds one name to one bit, or it is faulty. A name and a bit that are written
down are read back. -/
theorem readEntry_outcome (text : String) :
    (∀ name bit, readEntry text = .ok (name, bit) ↔ Binds text name bit) ∧
    (∀ name bit name' bit', Binds text name bit → Binds text name' bit' →
      name' = name ∧ bit' = bit) ∧
    (∀ error, readEntry text = .error error ↔ Faulty text error) ∧
    ((∃ name bit, Binds text name bit) ∨ ∃ error, Faulty text error) ∧
    ∀ name bit, IsKey name → readEntry (name ++ "=" ++ bit.text) = .ok (name, bit) := by
  refine ⟨fun name bit => readEntry_eq_ok_iff, ?_, fun error => readEntry_eq_error_iff,
    binds_or_faulty text, fun name bit h => (binds_written h bit).readEntry_eq⟩
  intro name bit name' bit' h h'
  exact Prod.mk.inj (Except.ok.inj (h'.readEntry_eq.symm.trans h.readEntry_eq))

theorem readEntry_outcome_of_each_end :
    (readEntry "\u3000 Carry in\u00a0=\u2028 1\t" = .ok ("Carry in", .one) ∧
      ∀ name bit, Binds "\u3000 Carry in\u00a0=\u2028 1\t" name bit → name = "Carry in") ∧
    readEntry ("Carry in" ++ "=" ++ Bit.zero.text) = .ok ("Carry in", .zero) ∧
    readEntry "X" = .error (.missingSeparator "X") ∧
    readEntry "\u2009=1=0" = .error (.emptyName "\u2009=1=0") ∧
    readEntry "X = 1=0 " = .error (.invalidBit "1=0") := by
  have hkey : IsKey "Carry in" := ⟨by decide, by decide, by decide⟩
  have hbinds : Binds "\u3000 Carry in\u00a0=\u2028 1\t" "Carry in" .one :=
    ⟨hkey, "\u3000 ", "\u00a0", "\u2028 ", "\t", by decide, by decide, by decide, by decide,
      by decide⟩
  obtain ⟨hok, hunique, -, -, hwritten⟩ :=
    readEntry_outcome "\u3000 Carry in\u00a0=\u2028 1\t"
  refine ⟨⟨(hok _ _).mpr hbinds, fun name bit h => (hunique _ _ _ _ hbinds h).1⟩,
    hwritten _ _ hkey, ?_, ?_, ?_⟩
  · exact ((readEntry_outcome "X").2.2.1 _).mpr (.missingSeparator (by decide))
  · refine ((readEntry_outcome "\u2009=1=0").2.2.1 _).mpr ?_
    exact .emptyName "\u2009" "1=0" (by decide) (by decide)
  · refine ((readEntry_outcome "X = 1=0 ").2.2.1 _).mpr ?_
    have htrims : Text.Trims " 1=0 ".toList "1=0".toList :=
      ⟨[' '], [' '], List.forall_mem_singleton.mpr rfl, List.forall_mem_singleton.mpr rfl,
        rfl, by decide⟩
    refine .invalidBit "X " " 1=0 " "1=0" (by decide) (by decide) (by decide) htrims ?_
    intro bit
    cases bit <;> decide

end Bindings

end LogicCalculator
