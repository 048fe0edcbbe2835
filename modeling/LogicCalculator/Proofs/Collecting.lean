import LogicCalculator.Proofs.BindingLaws

/-!
# Collecting pairs

Bindings are collected pair by pair, and as long as no name repeats the pairs
become entries as they are (`entries_extend`). So the bindings are the pairs, in
whatever order these come, and the first name that repeats is the one that is
reported (`collect_outcome`).
-/

namespace LogicCalculator.Bindings

variable {b b' : Bindings} {name : String} {pairs other : List (String × Bit)}
  {error : BindingError}

-- ---------------------------------------------------------------------------
-- Entries
-- ---------------------------------------------------------------------------

theorem put_of_not_mem {entries : List (String × Bit)} (bit : Bit)
    (h : name ∉ entries.map Prod.fst) : put name bit entries = entries ++ [(name, bit)] := by
  induction entries with
  | nil => rfl
  | cons entry rest ih =>
    obtain ⟨key, value⟩ := entry
    obtain ⟨hkey, hrest⟩ := not_or.mp (mt List.mem_cons.mpr h)
    rw [put, if_neg (Ne.symm hkey), ih hrest, List.cons_append]

theorem entries_insert (bit : Bit) (h : ¬ b.contains name) :
    (b.insert name bit).entries = b.entries ++ [(name, bit)] :=
  put_of_not_mem bit (mt contains_iff_mem_names.mpr h)

/-- Each pair is a new entry behind those that are there. -/
theorem entries_extend (h : b.extend pairs = .ok b') : b'.entries = b.entries ++ pairs := by
  induction pairs generalizing b with
  | nil =>
    obtain rfl := Except.ok.inj h
    exact (List.append_nil _).symm
  | cons pair rest ih =>
    obtain ⟨name, bit⟩ := pair
    rw [extend] at h
    split at h
    · cases h
    · next hname => rw [ih h, entries_insert bit hname, List.append_assoc, List.singleton_append]

theorem entries_collect (h : collect pairs = .ok b) : b.entries = pairs := entries_extend h

theorem get?_collect (h : collect pairs = .ok b) (name : String) (bit : Bit) :
    b.get? name = some bit ↔ (name, bit) ∈ pairs := by
  rw [get?_eq_some_iff, entries_collect h]

-- ---------------------------------------------------------------------------
-- The first name that repeats
-- ---------------------------------------------------------------------------

/-- The name stands at the index and in front of it, and no name does so at a
smaller index. -/
def FirstRepeat (names : List String) (i : Nat) (name : String) : Prop :=
  names[i]? = some name ∧ name ∈ names.take i ∧
    ∀ j < i, ∀ other, names[j]? = some other → other ∉ names.take j

section
variable {names before : List String} {i j : Nat}

theorem FirstRepeat.not_nodup (h : FirstRepeat names i name) : ¬ names.Nodup :=
  fun hnodup => List.not_mem_take_of_nodup hnodup h.1 h.2.1

theorem FirstRepeat.index_le {other : String} (h : FirstRepeat names i name)
    (h' : FirstRepeat names j other) : i ≤ j :=
  Nat.le_of_not_lt fun hlt => h.2.2 j hlt other h'.1 h'.2.1

theorem FirstRepeat.unique {other : String} (h : FirstRepeat names i name)
    (h' : FirstRepeat names j other) : name = other := by
  obtain rfl := Nat.le_antisymm (h.index_le h') (h'.index_le h)
  exact Option.some.inj (h.1.symm.trans h'.1)

theorem firstRepeat_append (after : List String) (hbefore : before.Nodup) (hname : name ∈ before) :
    FirstRepeat (before ++ name :: after) before.length name := by
  refine ⟨?_, ?_, ?_⟩
  · rw [List.getElem?_append_right (Nat.le_refl _), Nat.sub_self]
    rfl
  · rwa [List.take_left]
  · intro j hj other hother
    rw [List.getElem?_append_left hj] at hother
    rw [List.take_append_of_le_length (Nat.le_of_lt hj)]
    exact List.not_mem_take_of_nodup hbefore hother

end

-- ---------------------------------------------------------------------------
-- What collecting ends with
-- ---------------------------------------------------------------------------

theorem exists_collect_eq_ok_iff :
    (∃ b, collect pairs = .ok b) ↔ (pairs.map Prod.fst).Nodup := by
  constructor
  · rintro ⟨b, h⟩
    by_contra hnodup
    obtain ⟨before, name, after, -, -, -, herror⟩ := collect_of_not_nodup hnodup
    cases h.symm.trans herror
  · intro h
    exact ⟨_, collect_of_nodup h⟩

theorem collect_eq_error_iff :
    collect pairs = .error error ↔
      ∃ i name, FirstRepeat (pairs.map Prod.fst) i name ∧ error = .duplicateName name := by
  constructor
  · intro h
    have hnodup : ¬ (pairs.map Prod.fst).Nodup := by
      intro hnodup
      cases (collect_of_nodup hnodup).symm.trans h
    obtain ⟨before, name, after, hnames, hbefore, hname, herror⟩ := collect_of_not_nodup hnodup
    refine ⟨before.length, name, ?_, Except.error.inj (h.symm.trans herror)⟩
    rw [hnames]
    exact firstRepeat_append after hbefore hname
  · rintro ⟨i, name, hfirst, rfl⟩
    obtain ⟨before, other, after, hnames, hbefore, hother, herror⟩ :=
      collect_of_not_nodup hfirst.not_nodup
    have hfirst' := firstRepeat_append after hbefore hother
    rw [← hnames] at hfirst'
    rw [herror, hfirst.unique hfirst']

theorem get?_of_perm (h : pairs.Perm other) (hb : collect pairs = .ok b)
    (hb' : collect other = .ok b') (name : String) : b'.get? name = b.get? name := by
  ext bit
  rw [get?_collect hb, get?_collect hb', h.mem_iff]

theorem exists_collect_of_perm (h : pairs.Perm other) (hb : collect pairs = .ok b) :
    ∃ b', collect other = .ok b' ∧ ∀ name, b'.get? name = b.get? name := by
  have hnames := exists_collect_eq_ok_iff.mp ⟨b, hb⟩
  rw [(h.map Prod.fst).nodup_iff] at hnames
  obtain ⟨b', hb'⟩ := exists_collect_eq_ok_iff.mpr hnames
  exact ⟨b', hb', get?_of_perm h hb hb'⟩

theorem exists_error_of_perm (h : pairs.Perm other) (herror : collect pairs = .error error) :
    ∃ error', collect other = .error error' := by
  cases hother : collect other with
  | error error' => exact ⟨error', rfl⟩
  | ok b' =>
    obtain ⟨b, hb, -⟩ := exists_collect_of_perm h.symm hother
    cases hb.symm.trans herror

theorem ReadAs.readAll_eq {texts : List String} (h : ReadAs texts pairs) :
    readAll texts = collect pairs := by
  have hread : texts.mapM readEntry = .ok pairs := by
    induction h with
    | nil => rfl
    | cons hentry _ ih =>
      rw [List.mapM_cons, hentry, ih]
      rfl
  rw [readAll, hread]
  rfl

/-- Collecting succeeds if and only if no name repeats. Then the bindings hold
the pairs and nothing else, in whatever order these come. Otherwise the first
name that repeats is reported, whatever the bits are. Of pairs that are read
from texts, the names are those without the blanks around them. -/
theorem collect_outcome (pairs : List (String × Bit)) :
    ((∃ b, collect pairs = .ok b) ↔ (pairs.map Prod.fst).Nodup) ∧
    (∀ b, collect pairs = .ok b →
      (∀ name bit, b.get? name = some bit ↔ (name, bit) ∈ pairs) ∧ b.size = pairs.length) ∧
    (∀ error, collect pairs = .error error ↔
      ∃ i name, FirstRepeat (pairs.map Prod.fst) i name ∧ error = .duplicateName name) ∧
    (∀ other, pairs.Perm other →
      (∀ b, collect pairs = .ok b →
        ∃ b', collect other = .ok b' ∧ ∀ name, b'.get? name = b.get? name) ∧
      ∀ error, collect pairs = .error error → ∃ error', collect other = .error error') ∧
    ∀ texts, ReadAs texts pairs →
      readAll texts = collect pairs ∧
      ((∃ b, readAll texts = .ok b) ↔ (texts.map nameOf).Nodup) ∧
      ∀ error, readAll texts = .error error ↔
        ∃ i name, FirstRepeat (texts.map nameOf) i name ∧ error = .duplicateName name := by
  refine ⟨exists_collect_eq_ok_iff, fun b hb => ⟨get?_collect hb, ?_⟩,
    fun error => collect_eq_error_iff, fun other h => ⟨fun b => exists_collect_of_perm h,
    fun error => exists_error_of_perm h⟩, fun texts htexts => ?_⟩
  · rw [size, entries_collect hb]
  · rw [htexts.readAll_eq, ← htexts.names]
    exact ⟨rfl, exists_collect_eq_ok_iff, fun error => collect_eq_error_iff⟩

theorem collect_outcome_of_each_end :
    (∃ b b', collect [("x", .one), ("X", .zero), ("", .one)] = .ok b ∧ b.size = 3 ∧
      collect [("", .one), ("x", .one), ("X", .zero)] = .ok b' ∧
        b'.get? "X" = some .zero ∧ ∀ name, b'.get? name = b.get? name) ∧
    (collect [("x", .one), ("Y", .zero), ("x", .one), ("Y", .one)] = .error (.duplicateName "x") ∧
      ∃ error', collect [("Y", .one), ("x", .one), ("x", .one), ("Y", .zero)] = .error error') ∧
    readAll [" x =1", "x= 1"] = .error (.duplicateName "x") := by
  refine ⟨?_, ?_, ?_⟩
  · obtain ⟨hok, hholds, -, hperm, -⟩ :=
      collect_outcome [("x", .one), ("X", .zero), ("", .one)]
    obtain ⟨b, hb⟩ := hok.mpr (by decide)
    obtain ⟨b', hb', hsame⟩ :=
      (hperm [("", .one), ("x", .one), ("X", .zero)] (by decide)).1 b hb
    refine ⟨b, b', hb, (hholds b hb).2, hb', ?_, hsame⟩
    rw [hsame]
    exact ((hholds b hb).1 "X" .zero).mpr (by decide)
  · obtain ⟨-, -, herror, hperm, -⟩ :=
      collect_outcome [("x", .one), ("Y", .zero), ("x", .one), ("Y", .one)]
    have hfirst : FirstRepeat (["x", "Y"] ++ "x" :: ["Y"]) 2 "x" :=
      firstRepeat_append ["Y"] (by decide) (by decide)
    have hrepeat : collect [("x", .one), ("Y", .zero), ("x", .one), ("Y", .one)] =
        .error (.duplicateName "x") :=
      (herror _).mpr ⟨2, "x", hfirst, rfl⟩
    exact ⟨hrepeat, (hperm _ (by decide)).2 _ hrepeat⟩
  · have hread : ReadAs [" x =1", "x= 1"] [("x", .one), ("x", .one)] :=
      .cons rfl (.cons rfl .nil)
    have hfirst : FirstRepeat (["x"] ++ "x" :: []) 1 "x" :=
      firstRepeat_append [] (by decide) (by decide)
    obtain ⟨-, -, herror⟩ := (collect_outcome _).2.2.2.2 _ hread
    exact (herror _).mpr ⟨1, "x", hfirst, rfl⟩

end LogicCalculator.Bindings
