import LogicCalculator.CommandLine
import LogicCalculator.Proofs.BindingLaws
import LogicCalculator.Proofs.General

/-!
# What a command line asks for

The bindings of a request are read from values of `--set`, each of which is the
end of an argument of its own, and the request is carried out
(`run_of_ofArguments`). Every request whose bindings are read from texts is
carried out by some command line (`run_spell`).
-/

namespace LogicCalculator.CommandLine

/-- The texts are the ends of some of the arguments, in the same order. -/
def Ends (texts arguments : List String) : Prop :=
  ∃ origins : List String, origins.Sublist arguments ∧
    List.Forall₂ (fun text argument => text.toList <:+ argument.toList) texts origins

theorem Ends.append {texts arguments : List String} (h : Ends texts arguments)
    (more : List String) : Ends texts (arguments ++ more) := by
  obtain ⟨origins, hsub, hends⟩ := h
  exact ⟨origins, hsub.trans (List.sublist_append_left ..), hends⟩

theorem Ends.concat {texts arguments : List String} {text argument : String}
    (h : Ends texts arguments) (hend : text.toList <:+ argument.toList) :
    Ends (texts ++ [text]) (arguments ++ [argument]) := by
  obtain ⟨origins, hsub, hends⟩ := h
  exact ⟨origins ++ [argument], hsub.append_right _, List.rel_append hends (.cons hend .nil)⟩

namespace Progress

/-- The value that stands on its own and has not been read yet. -/
def held (p : Progress) : List String :=
  match p.pending with
  | .held value => [value]
  | _ => []

/-- All values among the arguments so far have been read, but for the one held. -/
def Tracks (p : Progress) (arguments : List String) : Prop :=
  ∃ texts, Bindings.ReadAs texts p.bindings.toList ∧ Ends (texts ++ p.held) arguments

theorem Tracks.append {p : Progress} {arguments : List String} (h : p.Tracks arguments)
    (more : List String) : p.Tracks (arguments ++ more) := by
  obtain ⟨texts, hread, hends⟩ := h
  exact ⟨texts, hread, hends.append more⟩

end Progress

/-- Either the values are tracked further, or there is no calculation. -/
def Reaction.Tracks (arguments : List String) : Reaction → Prop
  | .go p => p.Tracks arguments
  | .stop command => ∀ r, command ≠ .calculate r

theorem Reaction.Tracks.append {x : Reaction} {arguments : List String} (h : x.Tracks arguments)
    (more : List String) : x.Tracks (arguments ++ more) := by
  cases x with
  | go p => exact Progress.Tracks.append h more
  | stop command => exact h

namespace Progress

variable {p q : Progress} {arguments : List String} {argument value : String} {x : Reaction}
  {text : List Char}

theorem tracks_start : start.Tracks [] :=
  ⟨[], .nil, [], List.nil_sublist _, .nil⟩

theorem Tracks.congr (h : p.Tracks arguments) (hb : q.bindings = p.bindings)
    (hheld : q.held = p.held) : q.Tracks arguments := by
  unfold Tracks
  rwa [hb, hheld]

-- ---------------------------------------------------------------------------
-- One argument
-- ---------------------------------------------------------------------------

theorem tracks_addBinding {texts : List String} (hread : Bindings.ReadAs texts p.bindings.toList)
    (hends : Ends (texts ++ [value]) arguments) (hp : p.held = [])
    (hq : p.addBinding value = .ok q) : q.Tracks arguments ∧ q.held = [] := by
  unfold addBinding at hq
  split at hq
  · next entry hentry =>
    obtain rfl := Except.ok.inj hq
    refine ⟨⟨texts ++ [value], ?_, ?_⟩, hp⟩
    · simpa [Bindings.ReadAs] using List.rel_append hread (.cons hentry .nil)
    · change Ends (texts ++ [value] ++ p.held) arguments
      rwa [hp, List.append_nil]
  · cases hq

/-- The value that is held has come from an argument before. -/
theorem Tracks.settle (h : p.Tracks arguments) (hq : p.settle = .ok q) :
    q.Tracks arguments ∧ q.held = [] := by
  unfold Progress.settle at hq
  split at hq
  · next hp =>
    obtain rfl := Except.ok.inj hq
    exact ⟨h, by simp [held, hp]⟩
  · cases hq
  · next value hp =>
    obtain ⟨texts, hread, hends⟩ := h
    have hends : Ends (texts ++ [value]) arguments := by simpa [held, hp] using hends
    exact tracks_addBinding (p := { p with pending := .none }) hread hends rfl hq

theorem Tracks.flag {f : Flag} (h : p.Tracks arguments) (hx : p.flag f = .ok x) :
    x.Tracks arguments := by
  unfold Progress.flag at hx
  obtain ⟨q, hq, hx⟩ := Except.bind_eq_ok_iff.mp hx
  obtain ⟨hq, hheld⟩ := h.settle hq
  cases f with
  | file =>
    dsimp only at hx
    split at hx
    · cases hx
    · obtain rfl := Except.ok.inj hx
      exact hq.congr rfl rfl
  | json =>
    dsimp only at hx
    split at hx
    · cases hx
    · obtain rfl := Except.ok.inj hx
      exact hq.congr rfl rfl
  | set =>
    obtain rfl := Except.ok.inj hx
    exact hq.congr rfl hheld.symm
  | help =>
    obtain rfl := Except.ok.inj hx
    exact nofun
  | version =>
    obtain rfl := Except.ok.inj hx
    exact nofun

theorem Tracks.setAttached (h : p.Tracks arguments) (hend : value.toList <:+ argument.toList)
    (hx : p.setAttached value = .ok x) : x.Tracks (arguments ++ [argument]) := by
  unfold Progress.setAttached at hx
  obtain ⟨q, hq, hx⟩ := Except.bind_eq_ok_iff.mp hx
  obtain ⟨q', hq', hx⟩ := Except.bind_eq_ok_iff.mp hx
  obtain rfl := Except.ok.inj hx
  obtain ⟨⟨texts, hread, hends⟩, hheld⟩ := h.settle hq
  rw [hheld, List.append_nil] at hends
  exact (tracks_addBinding hread (hends.concat hend) hheld hq').1

theorem suffix_of_splitAtFirst {mark : Char} {before after : List Char}
    (h : Text.splitAtFirst mark text = some (before, after)) : after <:+ text := by
  obtain ⟨-, rfl⟩ := Text.splitAtFirst_eq_some_iff.mp h
  exact (List.suffix_cons mark after).trans (List.suffix_append ..)

theorem Tracks.long (h : p.Tracks arguments) (hend : text <:+ argument.toList)
    (hx : p.long text = .ok x) : x.Tracks (arguments ++ [argument]) := by
  unfold Progress.long at hx
  cases hsplit : Text.splitAtFirst '=' text with
  | none =>
    simp only [hsplit] at hx
    split at hx
    · cases hx
    · exact (h.flag hx).append _
    · next hvalue => cases hvalue
    · next hvalue => cases hvalue
  | some parts =>
    obtain ⟨before, after⟩ := parts
    simp only [hsplit] at hx
    split at hx
    · cases hx
    · next hvalue => cases hvalue
    · next hvalue =>
      obtain rfl := Option.some.inj hvalue
      have hafter := (suffix_of_splitAtFirst hsplit).trans hend
      exact h.setAttached (by rwa [String.toList_ofList]) hx
    · cases hx

theorem Tracks.letters (h : p.Tracks arguments) (hend : text <:+ argument.toList)
    (hx : p.letters text = .ok x) : x.Tracks (arguments ++ [argument]) := by
  induction text generalizing p with
  | nil =>
    obtain rfl := Except.ok.inj hx
    exact h.append _
  | cons c cs ih =>
    have hcs : cs <:+ argument.toList := (List.suffix_cons c cs).trans hend
    unfold Progress.letters at hx
    split at hx
    · cases hx
    · split at hx
      · exact (h.flag hx).append _
      · next value =>
        have hvalue := (List.suffix_cons '=' value).trans hcs
        exact h.setAttached (by rwa [String.toList_ofList]) hx
      · exact h.setAttached (by rwa [String.toList_ofList]) hx
    · obtain ⟨y, hy, hx⟩ := Except.bind_eq_ok_iff.mp hx
      have hflag := h.flag hy
      cases y with
      | go q => exact ih hflag hcs hx
      | stop command =>
        obtain rfl := Except.ok.inj hx
        exact hflag

theorem Tracks.positional (h : p.Tracks arguments) (hx : p.positional argument = .ok x) :
    x.Tracks (arguments ++ [argument]) := by
  unfold Progress.positional at hx
  split at hx
  · cases hx
  · obtain ⟨q, hq, hx⟩ := Except.bind_eq_ok_iff.mp hx
    obtain rfl := Except.ok.inj hx
    exact ((h.settle hq).1.congr rfl rfl).append _

theorem Tracks.plain (h : p.Tracks arguments) (hx : p.plain argument = .ok x) :
    x.Tracks (arguments ++ [argument]) := by
  unfold Progress.plain at hx
  split at hx
  · next hp =>
    obtain rfl := Except.ok.inj hx
    obtain ⟨texts, hread, hends⟩ := h
    refine ⟨texts, hread, ?_⟩
    have hends : Ends texts arguments := by simpa [held, hp] using hends
    exact hends.concat (List.suffix_refl _)
  · exact h.positional hx

theorem Tracks.take (h : p.Tracks arguments) (hx : p.take argument = .ok x) :
    x.Tracks (arguments ++ [argument]) := by
  unfold Progress.take at hx
  split at hx
  · exact h.positional hx
  · split at hx
    · obtain rfl := Except.ok.inj hx
      exact (h.congr rfl rfl).append _
    · next text _ hargument =>
      have hend : text <:+ argument.toList := ⟨['-', '-'], hargument.symm⟩
      exact h.long hend hx
    · next c cs _ _ hargument =>
      have hend : c :: cs <:+ argument.toList := ⟨['-'], hargument.symm⟩
      exact h.letters hend hx
    · exact h.plain hx

-- ---------------------------------------------------------------------------
-- All arguments
-- ---------------------------------------------------------------------------

theorem Tracks.finish {r : Request} (h : p.Tracks arguments) (hr : p.finish = .ok (.calculate r)) :
    ∃ texts, Bindings.ReadAs texts r.bindings ∧ Ends texts arguments := by
  unfold Progress.finish at hr
  obtain ⟨q, hq, hr⟩ := Except.bind_eq_ok_iff.mp hr
  obtain ⟨⟨texts, hread, hends⟩, hheld⟩ := h.settle hq
  split at hr
  · cases hr
  · obtain rfl := Command.calculate.inj (Except.ok.inj hr)
    rw [hheld, List.append_nil] at hends
    exact ⟨texts, hread, hends⟩

theorem Tracks.takeAll {r : Request} {rest : List String} (h : p.Tracks arguments)
    (hr : p.takeAll rest = .ok (.calculate r)) :
    ∃ texts, Bindings.ReadAs texts r.bindings ∧ Ends texts (arguments ++ rest) := by
  induction rest generalizing p arguments with
  | nil =>
    rw [List.append_nil]
    exact h.finish hr
  | cons argument rest ih =>
    rw [Progress.takeAll] at hr
    obtain ⟨x, hx, hr⟩ := Except.bind_eq_ok_iff.mp hr
    have htracks := h.take hx
    cases x with
    | go q =>
      rw [List.append_cons]
      exact ih htracks hr
    | stop command => exact absurd (Except.ok.inj hr) (htracks r)

end Progress

variable {r : Request} {read : String → Except FileError ByteArray}

/-- The bindings of a request are read from the ends of arguments. -/
theorem run_of_ofArguments {arguments : List String}
    (h : Command.ofArguments arguments = .ok (.calculate r)) :
    (∃ texts, Bindings.ReadAs texts r.bindings ∧ Ends texts arguments) ∧
      run read arguments = r.run (.quiet read) := by
  refine ⟨Progress.tracks_start.takeAll h, ?_⟩
  rw [run, h]

-- ---------------------------------------------------------------------------
-- Command lines for requests
-- ---------------------------------------------------------------------------

/-- A command line that asks for a calculation: the flags, the texts of the
bindings and, behind the end of the options, the contents. -/
def spell (fromFile asJson : Bool) (texts : List String) (contents : String) : List String :=
  (if fromFile then ["--file"] else []) ++ ((if asJson then ["--json"] else []) ++
    (texts.map ("--set=" ++ ·) ++ ["--", contents]))

namespace Progress

variable {p : Progress} {rest : List String}

theorem takeAll_set {text : String} {entry : String × Bit} (hp : p.pending = .none)
    (ho : p.optionsEnded = false) (h : Bindings.readEntry text = .ok entry) :
    p.takeAll (("--set=" ++ text) :: rest) =
      { p with bindings := p.bindings.push entry }.takeAll rest := by
  have htake : p.take ("--set=" ++ text) =
      .ok (.go { p with bindings := p.bindings.push entry }) := by
    simp [take, ho, long, Text.splitAtFirst, Flag.ofName?, setAttached, settle, hp, addBinding, h,
      bind, Except.bind]
  rw [takeAll, htake]
  rfl

theorem takeAll_sets {texts : List String} {entries : List (String × Bit)}
    (hp : p.pending = .none) (ho : p.optionsEnded = false) (h : Bindings.ReadAs texts entries) :
    p.takeAll (texts.map ("--set=" ++ ·) ++ rest) =
      { p with bindings := p.bindings ++ entries }.takeAll rest := by
  induction h generalizing p with
  | nil => simp
  | @cons text entry texts entries hentry _ ih =>
    have htexts := ih (p := { p with bindings := p.bindings.push entry }) hp ho
    rw [List.map_cons, List.cons_append, takeAll_set hp ho hentry, htexts]
    simp

theorem takeAll_flags (fromFile asJson : Bool) (rest : List String) :
    start.takeAll ((if fromFile then ["--file"] else []) ++
      ((if asJson then ["--json"] else []) ++ rest)) =
      (Progress.mk fromFile asJson #[] none .none false).takeAll rest := by
  cases fromFile <;> cases asJson <;> rfl

theorem takeAll_contents (fromFile asJson : Bool) (bindings : Array (String × Bit))
    (contents : String) :
    (Progress.mk fromFile asJson bindings none .none false).takeAll ["--", contents] =
      .ok (.calculate ⟨fromFile, bindings.toList, asJson, contents⟩) := rfl

end Progress

theorem ofArguments_spell {texts : List String} (h : Bindings.ReadAs texts r.bindings) :
    Command.ofArguments (spell r.fromFile r.asJson texts r.contents) = .ok (.calculate r) := by
  rw [Command.ofArguments, spell, Progress.takeAll_flags, Progress.takeAll_sets rfl rfl h,
    Progress.takeAll_contents]
  simp

theorem run_spell {texts : List String} (h : Bindings.ReadAs texts r.bindings) :
    run read (spell r.fromFile r.asJson texts r.contents) = r.run (.quiet read) :=
  (run_of_ofArguments (ofArguments_spell h)).2

end LogicCalculator.CommandLine
