import LogicCalculator.Proofs.BindingLaws
import LogicCalculator.Proofs.General
import LogicCalculator.Proofs.Lines

/-!
# What runs leave behind

A run succeeds if there is a text, no name is bound twice and the calculation
succeeds; then it prints the calculation and nothing else. Otherwise it prints
nothing but what is wrong, of several faults the first in this order
(`run_outcome`). Where the text has come from makes no difference. How values
are written in JSON and what is logged is left to the services of the run.
-/

namespace LogicCalculator.CommandLine

variable {r : Request} {s : Services} {read : String → Except FileError ByteArray}
  {source : String} {error : FileError} {c : Calculation}

theorem decode_eq_ok_iff {bytes : ByteArray} :
    decode bytes = .ok source ↔ bytes = source.toUTF8 := by
  rw [← String.fromUTF8?_eq_some_iff, decode]
  cases String.fromUTF8? bytes <;> simp

theorem decode_eq_error_iff {bytes : ByteArray} :
    decode bytes = .error error ↔ error = .notUnicode ∧ ∀ s : String, bytes ≠ s.toUTF8 := by
  simp only [ne_eq, ← String.fromUTF8?_eq_some_iff, decode]
  cases String.fromUTF8? bytes <;> simp [eq_comm]

namespace Request

/-- The text of a request is what the file holds, in UTF-8, or what stands on
the command line itself. -/
def Holds (r : Request) (read : String → Except FileError ByteArray) (source : String) : Prop :=
  if r.fromFile then read r.contents = .ok source.toUTF8 else source = r.contents

/-- The file of a request cannot be read, or its bytes are no text. -/
def Lacks (r : Request) (read : String → Except FileError ByteArray) (error : FileError) : Prop :=
  r.fromFile = true ∧ (read r.contents = .error error ∨
    error = .notUnicode ∧ ∃ bytes, read r.contents = .ok bytes ∧ ∀ s : String, bytes ≠ s.toUTF8)

-- ---------------------------------------------------------------------------
-- Texts of requests
-- ---------------------------------------------------------------------------

theorem source_eq_ok_iff : r.source s = .ok source ↔ r.Holds s.read source := by
  unfold Request.source Holds
  split
  · cases s.read r.contents with
    | error e => simp [Except.bind]
    | ok bytes => simp [Except.bind, decode_eq_ok_iff]
  · simp [eq_comm]

theorem source_eq_error_iff : r.source s = .error error ↔ r.Lacks s.read error := by
  unfold Request.source Lacks
  split
  · next hfile =>
    cases s.read r.contents with
    | error e => simp [Except.bind, hfile]
    | ok bytes => simp [Except.bind, hfile, decode_eq_error_iff]
  · next hfile => simp [hfile]

theorem Holds.unique {other : String} (h : r.Holds s.read source) (h' : r.Holds s.read other) :
    source = other :=
  Except.ok.inj ((source_eq_ok_iff.mpr h).symm.trans (source_eq_ok_iff.mpr h'))

theorem Holds.not_lacks (h : r.Holds s.read source) : ¬ r.Lacks s.read error := by
  intro h'
  cases (source_eq_ok_iff.mpr h).symm.trans (source_eq_error_iff.mpr h')

-- ---------------------------------------------------------------------------
-- One ending for each way through a run
-- ---------------------------------------------------------------------------

/-- What is printed of a calculation. -/
def Prints (r : Request) (s : Services) (c : Calculation) (output : String) : Prop :=
  if r.asJson then ∃ text, s.print c.json = .ok text ∧ output = text ++ "\n"
  else output = unlines c.summary

theorem report_of_print (h : ∀ value, ∃ text, s.print value = .ok text) (c : Calculation) :
    ∃ output, r.Prints s c output ∧ r.report s c = ⟨0, output, ""⟩ := by
  unfold Request.report Prints
  split
  · obtain ⟨text, htext⟩ := h c.json
    refine ⟨text ++ "\n", ⟨text, htext, rfl⟩, ?_⟩
    rw [htext]
    simp only [Outcome.success, unlines_singleton]
  · exact ⟨_, rfl, rfl⟩

/-- The four ways in which a run ends, under the names that are bound. -/
inductive Ending (r : Request) (s : Services) (names : List String) : Outcome → Prop
  | unread {error : FileError} : r.Lacks s.read error → Ending r s names
      ⟨1, "", s.log [] ++ ("Failed to read the input file '" ++ r.contents ++ "': " ++
        error.message ++ "\n")⟩
  | repeated {source name : String} {before after : List String} : r.Holds s.read source →
      names = before ++ name :: after → before.Nodup → name ∈ before →
      Ending r s names ⟨1, "", s.log [] ++ ("variable " ++ name ++ " is bound more than once\n")⟩
  | failed {source : String} {f : Failure} : r.Holds s.read source → names.Nodup →
      LogicCalculator.calculate source (.ofList r.bindings) = .error f →
      Ending r s names
        ⟨1, "", s.log (events source (.ofList r.bindings)) ++ unlines f.messages⟩
  | done {source output : String} {c : Calculation} : r.Holds s.read source → names.Nodup →
      LogicCalculator.calculate source (.ofList r.bindings) = .ok c → r.Prints s c output →
      Ending r s names ⟨0, output, s.log (events source (.ofList r.bindings))⟩

theorem calculate_ending (hprint : ∀ value, ∃ text, s.print value = .ok text)
    (hsource : r.Holds s.read source) :
    Ending r s (r.bindings.map Prod.fst) (r.calculate s source) := by
  by_cases hnames : (r.bindings.map Prod.fst).Nodup
  · rw [Request.calculate, Bindings.collect_of_nodup hnames]
    cases hc : LogicCalculator.calculate source (.ofList r.bindings) with
    | ok c =>
      obtain ⟨output, houtput, hreport⟩ := report_of_print (r := r) hprint c
      simp only [hc, hreport, Outcome.behind, String.append_empty]
      exact .done hsource hnames hc houtput
    | error f =>
      simp only [hc]
      exact .failed hsource hnames hc
  · obtain ⟨before, name, after, happend, hbefore, hname, hcollect⟩ :=
      Bindings.collect_of_not_nodup hnames
    have hline : unlines [(BindingError.duplicateName name).message] =
        "variable " ++ name ++ " is bound more than once\n" := by
      rw [unlines_singleton, BindingError.message, String.append_assoc]
      rfl
    rw [Request.calculate, hcollect]
    simp only [Outcome.failure, Outcome.behind, hline]
    exact .repeated hsource happend hbefore hname

theorem run_ending (r : Request) (hprint : ∀ value, ∃ text, s.print value = .ok text) :
    Ending r s (r.bindings.map Prod.fst) (r.run s) := by
  unfold Request.run
  split
  · next source h => exact calculate_ending hprint (source_eq_ok_iff.mp h)
  · next error h =>
    simp only [Outcome.failure, Outcome.behind, unlines_singleton]
    exact .unread (source_eq_error_iff.mp h)

variable {names : List String} {outcome : Outcome}

theorem Ending.code_eq_zero_iff (h : Ending r s names outcome) : outcome.code = 0 ↔
    ∃ source c, r.Holds s.read source ∧ names.Nodup ∧
      LogicCalculator.calculate source (.ofList r.bindings) = .ok c := by
  cases h with
  | unread hlacks =>
    refine iff_of_false nofun ?_
    rintro ⟨source, c, hsource, -⟩
    exact hsource.not_lacks hlacks
  | @repeated source name before after hsource hnames hbefore hname =>
    refine iff_of_false nofun ?_
    rintro ⟨source, c, -, hnodup, -⟩
    rw [hnames] at hnodup
    exact (List.nodup_append.mp hnodup).2.2 name hname name (List.mem_cons_self ..) rfl
  | failed hsource hnodup hf =>
    refine iff_of_false nofun ?_
    rintro ⟨other, c, hother, -, hc⟩
    rw [hsource.unique hother, hc] at hf
    cases hf
  | done hsource hnodup hc => exact iff_of_true rfl ⟨_, _, hsource, hnodup, hc⟩

theorem Ending.success (h : Ending r s names outcome) (hcode : outcome.code = 0)
    (hsource : r.Holds s.read source)
    (hc : LogicCalculator.calculate source (.ofList r.bindings) = .ok c) :
    outcome.complaint = s.log (events source (.ofList r.bindings)) ∧
      r.Prints s c outcome.output := by
  cases h with
  | unread | repeated | failed => cases hcode
  | done hsource' hnodup hc' hprints =>
    obtain rfl := hsource.unique hsource'
    rw [hc'] at hc
    obtain rfl := Except.ok.inj hc
    exact ⟨rfl, hprints⟩

theorem Ending.complaint (h : Ending r s names outcome) (hcode : outcome.code ≠ 0) :
    outcome.code = 1 ∧ outcome.output = "" ∧ outcome.complaint ≠ "" ∧
      ((∃ error, r.Lacks s.read error ∧ outcome.complaint = s.log [] ++
          ("Failed to read the input file '" ++ r.contents ++ "': " ++ error.message ++ "\n")) ∨
        ∃ source, r.Holds s.read source ∧
          ((∃ before name after, names = before ++ name :: after ∧ before.Nodup ∧ name ∈ before ∧
              outcome.complaint = s.log [] ++
                ("variable " ++ name ++ " is bound more than once\n")) ∨
            names.Nodup ∧ ∃ f,
              LogicCalculator.calculate source (.ofList r.bindings) = .error f ∧
                f.messages ≠ [] ∧ outcome.complaint =
                  s.log (events source (.ofList r.bindings)) ++ unlines f.messages ∧
                  (unlines f.messages).toList.count '\n' = f.messages.length)) := by
  cases h with
  | @unread error hlacks =>
    refine ⟨rfl, rfl, String.append_ne_empty ?_, .inl ⟨error, hlacks, rfl⟩⟩
    exact String.append_ne_empty (by decide)
  | @repeated source name before after hsource hnames hbefore hname =>
    refine ⟨rfl, rfl, String.append_ne_empty ?_, .inr ⟨source, hsource, .inl
      ⟨before, name, after, hnames, hbefore, hname, rfl⟩⟩⟩
    exact String.append_ne_empty (by decide)
  | @failed source f hsource hnodup hf =>
    have hmessages := messages_ne_nil hf
    refine ⟨rfl, rfl, String.append_ne_empty (unlines_ne_empty hmessages), .inr ⟨source, hsource,
      .inr ⟨hnodup, f, hf, hmessages, rfl, ?_⟩⟩⟩
    exact count_unlines fun m hm => isLine_of_mem_messages hf hm
  | done => exact absurd rfl hcode

theorem run_eq_of_holds {other : Request} (hb : other.bindings = r.bindings)
    (hj : other.asJson = r.asJson) (h : r.Holds s.read source) (h' : other.Holds s.read source) :
    r.run s = other.run s := by
  have hreport : other.report s = r.report s := by
    funext c
    rw [Request.report, Request.report, hj]
  rw [Request.run, Request.run, source_eq_ok_iff.mpr h, source_eq_ok_iff.mpr h']
  simp only [Request.calculate, hb, hreport]

/-- A run has code 0 if and only if there is a text, no name is bound twice and
the calculation succeeds. Then it prints the calculation, as one object or line
by line, and complains about nothing beside what is logged. Otherwise it has
code 1, prints nothing and complains about the file, or else about the first
name that is bound again, or else in the messages of the calculation, each on a
line. The file may be replaced by its text. -/
theorem run_outcome {texts : List String} {entries : List (String × Bit)}
    (hread : Bindings.ReadAs texts entries) (s : Services)
    (hprint : ∀ value, ∃ text, s.print value = .ok text) (fromFile asJson : Bool)
    (contents : String) :
    let process (step : Step) : Json := .object
      ([("operator", .string step.operator)] ++
        (step.left.toList.map fun bit => ("left", .number bit.toNat)) ++
        [("right", .number step.right.toNat), ("result", .number step.result.toNat),
          ("index", .number step.index)])
    let json (c : Calculation) : Json := .object
      [("parsed", .string c.parsed), ("expression", .string c.expression),
        ("result", .number c.result.toNat), ("processes", .array (c.steps.map process))]
    let lines (c : Calculation) : List String :=
      ["Parsed: " ++ c.parsed, "Expression: " ++ c.expression, "Result: " ++ c.result.text,
        "Processes:"] ++ c.steps.map fun step => "  " ++ step.text
    let r : Request := ⟨fromFile, entries, asJson, contents⟩
    let outcome := r.run s
    let b := Bindings.ofList entries
    (outcome.code = 0 ↔ ∃ source c, r.Holds s.read source ∧
      (texts.map Bindings.nameOf).Nodup ∧ LogicCalculator.calculate source b = .ok c) ∧
    (∀ source c, outcome.code = 0 → r.Holds s.read source →
      LogicCalculator.calculate source b = .ok c →
        outcome.complaint = s.log (events source b) ∧
        (asJson = true → ∃ text, s.print (json c) = .ok text ∧ outcome.output = text ++ "\n") ∧
        (asJson = false → outcome.output = unlines (lines c) ∧
          ∃ t, (Parser.ofString source).parse.1 = some t ∧
            outcome.output.toList.count '\n' = 4 + t.operations.length)) ∧
    (outcome.code ≠ 0 → outcome.code = 1 ∧ outcome.output = "" ∧ outcome.complaint ≠ "" ∧
      ((∃ error, r.Lacks s.read error ∧ outcome.complaint = s.log [] ++
          ("Failed to read the input file '" ++ contents ++ "': " ++ error.message ++ "\n")) ∨
        ∃ source, r.Holds s.read source ∧
          ((∃ before name after, texts.map Bindings.nameOf = before ++ name :: after ∧
              before.Nodup ∧ name ∈ before ∧ outcome.complaint = s.log [] ++
                ("variable " ++ name ++ " is bound more than once\n")) ∨
            (texts.map Bindings.nameOf).Nodup ∧ ∃ f,
              LogicCalculator.calculate source b = .error f ∧ f.messages ≠ [] ∧
                outcome.complaint = s.log (events source b) ++ unlines f.messages ∧
                  (unlines f.messages).toList.count '\n' = f.messages.length))) ∧
    ((∀ l, s.log l = "") → outcome.code = 0 → outcome.complaint = "") ∧
    ∀ text : String, s.read contents = .ok text.toUTF8 →
      Request.run ⟨true, entries, asJson, contents⟩ s =
        Request.run ⟨false, entries, asJson, text⟩ s := by
  intro process json lines r outcome b
  have hprocess : ∀ step : Step, step.json = process step := by
    rintro ⟨operator, _ | left, right, result, index⟩ <;> rfl
  have hjson : ∀ c : Calculation, c.json = json c := by
    intro c
    rw [Calculation.json, funext hprocess]
    rfl
  have hending := r.run_ending hprint
  rw [hread.names] at hending
  refine ⟨hending.code_eq_zero_iff, ?_, hending.complaint, ?_, ?_⟩
  · intro source c hcode hsource hc
    obtain ⟨hcomplaint, hprints⟩ := hending.success hcode hsource hc
    refine ⟨hcomplaint, ?_, ?_⟩
    · rintro rfl
      have htext : ∃ text, s.print c.json = .ok text ∧ outcome.output = text ++ "\n" := hprints
      rwa [hjson] at htext
    · rintro rfl
      have houtput : outcome.output = unlines c.summary := hprints
      obtain ⟨t, ht, hlength, hlines⟩ := summary_lines hc
      exact ⟨houtput, t, ht, by rw [houtput, count_unlines hlines, hlength]⟩
  · intro hsilent hcode
    obtain ⟨source, c, hsource, -, hc⟩ := hending.code_eq_zero_iff.mp hcode
    exact (hending.success hcode hsource hc).1.trans (hsilent _)
  · intro text hcontents
    have hholds : Holds ⟨true, entries, asJson, contents⟩ s.read text := hcontents
    exact run_eq_of_holds rfl rfl hholds rfl

theorem run_outcome_of_file :
    let s := Services.quiet fun path =>
      if path = "example.txt" then .ok "x and not y\n".toUTF8 else .error .missing
    let entries : List (String × Bit) := [("x", .one), ("y", .zero)]
    let plain := Request.run ⟨true, entries, false, "example.txt"⟩ s
    let json := Request.run ⟨true, entries, true, "example.txt"⟩ s
    (Bindings.ReadAs [" x = 1", "y=0"] entries ∧ ∀ value, ∃ text, s.print value = .ok text) ∧
    (plain.code = 0 ∧ plain.complaint = "" ∧ plain.output =
      "Parsed: (x AND (NOT y))\n" ++ "Expression: (1 AND (NOT 0))\n" ++ "Result: 1\n" ++
        "Processes:\n" ++ "  NOT 0 = 1\n" ++ "  1 AND 1 = 1\n") ∧
    (json.code = 0 ∧ json.complaint = "" ∧ json.output =
      "\x7b\n" ++ "  \"parsed\": \"(x AND (NOT y))\",\n" ++
        "  \"expression\": \"(1 AND (NOT 0))\",\n" ++ "  \"result\": 1,\n" ++
        "  \"processes\": [\n" ++
        "    \x7b\n" ++ "      \"operator\": \"NOT\",\n" ++ "      \"right\": 0,\n" ++
        "      \"result\": 1,\n" ++ "      \"index\": 0\n" ++ "    \x7d,\n" ++
        "    \x7b\n" ++ "      \"operator\": \"AND\",\n" ++ "      \"left\": 1,\n" ++
        "      \"right\": 1,\n" ++ "      \"result\": 1,\n" ++ "      \"index\": 1\n" ++
        "    \x7d\n" ++ "  ]\n" ++ "\x7d\n") ∧
    Request.run ⟨false, entries, true, "x and not y\n"⟩ s = json := by
  intro s entries plain json
  have hread : Bindings.ReadAs [" x = 1", "y=0"] entries :=
    .cons (by decide +kernel) (.cons (by decide +kernel) .nil)
  have hprint : ∀ value, ∃ text, s.print value = .ok text := fun value => ⟨value.pretty, rfl⟩
  have hcontents : s.read "example.txt" = .ok "x and not y\n".toUTF8 := rfl
  have hnames : ([" x = 1", "y=0"].map Bindings.nameOf).Nodup := by decide +kernel
  have hc : LogicCalculator.calculate "x and not y\n" (.ofList entries) = .ok
      ⟨"(x AND (NOT y))", "(1 AND (NOT 0))", .one,
        [⟨"NOT", none, .zero, .one, 0⟩, ⟨"AND", some .one, .one, .one, 1⟩]⟩ := by
    decide +kernel
  refine ⟨⟨hread, hprint⟩, ?_, ?_, ?_⟩
  · obtain ⟨hcode, hsuccess, -⟩ := run_outcome hread s hprint true false "example.txt"
    have hzero : plain.code = 0 := hcode.mpr ⟨_, _, hcontents, hnames, hc⟩
    obtain ⟨hcomplaint, -, houtput⟩ := hsuccess _ _ hzero hcontents hc
    exact ⟨hzero, hcomplaint, (houtput rfl).1.trans (by decide +kernel)⟩
  · obtain ⟨hcode, hsuccess, -⟩ := run_outcome hread s hprint true true "example.txt"
    have hzero : json.code = 0 := hcode.mpr ⟨_, _, hcontents, hnames, hc⟩
    obtain ⟨hcomplaint, houtput, -⟩ := hsuccess _ _ hzero hcontents hc
    obtain ⟨text, htext, houtput⟩ := houtput rfl
    obtain rfl := Except.ok.inj htext
    exact ⟨hzero, hcomplaint, houtput.trans (by decide +kernel)⟩
  · obtain ⟨-, -, -, -, hsame⟩ := run_outcome hread s hprint true true "example.txt"
    exact (hsame _ hcontents).symm

end Request

end LogicCalculator.CommandLine
