import TapeScribe.Proofs.CommandLine
import TapeScribe.Proofs.Outcome

namespace TapeScribe

/-- The place that counts is the first one that is set, in a fixed order. -/
inductive Environment.Selects (e : Environment) : Place → Prop
  | named : e.named ≠ .unset → e.Selects e.named
  | directory : e.named = .unset → e.directory ≠ .unset → e.Selects e.directory
  | home : e.named = .unset → e.directory = .unset → e.Selects e.home

/-- A file that is a text supplies the settings written in it; everything else the defaults. -/
inductive Place.Supplies : Place → Settings → Prop
  | text (content : String) : Supplies (.file (Utf8.encode content)) (Settings.parse content)
  | noText {content} : (∀ text, content ≠ Utf8.encode text) → Supplies (.file content) {}
  | unreadable : Supplies .unreadable {}
  | unset : Supplies .unset {}

namespace Environment

variable {e e' : Environment} {place : Place}

theorem selects_place (e : Environment) : e.Selects e.place := by
  unfold Environment.place
  split
  next h => exact .named h
  next h =>
    split
    next hd => exact .directory (by simpa using h) hd
    next hd => exact .home (by simpa using h) (by simpa using hd)

theorem Selects.place_eq (h : e.Selects place) : e.place = place := by
  cases h with
  | named h => simp [Environment.place, h]
  | directory h hd => simp [Environment.place, h, hd]
  | home h hd => simp [Environment.place, h, hd]

theorem supplies_settings (e : Environment) : e.place.Supplies e.settings := by
  unfold settings
  cases e.place with
  | unset => exact .unset
  | unreadable => exact .unreadable
  | file content =>
    cases h : Utf8.decode? content with
    | some text =>
      obtain rfl := Utf8.decode?_eq_some_iff.mp h
      simp only [h]
      exact .text text
    | none =>
      simp only [h]
      exact .noText (Utf8.decode?_eq_none_iff.mp h)

theorem settings_congr (h : e.Selects place) (h' : e'.Selects place) :
    e'.settings = e.settings := by
  unfold settings
  rw [h.place_eq, h'.place_eq]

end Environment

/-- What the command line gives comes before what the settings give. -/
structure Options.ResolvedFrom (options : Options) (uses : List OptionUse) (config : Settings) :
    Prop where
  clearCell : options.clearCell = (lastClearing uses).getD config.clearCell
  given : ∀ value ∈ givenValues uses,
    ∃ text, value = Utf8.encode text ∧ options.placeholder = some text
  configured : givenValues uses = [] → options.placeholder = config.placeholder

theorem Options.ResolvedFrom.empty_of_given {options : Options} {uses : List OptionUse}
    {config : Settings} (h : options.ResolvedFrom uses config) (hgiven : [] ∈ givenValues uses) :
    options.placeholder = some "" := by
  obtain ⟨text, htext, hplaceholder⟩ := h.given [] hgiven
  have hempty : Utf8.encode "" = Utf8.encode text := htext
  rw [hplaceholder, Utf8.encode_injective hempty]

namespace Invocation

variable {i : Invocation} {uses : List OptionUse}

theorem Records.not_both (h : Records i.flags i.placeholder uses) :
    ¬(i.has .clear = true ∧ i.has .noClear = true) := by
  simp only [has, List.contains_iff_mem]
  rintro ⟨hclear, hnoClear⟩
  have hlast := h.clear.mp hclear
  rw [h.noClear.mp hnoClear] at hlast
  cases hlast

theorem Records.resolvedFrom (h : Records i.flags i.placeholder uses) (config : Settings) :
    (i.options config).ResolvedFrom uses config where
  clearCell := by
    have hclear : i.has .clear = decide (lastClearing uses = some true) := by
      rw [Bool.eq_iff_iff, decide_eq_true_iff, ← h.clear, has, List.contains_iff_mem]
    have hnoClear : i.has .noClear = decide (lastClearing uses = some false) := by
      rw [Bool.eq_iff_iff, decide_eq_true_iff, ← h.noClear, has, List.contains_iff_mem]
    rw [options, hclear, hnoClear]
    rcases lastClearing uses with _ | _ | _ <;> simp
  given := by
    intro value hv
    rw [h.placeholder] at hv
    cases hp : i.placeholder with
    | none => simp [hp] at hv
    | some text => exact ⟨text, by simpa [hp] using hv, by simp [options, hp]⟩
  configured := by
    intro hnone
    rw [h.placeholder] at hnone
    cases hp : i.placeholder with
    | none => simp [options, hp]
    | some text => simp [hp] at hnone

end Invocation

/-- An empty placeholder takes a configured one away. -/
theorem Request.program_empty_placeholder (request : Request) {options : Options}
    (h : options.placeholder = some "") :
    request.program options = request.program { options with placeholder := none } := by
  cases request with
  | print layout text => cases layout <;> rfl
  | read stop echo leadIn =>
    have hempty : (options.placeholder.map Utf8.encode).map Prompt.program = some ∅ := by
      rw [h, ← Prompt.program_nil]
      rfl
    simp [Request.program, Reader.program, Reader.echoes, hempty]

/-- An accepted command line that asks for a program gets it with the options that it gives and, for
the rest, those of the one place that counts. -/
theorem commandLine_resolves_options {arguments : List (List UInt8)} {i : Invocation}
    (hi : Invocation.parse arguments = .ok i) :
    ¬(i.has .clear = true ∧ i.has .noClear = true) ∧
    ∃ uses, Written arguments uses (i.words.map Utf8.encode) ∧
      ∀ (selector : String) (rest : List String) (mode : Mode) (request : Request),
        i.has .help = false → i.words = selector :: rest → Mode.lookup selector = some mode →
        Request.parse mode rest = .ok request →
        ∀ (name : String) (e : Environment), ∃ place config options,
          e.Selects place ∧ place.Supplies config ∧ options.ResolvedFrom uses config ∧
          (Command.run name arguments e).stdout = (request.program options).text ++ "\n" ∧
          ([] ∈ givenValues uses →
            request.program options = request.program { options with placeholder := none }) ∧
          ∀ e' : Environment, e'.Selects place →
            Command.run name arguments e' = Command.run name arguments e := by
  obtain ⟨uses, hwritten, hrecords⟩ := Invocation.parse_written hi
  refine ⟨hrecords.not_both, uses, hwritten, ?_⟩
  intro selector rest mode request hhelp hwords hmode hrequest name e
  have hgenerated : i.ComesTo (.generated request) := .generated hhelp hwords hmode hrequest
  have hrun := Invocation.run_eq_report hi name
  have hresolved := hrecords.resolvedFrom e.settings
  refine ⟨e.place, e.settings, i.options e.settings, e.selects_place, e.supplies_settings,
    hresolved, ?_, ?_, ?_⟩
  · obtain ⟨_, hreport, -⟩ := hgenerated.exists_report_eq name e.settings
    rw [hrun, hreport]
    rfl
  · intro hgiven
    exact request.program_empty_placeholder (hresolved.empty_of_given hgiven)
  · intro e' he'
    rw [hrun, hrun, Environment.settings_congr e.selects_place he']

theorem commandLine_resolves_options_against_file :
    Invocation.parse (["-c", "--no-clear", "-dp", "", "2", "3", "-c"].map Utf8.encode) =
      .ok ⟨[.debug, .noClear], some "", ["2", "3", "-c"]⟩ ∧
    Mode.lookup "2" = some (.read .count false) ∧
    Request.parse (.read .count false) ["3", "-c"] = .ok (.read (.count 3) true "-c") ∧
    (Command.run "tape" (["-c", "--no-clear", "-dp", "", "2", "3", "-c"].map Utf8.encode)
      ⟨.file (Utf8.encode "[generate]\nclear_cell = yes\nplaceholder = ?"), .unreadable,
        .unset⟩).stdout =
      ((Request.read (.count 3) true "-c").program {}).text ++ "\n" := by
  have hi : Invocation.parse (["-c", "--no-clear", "-dp", "", "2", "3", "-c"].map Utf8.encode) =
      .ok ⟨[.debug, .noClear], some "", ["2", "3", "-c"]⟩ := by decide
  have hmode : Mode.lookup "2" = some (.read .count false) := by decide
  have hrequest : Request.parse (.read .count false) ["3", "-c"] =
      .ok (.read (.count 3) true "-c") := by decide
  obtain ⟨-, uses, hwritten, hall⟩ := commandLine_resolves_options hi
  have hmine : Written (["-c", "--no-clear", "-dp", "", "2", "3", "-c"].map Utf8.encode)
      ([.flag .clear] ++ ([.flag .noClear] ++ ([.flag .debug] ++ .placeholder (some []) :: [])))
      (["2", "3", "-c"].map Utf8.encode) :=
    .options (.letters (.last rfl)) (by decide) (.options (.flag .noClear) (by decide)
      (.value (.letters (.flag rfl .awaiting)) (by decide) (Argument.isWord_of_plain rfl)
        (.words (Argument.isWord_of_plain rfl))))
  obtain ⟨rfl, -⟩ := hwritten.unique hmine
  obtain ⟨place, config, options, -, -, hresolved, hout, hempty, -⟩ :=
    hall "2" ["3", "-c"] _ _ rfl rfl hmode hrequest "tape"
      ⟨.file (Utf8.encode "[generate]\nclear_cell = yes\nplaceholder = ?"), .unreadable, .unset⟩
  refine ⟨hi, hmode, hrequest, ?_⟩
  have hclear : options.clearCell = false := hresolved.clearCell
  rw [hout, hempty (by decide), hclear]

end TapeScribe
