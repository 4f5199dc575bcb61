import UdpGate.Proofs.AcceptedSettings
import UdpGate.Proofs.ReaderForms
import UdpGate.Proofs.RuleLists

/-!
# Settings on a command line

Settings are written on a command line option by option, in any order, each value as any text that
spells it, and options with their standard value present or not (`Settings.Rendered`).  Which texts
spell a value is said without a reader.  Every reader that can be relied on leads from what is written
in this way to the settings that it was written for (`Settings.rendered_round_trip`).
-/

namespace UdpGate

/-! ## 1. Values as text -/

def Endpoint.names : Endpoint → List String
  | .destination => ["dst", "dest", "destination"]
  | .source => ["src", "source"]

def SpellsEndpoint (text : String) (endpoint : Endpoint) : Prop :=
  String.ofList (text.toList.map Char.toLower) ∈ endpoint.names

def SpellsRules (text : String) (rules : List RuleKey) : Prop :=
  ∃ items, ListsItems text items ∧
    items.Forall₂ (fun item key => RuleKey.Reads item (.ok key)) rules

theorem ofName_eq_ok_iff {text : String} {endpoint : Endpoint} :
    Endpoint.ofName text = .ok endpoint ↔ SpellsEndpoint text endpoint := by
  have apart : ∀ name ∈ Endpoint.destination.names, name ∉ Endpoint.source.names := by decide
  unfold SpellsEndpoint
  generalize lower_eq : String.ofList (text.toList.map Char.toLower) = lower
  simp only [Endpoint.ofName, lower_eq]
  show (if lower ∈ Endpoint.destination.names then _ else if lower ∈ Endpoint.source.names then _
    else _) = _ ↔ _
  by_cases destination : lower ∈ Endpoint.destination.names
  · rw [if_pos destination]
    cases endpoint with
    | destination => exact iff_of_true rfl destination
    | source => exact iff_of_false nofun (apart lower destination)
  · rw [if_neg destination]
    by_cases source : lower ∈ Endpoint.source.names
    · rw [if_pos source]
      cases endpoint with
      | destination => exact iff_of_false nofun destination
      | source => exact iff_of_true rfl source
    · rw [if_neg source]
      cases endpoint with
      | destination => exact iff_of_false nofun destination
      | source => exact iff_of_false nofun source

theorem rulesSetting_eq_ok_iff {text : String} {rules : List RuleKey} :
    rulesSetting text = .ok rules ↔ SpellsRules text rules := by
  have reads_iff (item : String) (key : RuleKey) :
      RuleKey.ofText item = .ok key ↔ RuleKey.Reads item (.ok key) := by
    refine ⟨fun read => ?_, RuleKey.Reads.ofText_eq⟩
    rw [← read]
    exact RuleKey.reads_ofText item
  rw [rulesSetting_eq_iff]
  refine exists_congr fun items => and_congr_right fun _ => ⟨fun answer => ?_, fun read => ?_⟩
  · cases answer with
    | rules read => exact read.imp fun item key => (reads_iff item key).mp
  · exact .rules (read.imp fun item key => (reads_iff item key).mpr)

/-! ## 2. Settings as arguments -/

namespace Settings

/-- Settings that a command line can ask for: numbers of 64 bits, at least one worker, a power of two
for the capacity, rules with a port, and the standard patience, for which there is no option. -/
structure Expressible (settings : Settings) : Prop where
  workers_pos : 0 < settings.workers
  workers_lt : settings.workers < UInt64.size
  duration_lt : settings.duration < UInt64.size
  reportInterval_lt : settings.reportInterval < UInt64.size
  capacity_power : settings.capacity.isPowerOfTwo
  capacity_lt : settings.capacity < UInt64.size
  port_ne_zero : ∀ key ∈ settings.rules, key.port ≠ 0
  patience_eq : settings.patience = ({} : Settings).patience

def Spells (settings : Settings) (text : String) : CliOption → Prop
  | .queueBase => SpellsQueue text.toList settings.queueBase
  | .workers => SpellsWord text settings.workers
  | .duration => SpellsWord text settings.duration
  | .filter => SpellsRules text settings.rules
  | .chunkWidth => SpellsWord text settings.gate.width.bytes
  | .keyEndpoint => SpellsEndpoint text settings.gate.endpoint
  | .reportInterval => SpellsWord text settings.reportInterval
  | .tableCapacity => SpellsWord text settings.capacity
  | .noStats | .help => False

def IsStandard (settings : Settings) : CliOption → Prop
  | .queueBase => settings.queueBase = ({} : Settings).queueBase
  | .workers => settings.workers = ({} : Settings).workers
  | .duration => settings.duration = ({} : Settings).duration
  | .filter => settings.rules = ({} : Settings).rules
  | .chunkWidth => settings.gate.width = ({} : Settings).gate.width
  | .keyEndpoint => settings.gate.endpoint = ({} : Settings).gate.endpoint
  | .noStats => settings.gate.counts = ({} : Settings).gate.counts
  | .reportInterval => settings.reportInterval = ({} : Settings).reportInterval
  | .tableCapacity => settings.capacity = ({} : Settings).capacity
  | .help => True

/-- The arguments that give settings by these options, in this order.  The flag is given if nothing
is counted. -/
inductive Rendered (settings : Settings) : List CliOption → List String → Prop where
  | nil : Rendered settings [] []
  | value {options : List CliOption} {option : CliOption} {text : String}
      {arguments form : List String} : Rendered settings options arguments →
      settings.Spells text option → option.Spelled text form →
      Rendered settings (options ++ [option]) (arguments ++ form)
  | flag {options : List CliOption} {arguments : List String} :
      Rendered settings options arguments → settings.gate.counts = false →
      Rendered settings (options ++ [.noStats]) (arguments ++ [CliOption.noStats.nameArgument])

variable {settings : Settings} {text : String} {option : CliOption} {options : List CliOption}
  {arguments : List String}

theorem Spells.takesValue (h : settings.Spells text option) : option.takesValue := by
  cases option with
  | noStats | help => exact h.elim
  | _ => rfl

theorem Rendered.given (h : settings.Rendered options arguments) : Given options arguments := by
  induction h with
  | nil => exact .nil
  | value _ spells spelled ih => exact .value ih spells.takesValue spelled
  | flag _ _ ih => exact .flag ih

end Settings

/-! ## 3. What a request carries -/

namespace Request

variable {request after : Request} {settings : Settings} {option : CliOption} {text : String}

def Carries (request : Request) (settings : Settings) : CliOption → Prop
  | .queueBase => request.queueBase = settings.queueBase
  | .workers => request.workers = settings.workers
  | .duration => request.duration = settings.duration
  | .filter => request.rules = .ok settings.rules
  | .chunkWidth => request.chunkWidth = settings.gate.width.bytes
  | .keyEndpoint => request.keyEndpoint = settings.gate.endpoint
  | .noStats => (!request.noStats) = settings.gate.counts
  | .reportInterval => request.reportInterval = settings.reportInterval
  | .tableCapacity => request.tableCapacity = settings.capacity
  | .help => True

theorem carries_standard (standard : settings.IsStandard option) :
    Carries {} settings option := by
  cases option with
  | help => trivial
  | filter => exact congrArg Except.ok (Eq.symm standard)
  | chunkWidth => exact congrArg ChunkWidth.bytes (Eq.symm standard)
  | _ => exact Eq.symm standard

-- An option changes what it is given for, and nothing else.
theorem Takes.carries_iff (takes : request.Takes text after option) {other : CliOption}
    (different : other ≠ option) : after.Carries settings other ↔ request.Carries settings other := by
  cases option with
  | noStats | help => exact takes.elim
  | filter =>
    cases (takes : after = _)
    cases other <;> first | exact absurd rfl different | exact Iff.rfl
  | _ =>
    obtain ⟨_, -, rfl⟩ := takes
    cases other <;> first | exact absurd rfl different | exact Iff.rfl

theorem carries_of_flag {other : CliOption} (different : other ≠ .noStats)
    (carried : request.Carries settings other) :
    { request with noStats := true }.Carries settings other := by
  cases other <;> first | exact absurd rfl different | exact carried

/-- A text spells the value that settings have for an option exactly if the option takes it and the
request then has that value. -/
theorem spells_iff_takes (request : Request) :
    settings.Spells text option ↔
      ∃ after, request.Takes text after option ∧ after.Carries settings option := by
  constructor
  · intro spells
    cases option with
    | noStats | help => exact spells.elim
    | filter => exact ⟨_, rfl, rulesSetting_eq_ok_iff.mpr spells⟩
    | keyEndpoint => exact ⟨_, ⟨_, ofName_eq_ok_iff.mpr spells, rfl⟩, rfl⟩
    | _ => exact ⟨_, ⟨_, spells, rfl⟩, rfl⟩
  · rintro ⟨after, takes, carried⟩
    cases option with
    | noStats | help => exact takes.elim
    | filter =>
      cases (takes : after = _)
      exact rulesSetting_eq_ok_iff.mp carried
    | keyEndpoint =>
      obtain ⟨endpoint, named, rfl⟩ := takes
      rw [show endpoint = settings.gate.endpoint from carried] at named
      exact ofName_eq_ok_iff.mp named
    | _ =>
      obtain ⟨n, spells, rfl⟩ := takes
      rwa [show n = _ from carried] at spells

/-! ## 4. From a request to settings -/

theorem settings_of_carries (expressible : settings.Expressible)
    (carried : ∀ option, request.Carries settings option) : request.settings = .ok settings := by
  have found : ChunkWidth.ofNat? settings.gate.width.bytes = some settings.gate.width :=
    ChunkWidth.ofNat?_eq_some_iff.mpr rfl
  have width : request.chunkWidth = settings.gate.width.bytes := carried .chunkWidth
  have endpoint : request.keyEndpoint = settings.gate.endpoint := carried .keyEndpoint
  have counts : (!request.noStats) = settings.gate.counts := carried .noStats
  refine settings_eq_ok_iff.mpr ⟨settings.gate, settings.rules, ?_, carried .filter, ?_, ?_⟩
  · rw [width, endpoint, counts, gateSettings, chunkWidthSetting, found]
    rfl
  · rw [asked, show request.queueBase = _ from carried .queueBase,
      show request.workers = _ from carried .workers,
      show request.duration = _ from carried .duration,
      show request.tableCapacity = _ from carried .tableCapacity,
      show request.reportInterval = _ from carried .reportInterval]
    cases settings
    exact congrArg _ expressible.patience_eq.symm
  · exact settings.validate_eq_ok_iff.mpr ⟨expressible.workers_pos, expressible.capacity_power⟩

end Request

namespace Settings

variable {settings : Settings} {option : CliOption} {options : List CliOption}
  {arguments : List String}

/-! ## 5. Settings as they are written -/

def written (settings : Settings) : CliOption → String
  | .queueBase => Text.decimal settings.queueBase.toNat
  | .workers => Text.decimal settings.workers
  | .duration => Text.decimal settings.duration
  | .filter => writtenList (settings.rules.map fun key => ⟨[], some key, [], nofun, nofun⟩)
  | .chunkWidth => Text.decimal settings.gate.width.bytes
  | .keyEndpoint => settings.gate.endpoint.name
  | .reportInterval => Text.decimal settings.reportInterval
  | .tableCapacity => Text.decimal settings.capacity
  | .noStats | .help => ""

theorem signedNumeral_decimal (n : Nat) : Text.SignedNumeral (Text.decimal n).toList n := by
  rw [Text.decimal, String.toList_ofList]
  exact .plain (Text.numeral_digits n)

theorem spellsRules_written (h : ∀ key ∈ settings.rules, key.port ≠ 0) :
    SpellsRules (settings.written .filter) settings.rules := by
  have listed := listsItems_written
    (settings.rules.map fun key => ⟨[], some key, [], nofun, nofun⟩)
  have keys : (settings.rules.map fun key =>
      (⟨[], some key, [], nofun, nofun⟩ : WrittenItem)).filterMap WrittenItem.key? =
        settings.rules := by
    rw [List.filterMap_map]
    exact List.filterMap_some
  rw [keys] at listed
  refine ⟨_, listed, ?_⟩
  rw [List.forall₂_map_left_iff, List.forall₂_same]
  intro key mem
  rw [← RuleKey.ofText_text (h key mem)]
  exact RuleKey.reads_ofText key.text

theorem spellsWord_decimal {n : Nat} (small : n < UInt64.size) : SpellsWord (Text.decimal n) n :=
  ⟨signedNumeral_decimal n, small⟩

theorem Expressible.spells_written (h : settings.Expressible) (takes : option.takesValue) :
    settings.Spells (settings.written option) option := by
  cases option with
  | noStats | help => cases takes
  | queueBase => exact .number (signedNumeral_decimal _)
  | workers => exact spellsWord_decimal h.workers_lt
  | duration => exact spellsWord_decimal h.duration_lt
  | filter => exact spellsRules_written h.port_ne_zero
  | chunkWidth =>
    exact spellsWord_decimal (Nat.lt_of_le_of_lt settings.gate.width.bytes_le (by decide))
  | keyEndpoint =>
    show SpellsEndpoint settings.gate.endpoint.name settings.gate.endpoint
    unfold SpellsEndpoint
    cases settings.gate.endpoint <;> decide
  | reportInterval => exact spellsWord_decimal h.reportInterval_lt
  | tableCapacity => exact spellsWord_decimal h.capacity_lt

-- Any options may be written, in any order.
theorem Expressible.exists_rendered (h : settings.Expressible) (options : List CliOption)
    (no_help : .help ∉ options) (flag : .noStats ∈ options → settings.gate.counts = false) :
    ∃ arguments, settings.Rendered options arguments := by
  induction options using List.reverseRecOn with
  | nil => exact ⟨[], .nil⟩
  | append_singleton options option ih =>
    obtain ⟨arguments, rendered⟩ :=
      ih (fun mem => no_help (List.mem_append_left _ mem))
        fun mem => flag (List.mem_append_left _ mem)
    have last : option ∈ options ++ [option] := List.mem_append_right _ List.mem_cons_self
    by_cases takes : option.takesValue
    · exact ⟨_, rendered.value (h.spells_written takes) .nameEquals⟩
    · cases option with
      | noStats => exact ⟨_, rendered.flag (flag last)⟩
      | help => exact absurd last no_help
      | _ => exact absurd rfl takes

/-! ## 6. Reading them back -/

theorem mem_or_isStandard_of_append {other : CliOption} (different : other ≠ option)
    (either : other ∈ options ++ [option] ∨ settings.IsStandard other) :
    other ∈ options ∨ settings.IsStandard other :=
  either.imp_left fun mem =>
    (List.mem_append.mp mem).resolve_right (mt List.mem_singleton.mp different)

-- By induction on the options: behind each one the request has what the settings have for it and for
-- all others that came before or keep their standard values.
theorem Rendered.exists_read {read : CommandReader} (documented : read.Documented)
    (rendered : settings.Rendered options arguments) (distinct : options.Nodup) :
    ∃ request, read arguments = .ok request ∧
      ∀ option, option ∈ options ∨ settings.IsStandard option →
        request.Carries settings option := by
  induction rendered with
  | nil =>
    refine ⟨{}, documented.defaults, fun option either => ?_⟩
    exact Request.carries_standard (either.resolve_left List.not_mem_nil)
  | @value options option text arguments form rendered spells spelled ih =>
    obtain ⟨before, -, apart⟩ := List.nodup_append.mp distinct
    have new : option ∉ options := fun mem => apart option mem option List.mem_cons_self rfl
    obtain ⟨request, read_front, carried⟩ := ih before
    obtain ⟨after, takes, here⟩ := (Request.spells_iff_takes request).mp spells
    refine ⟨after, documented.value rendered.given read_front new spelled takes, ?_⟩
    intro other either
    by_cases same : other = option
    · rw [same]
      exact here
    · rw [takes.carries_iff same]
      exact carried other (mem_or_isStandard_of_append same either)
  | @flag options arguments rendered uncounted ih =>
    obtain ⟨before, -, apart⟩ := List.nodup_append.mp distinct
    have new : .noStats ∉ options := fun mem => apart .noStats mem .noStats List.mem_cons_self rfl
    obtain ⟨request, read_front, carried⟩ := ih before
    refine ⟨_, documented.flag rendered.given read_front new, ?_⟩
    intro other either
    by_cases same : other = .noStats
    · rw [same]
      exact uncounted.symm
    · exact Request.carries_of_flag same (carried other (mem_or_isStandard_of_append same either))

/-- **A command line.**  The texts that spell a value are those that its option takes for it.
Settings may be given by any options in any order.  If none is given twice and the others have their
standard values, then a reader that can be relied on reads the arguments, and the request gives back
the settings, whatever texts spell the values and however they stand behind their options. -/
theorem rendered_round_trip {read : CommandReader} (documented : read.Documented)
    (settings : Settings) (expressible : settings.Expressible) :
    (∀ (option : CliOption) (text : String) (request : Request), settings.Spells text option ↔
      ∃ after, request.Takes text after option ∧ after.Carries settings option) ∧
    (∀ options : List CliOption, .help ∉ options →
      (.noStats ∈ options → settings.gate.counts = false) →
        ∃ arguments, settings.Rendered options arguments) ∧
    ∀ (options : List CliOption) (arguments : List String), options.Nodup →
      settings.Rendered options arguments →
      (∀ option, option ∉ options → settings.IsStandard option) →
        ∃ request, read arguments = .ok request ∧ request.settings = .ok settings := by
  refine ⟨fun _ _ request => Request.spells_iff_takes request, expressible.exists_rendered,
    fun options arguments distinct rendered at_standard => ?_⟩
  obtain ⟨request, read_all, carried⟩ := rendered.exists_read documented distinct
  refine ⟨request, read_all, Request.settings_of_carries expressible fun option => ?_⟩
  by_cases mem : option ∈ options
  · exact carried option (.inl mem)
  · exact carried option (.inr (at_standard option mem))

def sampleSettings : Settings where
  workers := 3
  rules := [⟨⟨0x0A000005⟩, 9000⟩, ⟨⟨0x0A000005⟩, 9000⟩]
  gate := { width := { bytes := 8 }, endpoint := .source, counts := false }
  capacity := 64

def sampleOptions : List CliOption :=
  [.tableCapacity, .queueBase, .noStats, .filter, .chunkWidth, .duration, .workers, .keyEndpoint]

-- Every way to give an option occurs; two of the options have their standard values, one of them
-- as a zero behind a minus sign.
def sampleArguments : List String :=
  ["--table-capacity=0064", "-q-0", "--no-stats", "-f", " 10.0.0.5:9000,,10.0.0.5:+9000 ", "-w=8",
    "--duration", "+10", "-t3", "--key-endpoint=SRC"]

theorem rendered_sampleArguments : sampleSettings.Rendered sampleOptions sampleArguments := by
  have word {text : String} {n : Nat} (read : wordValue? text = some n) : SpellsWord text n :=
    wordValue?_eq_some_iff.mp read
  have capacity : sampleSettings.Spells "0064" .tableCapacity := word (by decide)
  have queue : sampleSettings.Spells "-0" .queueBase := queueValue?_eq_some_iff.mp (by decide)
  have rules : sampleSettings.Spells " 10.0.0.5:9000,,10.0.0.5:+9000 " .filter :=
    rulesSetting_eq_ok_iff.mp (by rfl)
  have width : sampleSettings.Spells "8" .chunkWidth := word (by decide)
  have duration : sampleSettings.Spells "+10" .duration := word (by decide)
  have workers : sampleSettings.Spells "3" .workers := word (by decide)
  have endpoint : sampleSettings.Spells "SRC" .keyEndpoint := ofName_eq_ok_iff.mp (by rfl)
  have front := Rendered.nil.value capacity .nameEquals
  have front := front.value queue (.joined rfl (by decide) (by decide))
  have front := front.flag rfl
  have front := front.value rules (.letterApart rfl (by unfold Argument.IsWord; decide))
  have front := front.value width (.letterEquals rfl)
  have front := front.value duration (.nameApart (by unfold Argument.IsWord; decide))
  have front := front.value workers (.joined rfl (by decide) (by decide))
  exact front.value endpoint .nameEquals

theorem rendered_round_trip_sample :
    CommandReader.Documented Request.ofArguments ∧ sampleSettings.Expressible ∧
      sampleOptions.Nodup ∧ sampleSettings.Rendered sampleOptions sampleArguments ∧
      (∀ option, option ∉ sampleOptions → sampleSettings.IsStandard option) ∧
      ∃ request, Request.ofArguments sampleArguments = .ok request ∧
        request.settings = .ok sampleSettings := by
  have documented := Request.ofArguments_documented
  have expressible : sampleSettings.Expressible := by
    constructor <;> decide
  have standard : ∀ option, option ∉ sampleOptions → sampleSettings.IsStandard option := by
    intro option notMem
    cases option with
    | reportInterval => rfl
    | help => trivial
    | _ => exact absurd (by decide) notMem
  have distinct : sampleOptions.Nodup := by decide
  have rendered := rendered_sampleArguments
  exact ⟨documented, expressible, distinct, rendered, standard,
    (rendered_round_trip documented sampleSettings expressible).2.2 _ _ distinct rendered standard⟩

end Settings
end UdpGate
