import UdpGate.Settings

/-!
# The command line

The options of the program, what a command line asks for with them, and the settings that come of
it.  The arguments themselves are read by a reader that is not part of this module: a run is given
one (`CommandReader`).
-/

namespace UdpGate

/-! ## 1. Options -/

inductive CliOption where
  | queueBase | workers | duration | filter | chunkWidth | keyEndpoint
  | noStats | reportInterval | tableCapacity | help
deriving DecidableEq

namespace CliOption

def all : List CliOption :=
  [queueBase, workers, duration, filter, chunkWidth, keyEndpoint, noStats, reportInterval,
    tableCapacity, help]

def name : CliOption → String
  | queueBase => "queue-base"
  | workers => "threads"
  | duration => "duration"
  | filter => "filter"
  | chunkWidth => "chunk-width"
  | keyEndpoint => "key-endpoint"
  | noStats => "no-stats"
  | reportInterval => "report-interval"
  | tableCapacity => "table-capacity"
  | help => "help"

def letter? : CliOption → Option Char
  | queueBase => some 'q'
  | workers => some 't'
  | duration => some 'd'
  | filter => some 'f'
  | chunkWidth => some 'w'
  | help => some 'h'
  | keyEndpoint | noStats | reportInterval | tableCapacity => none

def takesValue : CliOption → Bool
  | noStats | help => false
  | _ => true

end CliOption

/-! ## 2. Requests -/

/-- Why a command line is not carried out.  A request for help ends a run in the same way. -/
inductive Refusal where
  | help
  | unknownArgument
  | missingValue
  | badValue
  | repeated
  | unexpectedValue
deriving DecidableEq

def Refusal.exitCode : Refusal → UInt8
  | .help => 0
  | _ => 2

/-- What a command line asks for, with the defaults of the options that it does not give. -/
structure Request where
  queueBase : UInt16 := 0
  workers : Nat := 1
  duration : Nat := 10
  filter : Option String := none
  chunkWidth : Nat := 64
  keyEndpoint : Endpoint := .destination
  noStats : Bool := false
  reportInterval : Nat := 1
  tableCapacity : Nat := RuleTable.standardCapacity
deriving DecidableEq

/-- A reader of the arguments that follow the program's name. -/
abbrev CommandReader := List String → Except Refusal Request

namespace Request

def rules (request : Request) : Except SettingsFault (List RuleKey) :=
  match request.filter with
  | some text => rulesSetting text
  | none => .ok []

def asked (request : Request) (gate : GateSettings) (rules : List RuleKey) : Settings where
  queueBase := request.queueBase
  workers := request.workers
  duration := request.duration
  rules := rules
  gate := gate
  capacity := request.tableCapacity
  reportInterval := request.reportInterval

/-- The settings that a request asks for.  Of several faults the chunk width's comes first, then
the rules', then the workers', then the capacity's. -/
def settings (request : Request) : Except SettingsFault Settings := do
  let gate ← gateSettings request.chunkWidth request.keyEndpoint (!request.noStats)
  let rules ← request.rules
  (request.asked gate rules).validate
  .ok (request.asked gate rules)

end Request

/-! ## 3. Settings that are accepted -/

theorem exists_of_bind_eq_ok {ε α β : Type} {first : Except ε α} {next : α → Except ε β} {result : β}
    (h : first >>= next = .ok result) : ∃ value, first = .ok value ∧ next value = .ok result := by
  cases first with
  | error => cases h
  | ok value => exact ⟨value, rfl, h⟩

theorem Request.settings_eq_ok_iff {request : Request} {settings : Settings} :
    request.settings = .ok settings ↔
      ∃ gate rules, gateSettings request.chunkWidth request.keyEndpoint (!request.noStats) =
          .ok gate ∧ request.rules = .ok rules ∧ request.asked gate rules = settings ∧
        settings.validate = .ok () := by
  constructor
  · intro accepted
    obtain ⟨gate, gate_eq, accepted⟩ := exists_of_bind_eq_ok accepted
    obtain ⟨rules, rules_eq, accepted⟩ := exists_of_bind_eq_ok accepted
    obtain ⟨_, valid, same⟩ := exists_of_bind_eq_ok accepted
    cases same
    exact ⟨gate, rules, gate_eq, rules_eq, rfl, valid⟩
  · rintro ⟨gate, rules, gate_eq, rules_eq, rfl, valid⟩
    rw [settings, gate_eq, rules_eq]
    show ((request.asked gate rules).validate >>= fun _ => .ok (request.asked gate rules)) = _
    rw [valid]
    rfl

theorem Request.validate_of_settings {request : Request} {settings : Settings}
    (accepted : request.settings = .ok settings) : settings.validate = .ok () := by
  obtain ⟨_, _, _, _, _, valid⟩ := settings_eq_ok_iff.mp accepted
  exact valid

end UdpGate
