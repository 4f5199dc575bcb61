import UdpGate.Gate
import UdpGate.Rule.Listing

/-!
# Settings

What a run of the filter is told: its queues and workers, how long it runs, the rules to install
first, and how wide the chunks and how large the table are.  `Settings.validate` refuses settings
that no run can start with.
-/

namespace UdpGate

inductive SettingsFault where
  | chunkWidth (given : Nat)
  | capacity (given : Nat)
  | noWorkers
  | rule (fault : RuleFault)
deriving DecidableEq

namespace SettingsFault

def message : SettingsFault → String
  | .chunkWidth given =>
    "chunk width must be between 1 and " ++ Text.decimal chunkRoom ++ " bytes, got "
      ++ Text.decimal given
  | .capacity given =>
    "rule table capacity must be a non-zero power of two, got " ++ Text.decimal given
  | .noWorkers => "at least one worker is required"
  | .rule fault => "invalid rule: " ++ fault.message

def chain (fault : SettingsFault) : List String :=
  match fault with
  | .rule cause => [fault.message, cause.message]
  | _ => [fault.message]

end SettingsFault

/-! ## 1. Single settings -/

def chunkWidthSetting (bytes : Nat) : Except SettingsFault ChunkWidth :=
  match ChunkWidth.ofNat? bytes with
  | some width => .ok width
  | none => .error (.chunkWidth bytes)

def indexBitsSetting (capacity : Nat) : Except SettingsFault (Fin 32) :=
  match RuleTable.indexBits? capacity with
  | some bits => .ok bits
  | none => .error (.capacity capacity)

def tableSetting (capacity : Nat) : Except SettingsFault RuleTable :=
  (indexBitsSetting capacity).map (RuleTable.empty .standard)

def rulesSetting (text : String) : Except SettingsFault (List RuleKey) :=
  (rulesOfText text).mapError .rule

/-- An end of a packet by one of its names, in letters of either case. -/
def Endpoint.ofName (name : String) : Except String Endpoint :=
  let lower := String.ofList (name.toList.map Char.toLower)
  if lower ∈ ["dst", "dest", "destination"] then .ok .destination
  else if lower ∈ ["src", "source"] then .ok .source
  else .error ("unknown key endpoint '" ++ lower ++ "', expected 'src' or 'dst'")

def gateSettings (width : Nat) (endpoint : Endpoint) (counts : Bool) :
    Except SettingsFault GateSettings :=
  (chunkWidthSetting width).map fun width => ⟨width, endpoint, counts⟩

/-! ## 2. All settings -/

/-- All settings, with the values that hold where none is given.  The duration and the report interval
are in seconds, zero stands for no end and no reports; the patience is in milliseconds. -/
structure Settings where
  queueBase : UInt16 := 0
  workers : Nat := 1
  duration : Nat := 10
  rules : List RuleKey := []
  gate : GateSettings := {}
  capacity : Nat := RuleTable.standardCapacity
  reportInterval : Nat := 1
  patience : Nat := 1000
deriving DecidableEq

def isPowerOfTwo (n : Nat) : Bool := Nat.pow 2 n.log2 = n

/-- Accepts settings with a worker and a capacity that is a power of two. -/
def Settings.validate (settings : Settings) : Except SettingsFault Unit :=
  if settings.workers = 0 then .error .noWorkers
  else if isPowerOfTwo settings.capacity then .ok ()
  else .error (.capacity settings.capacity)

end UdpGate
