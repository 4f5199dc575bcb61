import UdpGate.Header.Assembly
import UdpGate.Rule.Table
import UdpGate.Tally

/-!
# The gate

The gate looks at each chunk once.  It withholds the chunks of a packet until the decision chunk,
decides there for the rest of the packet, and waits for the next packet after the last chunk.  The
table is asked once per packet, at the decision, so a rule that changes later takes effect with the
next packet.
-/

namespace UdpGate

structure GateSettings where
  width : ChunkWidth := .widest
  endpoint : Endpoint := .destination
  counts : Bool := true
deriving DecidableEq

inductive Phase where
  | awaitingHeader
  | decided (action : Action)
deriving DecidableEq

structure Verdict where
  index : Nat
  forwarded : Bool
  last : Bool
deriving DecidableEq

structure Gate where
  settings : GateSettings
  assembly : Assembly
  phase : Phase := .awaitingHeader
  lookups : Nat := 0

namespace Gate

def start (settings : GateSettings) : Gate where
  settings := settings
  assembly := .start settings.width

/-- The key under which the packet is looked up; none if it is not UDP over IPv4, or too short. -/
def key? (settings : GateSettings) (header : Header) : Option RuleKey :=
  match header.isIpv4?, header.isUdp? with
  | some true, some true => header.key? settings.endpoint
  | _, _ => none

def decide (gate : Gate) (table : RuleTable) : Gate :=
  match key? gate.settings gate.assembly.header with
  | some key => { gate with phase := .decided (table.lookup key), lookups := gate.lookups + 1 }
  | none => { gate with phase := .decided .drop }

/-- Decides at the decision chunk, unless it has decided already. -/
def decideAt (gate : Gate) (table : RuleTable) (index : Nat) : Gate :=
  if gate.phase = .awaitingHeader ∧ gate.settings.width.decisionChunk ≤ index then
    gate.decide table
  else gate

/-- Looks at a chunk.  After the last chunk of a packet the gate waits for a header again. -/
def classify (gate : Gate) (table : RuleTable) (chunk : Chunk) : Verdict × Gate :=
  let index := gate.assembly.incomingIndex
  let decided := { gate with assembly := gate.assembly.consume chunk }.decideAt table index
  ({ index := index, forwarded := decided.phase == .decided .forward, last := chunk.last },
    if chunk.last then { decided with phase := .awaitingHeader } else decided)

end Gate

def Verdict.record (verdict : Verdict) (tally : Tally) : Tally :=
  if verdict.last then tally.record (UInt64.ofNat (verdict.index + 1)) verdict.forwarded else tally

/-! ## A gate with a table and a tally -/

/-- A gate together with the table that it asks and the tally that it keeps. -/
structure Lane where
  gate : Gate
  table : RuleTable
  tally : Tally := {}

namespace Lane

def counted? (lane : Lane) : Option Tally :=
  if lane.gate.settings.counts then some lane.tally else none

def classify (lane : Lane) (chunk : Chunk) : Verdict × Lane :=
  let (verdict, gate) := lane.gate.classify lane.table chunk
  (verdict,
    { lane with
      gate := gate
      tally := if gate.settings.counts then verdict.record lane.tally else lane.tally })

def process (lane : Lane) (chunk : Chunk) : Option Chunk × Lane :=
  let (verdict, after) := lane.classify chunk
  (if verdict.forwarded then some chunk else none, after)

def classifyAll (lane : Lane) (chunks : List Chunk) : List Verdict × Lane :=
  let (verdicts, after) := chunks.foldl
    (fun (verdicts, lane) chunk =>
      let (verdict, after) := lane.classify chunk
      (verdicts.push verdict, after))
    (#[], lane)
  (verdicts.toList, after)

def insert (lane : Lane) (rule : Rule) : Lane :=
  { lane with table := lane.table.insert rule }

end Lane
end UdpGate
