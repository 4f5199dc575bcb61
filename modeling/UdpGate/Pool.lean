import UdpGate.Engine
import UdpGate.Frame
import UdpGate.Rule.Published

/-!
# Pools of workers

Workers filter whole frames side by side.  Each has a gate of its own; the published table, the
mailbox and the tally exist once and are shared.  Only a worker that owns the mailbox applies
rules, and it does so when it is idle.
-/

namespace UdpGate

structure Worker where
  gate : Gate
  applied : UInt64 := 0
  passed : PassCount := {}
  ownsMailbox : Bool

def Worker.start (settings : GateSettings) (ownsMailbox : Bool) : Worker where
  gate := .start settings
  ownsMailbox := ownsMailbox

/-- Workers and what they share. -/
structure Pool where
  table : PublishedTable
  console : Console := {}
  workers : List Worker

namespace Pool

def start (settings : GateSettings) (table : RuleTable) (owners : List Bool) : Pool where
  table := ⟨table⟩
  workers := owners.map (Worker.start settings)

def engine (pool : Pool) (worker : Worker) : Engine where
  lane :=
    { gate := worker.gate
      table := pool.table.snapshot
      tally := pool.console.tally }
  mailbox := pool.console.mailbox
  applied := worker.applied

def withEngine (pool : Pool) (i : Nat) (worker : Worker) (engine : Engine) : Pool where
  table := pool.table.publish engine.lane.table
  console := engine.console
  workers := pool.workers.set i { worker with gate := engine.lane.gate, applied := engine.applied }

/-- Worker `i` passes a frame through its gate.  The frame is accepted if the end of a packet came
out behind the gate. -/
def filterFrame (pool : Pool) (i : Nat) (frame : List UInt8) : Option (Bool × Pool) :=
  pool.workers[i]?.map fun worker =>
    let cursor := ChunkCursor.ofPacket worker.gate.settings.width frame
    let (_, engine, _, passed) := (pool.engine worker).drain cursor worker.passed
    (worker.passed.packets < passed.packets,
      pool.withEngine i { worker with passed := passed } engine)

def filterIp (pool : Pool) (i : Nat) (packet : List UInt8) : Option (Bool × Pool) :=
  pool.filterFrame i (encapsulate packet)

def idle (pool : Pool) (i : Nat) : Option (StepOutcome × Pool) :=
  pool.workers[i]?.map fun worker =>
    if worker.ownsMailbox then
      let (outcome, engine) := (pool.engine worker).idleStep
      (outcome, pool.withEngine i worker engine)
    else (.idle, pool)

end Pool
end UdpGate
