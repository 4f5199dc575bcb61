import UdpGate.Chunk.Flow
import UdpGate.Console
import UdpGate.Gate

/-!
# The engine

An engine moves chunks from a feed through its gate to an outlet.  Rules are applied between
chunks only: a step that finds its feed empty takes the pending commit of the mailbox, writes it
to the table and acknowledges it.  Draining empties a feed and applies no rule.
-/

namespace UdpGate

/-- A lane together with the mailbox that it takes rules from. -/
structure Engine where
  lane : Lane
  mailbox : Mailbox := {}
  /-- The number of the last commit that this engine applied. -/
  applied : UInt64 := 0

inductive StepOutcome where
  | idle
  | ruleApplied (pending : PendingRule)
  | chunk (verdict : Verdict)
deriving DecidableEq

namespace Engine

def console (engine : Engine) : Console where
  mailbox := engine.mailbox
  tally := engine.lane.tally

def withConsole (engine : Engine) (console : Console) : Engine :=
  { engine with
    mailbox := console.mailbox
    lane := { engine.lane with tally := console.tally } }

def forward [Outlet ω] (engine : Engine) (outlet : ω) (chunk : Chunk) : Verdict × Engine × ω :=
  let (verdict, lane) := engine.lane.classify chunk
  (verdict, { engine with lane := lane },
    if verdict.forwarded then Outlet.put outlet chunk else outlet)

def pending? (engine : Engine) : Option PendingRule := engine.mailbox.pending? engine.applied

def applyPending (engine : Engine) : Engine :=
  match engine.pending? with
  | none => engine
  | some pending =>
    { lane := engine.lane.insert pending.rule
      mailbox := engine.mailbox.acknowledge pending.number
      applied := pending.number }

def idleStep (engine : Engine) : StepOutcome × Engine :=
  match engine.pending? with
  | none => (.idle, engine)
  | some pending => (.ruleApplied pending, engine.applyPending)

/-- Takes one chunk, or a pending rule if there is no chunk. -/
def step [Feed φ] [Outlet ω] (engine : Engine) (feed : φ) (outlet : ω) :
    StepOutcome × Engine × φ × ω :=
  match Feed.next? feed with
  | some (chunk, feed) =>
    let (verdict, engine, outlet) := engine.forward outlet chunk
    (.chunk verdict, engine, feed, outlet)
  | none =>
    let (outcome, engine) := engine.idleStep
    (outcome, engine, feed, outlet)

def drainFrom [Feed φ] [Outlet ω] (count : Nat) (engine : Engine) (feed : φ) (outlet : ω) :
    Nat × Engine × φ × ω :=
  match _taken : Feed.next? feed with
  | none => (count, engine, feed, outlet)
  | some (chunk, rest) =>
    let (_, engine, outlet) := engine.forward outlet chunk
    drainFrom (count + 1) engine rest outlet
termination_by Feed.left feed
decreasing_by exact Feed.left_lt (by assumption)

def drain [Feed φ] [Outlet ω] (engine : Engine) (feed : φ) (outlet : ω) :
    Nat × Engine × φ × ω :=
  engine.drainFrom 0 feed outlet

end Engine
end UdpGate
