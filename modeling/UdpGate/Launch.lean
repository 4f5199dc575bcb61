import UdpGate.CommandLine
import UdpGate.Text.Pad

/-!
# Starting a run

A run starts in steps, each of which can fail: the command line is read, the settings are checked,
the signal handlers are installed, the rule table is made, memory is taken for the handles of the
workers, every worker gets a thread, and every worker opens its packet queue.  What the steps take
from the host is a parameter (`Host`).
-/

namespace UdpGate

/-! ## 1. The host -/

inductive Signal where
  | interrupt
  | terminate
deriving DecidableEq

def Signal.number : Signal → Nat
  | .interrupt => 2
  | .terminate => 15

/-- What a run takes from the host that it starts on.  Where a host does not do what is asked of it,
it gives a reason.  Memory is asked for in blocks whose size depends on the settings: `hasBlock` says
whether there is one of so many bytes beside those that are held, and the sizes are the bytes of a
slot's action, of a slot's owner and of a worker's handle. -/
structure Host where
  installHandler : Signal → Option String
  hasBlock : List Nat → Nat → Bool
  actionSize : Nat
  ownerSize : Nat
  handleSize : Nat
  spawnThread : Nat → Option String
  openQueue : UInt16 → Option String

/-- A host without packet queues.  Its blocks of memory reach `2 ^ 34` bytes, which is enough for
the largest rule table: `2 ^ 31` slots with owners of eight bytes. -/
def Host.withoutQueues : Host where
  installHandler _ := none
  hasBlock _ bytes := bytes ≤ Nat.pow 2 34
  actionSize := 1
  ownerSize := 8
  handleSize := 24
  spawnThread _ := none
  openQueue _ := some "packet queues are not available"

/-! ## 2. Steps -/

inductive MemoryFault where
  | overflow
  | refused (bytes : Nat)
deriving DecidableEq

def MemoryFault.message : MemoryFault → String
  | .overflow => "capacity overflow"
  | .refused bytes => "memory allocation of " ++ Text.decimal bytes ++ " bytes failed"

-- A run that is refused memory is aborted and has no exit code.
def MemoryFault.exitCode? : MemoryFault → Option UInt8
  | .overflow => some 101
  | .refused _ => none

structure HandlerFault where
  signal : Signal
  reason : String
deriving DecidableEq

inductive LaunchFault where
  | handles (fault : MemoryFault)
  | thread (worker : Nat) (reason : String)
  | queue (number : UInt16) (reason : String)
deriving DecidableEq

namespace LaunchFault

def message : LaunchFault → String
  | .handles fault => fault.message
  | .thread worker reason => "failed to spawn worker " ++ Text.decimal worker ++ ": " ++ reason
  | .queue number reason =>
    "failed to set up NFQUEUE " ++ Text.decimal number.toNat ++ ": " ++ reason

def reason? : LaunchFault → Option String
  | .handles _ => none
  | .thread _ reason | .queue _ reason => some reason

def exitCode? : LaunchFault → Option UInt8
  | .handles fault => fault.exitCode?
  | .thread _ _ | .queue _ _ => some 1

end LaunchFault

inductive StartFailure where
  | settings (fault : SettingsFault)
  | handler (fault : HandlerFault)
  | table (fault : SettingsFault)
  | slots (fault : MemoryFault)
  | workers (fault : LaunchFault)
deriving DecidableEq

/-- The bytes that no block of memory reaches: the distance between two of its bytes is a signed
word. -/
def blockBound : Nat := Nat.pow 2 63

def workerQueue (base : UInt16) (worker : Nat) : UInt16 := base + UInt16.ofNat worker

def isWorkerQueue (base : UInt16) (workers : Nat) (number : UInt16) : Bool :=
  (number - base).toNat < workers

namespace Host

def installHandlers (host : Host) : Except HandlerFault Unit :=
  [Signal.interrupt, .terminate].forM fun signal =>
    match host.installHandler signal with
    | some reason => .error ⟨signal, reason⟩
    | none => .ok ()

def takeBlock (host : Host) (held : List Nat) (count size : Nat) : Except MemoryFault (List Nat) :=
  if blockBound ≤ count * size then .error .overflow
  else if host.hasBlock held (count * size) then .ok (count * size :: held)
  else .error (.refused (count * size))

def takeSlots (host : Host) (capacity : Nat) : Except MemoryFault (List Nat) := do
  let held ← host.takeBlock [] capacity host.actionSize
  host.takeBlock held capacity host.ownerSize

-- Starts the threads of `count` workers from worker `first` on.
def spawnThreads (host : Host) (first : Nat) : Nat → Except LaunchFault Unit
  | 0 => .ok ()
  | count + 1 =>
    match host.spawnThread first with
    | some reason => .error (.thread first reason)
    | none => host.spawnThreads (first + 1) count

-- Opens the queues of `count` workers from worker `first` on, up to one that stays shut.
def openQueues (host : Host) (base : UInt16) (first : Nat) :
    Nat → Except LaunchFault (List UInt16)
  | 0 => .ok []
  | count + 1 =>
    let number := workerQueue base first
    match host.openQueue number with
    | some reason => .error (.queue number reason)
    | none => (host.openQueues base (first + 1) count).map (number :: ·)

/-- Starts the workers.  No queue is waited for before all of them have their threads. -/
def spawnWorkers (host : Host) (held : List Nat) (base : UInt16) (workers : Nat) :
    Except LaunchFault (List UInt16) := do
  let _ ← (host.takeBlock held workers host.handleSize).mapError .handles
  host.spawnThreads 0 workers
  host.openQueues base 0 workers

end Host

/-! ## 3. Failures -/

namespace StartFailure

def chain : StartFailure → List String
  | .settings fault => "invalid configuration" :: fault.chain
  | .handler fault =>
    ["failed to install handler for signal " ++ Text.decimal fault.signal.number, fault.reason]
  | .table fault => fault.chain
  | .slots fault => [fault.message]
  | .workers fault => fault.message :: fault.reason?.toList

def exitCode? : StartFailure → Option UInt8
  | .settings _ | .handler _ | .table _ => some 1
  | .slots fault => fault.exitCode?
  | .workers fault => fault.exitCode?

def line (failure : StartFailure) : String := ": ".intercalate failure.chain

-- Indents every line of a text but the first.
def hang (indent text : String) : String :=
  String.ofList (text.toList.flatMap fun c => if c = '\n' then '\n' :: indent.toList else [c])

-- The causes are numbered if there are several.
def causeLines (causes : List String) : List String :=
  match causes with
  | [cause] => ["    " ++ hang "    " cause]
  | _ => causes.mapIdx fun i cause =>
    Text.padLeft 5 (Text.decimal i) ++ ": " ++ hang "       " cause

def report (failure : StartFailure) : String :=
  match failure.chain with
  | [] => ""
  | [what] => "phit-filter error: " ++ what ++ "\n"
  | what :: causes =>
    "phit-filter error: " ++ what ++ "\n\nCaused by:\n"
      ++ String.join ((causeLines causes).map (· ++ "\n"))

end StartFailure

/-! ## 4. A run -/

def Request.start (request : Request) (host : Host) :
    Except StartFailure (Settings × List UInt16) := do
  let settings ← request.settings.mapError .settings
  host.installHandlers.mapError .handler
  let _ ← (indexBitsSetting settings.capacity).mapError .table
  let held ← (host.takeSlots settings.capacity).mapError .slots
  let queues ← (host.spawnWorkers held settings.queueBase settings.workers).mapError .workers
  .ok (settings, queues)

inductive StartOutcome where
  | refused (refusal : Refusal)
  | failed (failure : StartFailure)
  | started (settings : Settings) (queues : List UInt16)
deriving DecidableEq

def startRun (read : CommandReader) (host : Host) (arguments : List String) : StartOutcome :=
  match read arguments with
  | .error refusal => .refused refusal
  | .ok request =>
    match request.start host with
    | .error failure => .failed failure
    | .ok (settings, queues) => .started settings queues

-- The exit code of a run that does not get further than this, if the run is not aborted.
def StartOutcome.exitCode? : StartOutcome → Option UInt8
  | .refused refusal => some refusal.exitCode
  | .failed failure => failure.exitCode?
  | .started _ _ => some 0

end UdpGate
