import UdpGate.Monitor

/-!
# Reading while packets are counted

The control side reads a counter in two words, the low one first, and the data path does not wait
for it.  Time is told by the words that are read: one at each moment 0, 1, 2, and so on, and between
two moments any packets may be counted.  A reading of all counters takes eight moments.  A monitor
takes reading 0 before its first round; each round then has two readings of its own, one for its
report and one behind it, and if the round makes no report these moments pass unused.
-/

namespace UdpGate

structure PacketCount where
  chunks : UInt64
  forwarded : Bool
deriving DecidableEq

def Tally.recordAll (tally : Tally) (packets : List PacketCount) : Tally :=
  packets.foldl (fun tally packet => tally.record packet.chunks packet.forwarded) tally

/-- A console that is read while packets are counted: `packets m` between moments `m` and `m + 1`. -/
structure Traffic where
  console : Console
  packets : Nat → List PacketCount

namespace Traffic

/-! ## 1. Words and readings -/

def consoleAt (traffic : Traffic) : Nat → Console
  | 0 => traffic.console
  | moment + 1 =>
    let console := traffic.consoleAt moment
    { console with tally := console.tally.recordAll (traffic.packets moment) }

def value (traffic : Traffic) (counter : Counter) (moment : Nat) : UInt64 :=
  counter.read (traffic.consoleAt moment).tally

/-- Reads a word at a moment, and the word four bytes behind it at the next one. -/
def readPair? (traffic : Traffic) (moment : Nat) (offset : UInt32) : Option UInt64 :=
  if offset.toNat + 4 < UInt32.size then
    some (joinWords ((traffic.consoleAt moment).read offset)
      ((traffic.consoleAt (moment + 1)).read (offset + 4)))
  else none

def counterFrom (traffic : Traffic) (moment : Nat) (counter : Counter) : UInt64 :=
  joinWords ((traffic.consoleAt moment).read counter.offset)
    ((traffic.consoleAt (moment + 1)).read (counter.offset + 4))

/-- When a reading takes the low word of a counter; the high word follows at the next moment. -/
def lowMoment (reading : Nat) : Counter → Nat
  | .packetsIn => 8 * reading
  | .chunksIn => 8 * reading + 2
  | .packetsForwarded => 8 * reading + 4
  | .packetsDropped => 8 * reading + 6

theorem lowMoment_lt (n : Nat) (counter : Counter) : lowMoment n counter < 8 * (n + 1) := by
  cases counter <;> simp only [lowMoment] <;> omega

theorem lowMoment_succ (n : Nat) (counter : Counter) :
    lowMoment (n + 1) counter = lowMoment n counter + 8 := by
  cases counter <;> rfl

def reading (traffic : Traffic) (n : Nat) : Tally where
  packetsIn := traffic.counterFrom (lowMoment n .packetsIn) .packetsIn
  chunksIn := traffic.counterFrom (lowMoment n .chunksIn) .chunksIn
  packetsForwarded := traffic.counterFrom (lowMoment n .packetsForwarded) .packetsForwarded
  packetsDropped := traffic.counterFrom (lowMoment n .packetsDropped) .packetsDropped

theorem read_reading (traffic : Traffic) (counter : Counter) (n : Nat) :
    counter.read (traffic.reading n) = traffic.counterFrom (lowMoment n counter) counter := by
  cases counter <;> rfl

theorem readPair?_offset (traffic : Traffic) (counter : Counter) (moment : Nat) :
    traffic.readPair? moment counter.offset = some (traffic.counterFrom moment counter) := by
  unfold readPair?
  rw [if_pos (by cases counter <;> decide)]
  rfl

/-! ## 2. A monitored run -/

structure RoundCheck where
  shutdown : Bool
  durationCheck : Nat
  intervalCheck : Nat
  reportEnd : Nat
deriving DecidableEq

/-- A round whose report, if it makes one, shows reading `n`. -/
def round (traffic : Traffic) (n : Nat) (check : RoundCheck) : Round where
  shutdown := check.shutdown
  durationCheck := check.durationCheck
  intervalCheck := check.intervalCheck
  reported := traffic.reading n
  reread := traffic.reading (n + 1)
  reportEnd := check.reportEnd

def roundsFrom (traffic : Traffic) (n : Nat) : List RoundCheck → List Round
  | [] => []
  | check :: checks => traffic.round n check :: traffic.roundsFrom (n + 2) checks

def reports (traffic : Traffic) (settings : MonitorSettings) (startedAt lastReportAt : Nat)
    (checks : List RoundCheck) : List LiveReport :=
  let monitor : Monitor :=
    { settings := settings
      startedAt := startedAt
      lastReportAt := lastReportAt
      baseline := traffic.reading 0 }
  (monitor.run (traffic.roundsFrom 1 checks)).1

/-! ## 3. Without packets -/

def quiet (console : Console) : Traffic where
  console := console
  packets _ := []

theorem consoleAt_quiet (console : Console) (moment : Nat) :
    (quiet console).consoleAt moment = console := by
  induction moment with
  | zero => rfl
  | succ moment ih =>
    rw [consoleAt, ih]
    rfl

-- A pair of words between which nothing is counted is read as if at once.
theorem readPair?_of_nil {traffic : Traffic} {moment : Nat} (h : traffic.packets moment = [])
    (offset : UInt32) :
    traffic.readPair? moment offset = (traffic.consoleAt moment).readPair? offset := by
  have same : traffic.consoleAt (moment + 1) = traffic.consoleAt moment := by
    rw [consoleAt, h]
    rfl
  rw [readPair?, same]
  rfl

theorem reading_quiet (console : Console) (n : Nat) : (quiet console).reading n = console.tally := by
  rw [← console.counters_eq]
  unfold reading counterFrom
  simp only [consoleAt_quiet]
  rfl

def quietCheck (shutdownAt : Option Nat) (i : Nat) : RoundCheck :=
  let round := quietRound {} shutdownAt i
  { shutdown := round.shutdown
    durationCheck := round.durationCheck
    intervalCheck := round.intervalCheck
    reportEnd := round.reportEnd }

theorem roundsFrom_quiet (console : Console) (shutdownAt : Option Nat) (rounds : List Nat)
    (n : Nat) :
    (quiet console).roundsFrom n (rounds.map (quietCheck shutdownAt)) =
      rounds.map (quietRound console.tally shutdownAt) := by
  induction rounds generalizing n with
  | nil => rfl
  | cons i rounds ih =>
    rw [List.map_cons, List.map_cons, roundsFrom, ih, round, reading_quiet, reading_quiet]
    rfl

theorem reports_quiet (settings : MonitorSettings) (console : Console) (shutdownAt : Option Nat) :
    (quiet console).reports settings 0 0
        ((List.range (quietRounds settings shutdownAt)).map (quietCheck shutdownAt)) =
      quietRun settings console.tally shutdownAt := by
  rw [reports, roundsFrom_quiet, reading_quiet]
  rfl

end Traffic
end UdpGate
