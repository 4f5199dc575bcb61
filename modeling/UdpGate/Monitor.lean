import UdpGate.Console
import UdpGate.Report

/-!
# The monitor

While the workers run, the monitor looks every 50 ms whether the run is to end, and writes a report
whenever the report interval has passed since the last one.  A round of the monitor makes its
observations one after the other; packets may be counted between any two of them, so each
observation is given its own moment.
-/

namespace UdpGate

/-- When a run ends and when it reports, in nanoseconds; zero stands for never. -/
structure MonitorSettings where
  duration : Nat
  interval : Nat
deriving DecidableEq

/-- What the monitor would see at each of the observations of a round.  Moments are nanoseconds on
one clock. -/
structure Round where
  shutdown : Bool
  durationCheck : Nat
  intervalCheck : Nat
  reported : Tally
  /-- What is read behind a report, for the rates of the next one. -/
  reread : Tally
  reportEnd : Nat
deriving DecidableEq

structure Monitor where
  settings : MonitorSettings
  startedAt : Nat
  lastReportAt : Nat
  /-- The reading from which the next report measures growth. -/
  baseline : Tally
deriving DecidableEq

structure LiveReport where
  now : Tally
  baseline : Baseline
deriving DecidableEq

def LiveReport.growth (report : LiveReport) : Tally := report.now.since report.baseline.tally

def LiveReport.text (clock : String) (report : LiveReport) : String :=
  Report.text clock "Live statistics" report.now (some report.baseline)

namespace Monitor

def ends (monitor : Monitor) (round : Round) : Bool :=
  round.shutdown
    || (monitor.settings.duration ≠ 0
      && monitor.settings.duration ≤ round.durationCheck - monitor.startedAt)

def reportIsDue (monitor : Monitor) (round : Round) : Bool :=
  monitor.settings.interval ≠ 0
    && monitor.settings.interval ≤ round.intervalCheck - monitor.lastReportAt

def report (monitor : Monitor) (round : Round) : LiveReport where
  now := round.reported
  baseline :=
    { tally := monitor.baseline
      elapsed := Span.ofNanoseconds (round.intervalCheck - monitor.lastReportAt) }

def afterReport (monitor : Monitor) (round : Round) : Monitor :=
  { monitor with baseline := round.reread, lastReportAt := round.reportEnd }

def run (monitor : Monitor) : List Round → List LiveReport × Monitor
  | [] => ([], monitor)
  | round :: rounds =>
    if monitor.ends round then ([], monitor)
    else if monitor.reportIsDue round then
      let (reports, after) := (monitor.afterReport round).run rounds
      (monitor.report round :: reports, after)
    else monitor.run rounds

end Monitor

/-! ## A run in which nothing is counted -/

def roundTime : Nat := 50 * Nat.pow 10 6

def observationTime : Nat := 2000

/-- Round `i` of a run that began at moment zero and counts nothing.  A shutdown is seen from the
given moment on. -/
def quietRound (tally : Tally) (shutdownAt : Option Nat) (i : Nat) : Round :=
  let now := i * roundTime + observationTime
  { shutdown := shutdownAt.any (· ≤ now)
    durationCheck := now
    intervalCheck := now
    reported := tally
    reread := tally
    reportEnd := now }

/-- How many rounds a quiet run may take before it has to end. -/
def quietRounds (settings : MonitorSettings) (shutdownAt : Option Nat) : Nat :=
  let stops := shutdownAt.toList ++ if settings.duration = 0 then [] else [settings.duration]
  stops.min?.elim 0 (· / roundTime + 2)

def quietRun (settings : MonitorSettings) (tally : Tally) (shutdownAt : Option Nat) :
    List LiveReport :=
  let monitor : Monitor :=
    { settings := settings, startedAt := 0, lastReportAt := 0, baseline := tally }
  (monitor.run ((List.range (quietRounds settings shutdownAt)).map
    (quietRound tally shutdownAt))).1

end UdpGate
