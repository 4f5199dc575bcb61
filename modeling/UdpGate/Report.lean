import UdpGate.Report.Rate
import UdpGate.Text.Pad

/-!
# Reports

A report is a small table of the counters: their totals and, if an earlier reading is given, their
growth per second since then.
-/

namespace UdpGate

structure Baseline where
  tally : Tally
  elapsed : Span
deriving DecidableEq

namespace Report

def ruler (c : Char) : String := String.ofList (List.replicate 60 c)

def row (name total rate : String) : String :=
  Text.padRight 20 name ++ " | " ++ Text.padLeft 16 total ++ " | " ++ Text.padLeft 16 rate

/-- The rate of a counter; a dash without an earlier reading. -/
def rateOf (counter : Counter) (now : Tally) (baseline : Option Baseline) : String :=
  match baseline with
  | some baseline => rateText (counter.read (now.since baseline.tally)) baseline.elapsed
  | none => "-"

def lines (clock title : String) (now : Tally) (baseline : Option Baseline) : List String :=
  ["", "[" ++ clock ++ "] " ++ title, ruler '-', row "Counter" "Total" "Rate (/s)", ruler '-']
    ++ Counter.all.map (fun counter =>
      row counter.name (Text.decimal (counter.read now).toNat) (rateOf counter now baseline))
    ++ [ruler '=']

def text (clock title : String) (now : Tally) (baseline : Option Baseline) : String :=
  String.join ((lines clock title now baseline).map (· ++ "\n"))

end Report
end UdpGate
