import Mathlib
import UdpGate.Proofs.WordPairs

/-!
# What the reports of a run account for

A report measures growth from the reading behind the report before it.  So what a counter gains
between the reading that a report shows and the one behind it is in no growth at all, and nothing is
in two of them: the growth of all reports falls short of the growth of the counter by just that
(`Traffic.growth_of_reports`).  Nothing is said here of pairs of words that are torn; what these show
is the matter of `Traffic.readPair?_bounds`.
-/

namespace UdpGate
namespace Traffic

/-! ## 1. Values and readings -/

def counted (traffic : Traffic) (counter : Counter) (first steps : Nat) : Nat :=
  ((List.range' first steps).map fun moment => counter.total (traffic.packets moment)).sum

/-- The high word of a counter stays as it is while a reading takes the counter. -/
def Whole (traffic : Traffic) (counter : Counter) (n : Nat) : Prop :=
  highWord (traffic.value counter (lowMoment n counter)) =
    highWord (traffic.value counter (lowMoment n counter + 1))

instance (traffic : Traffic) (counter : Counter) (n : Nat) :
    Decidable (traffic.Whole counter n) :=
  inferInstanceAs (Decidable (_ = _))

variable {traffic : Traffic} {counter : Counter}

theorem counted_add (traffic : Traffic) (counter : Counter) (first a b : Nat) :
    traffic.counted counter first (a + b) =
      traffic.counted counter first a + traffic.counted counter (first + a) b := by
  unfold counted
  rw [← List.range'_append_1, List.map_append, List.sum_append]

theorem counted_succ (traffic : Traffic) (counter : Counter) (first steps : Nat) :
    traffic.counted counter first (steps + 1) =
      traffic.counted counter first steps + counter.total (traffic.packets (first + steps)) := by
  rw [counted_add]
  unfold counted
  rw [List.range'_one, List.map_singleton, List.sum_singleton]

theorem toNat_value_add {first steps : Nat}
    (steady : (traffic.value counter first).toNat + traffic.counted counter first steps <
      UInt64.size) :
    (traffic.value counter (first + steps)).toNat =
      (traffic.value counter first).toNat + traffic.counted counter first steps := by
  induction steps with
  | zero => rfl
  | succ steps ih =>
    rw [counted_succ] at steady ⊢
    have before := ih (by omega)
    rw [← Nat.add_assoc first, toNat_value_succ (by omega), before, Nat.add_assoc]

theorem toNat_value_of_le {moment final : Nat} (le : moment ≤ final)
    (steady : (traffic.value counter 0).toNat + traffic.counted counter 0 final < UInt64.size) :
    (traffic.value counter moment).toNat =
      (traffic.value counter 0).toNat + traffic.counted counter 0 moment := by
  obtain ⟨more, rfl⟩ := Nat.exists_eq_add_of_le le
  rw [counted_add] at steady
  have value : (traffic.value counter (0 + moment)).toNat = _ := toNat_value_add (by omega)
  rwa [Nat.zero_add] at value

theorem toNat_value_mono {earlier later final : Nat} (le : earlier ≤ later) (inside : later ≤ final)
    (steady : (traffic.value counter 0).toNat + traffic.counted counter 0 final < UInt64.size) :
    (traffic.value counter earlier).toNat ≤ (traffic.value counter later).toNat := by
  obtain ⟨more, rfl⟩ := Nat.exists_eq_add_of_le le
  have split := counted_add traffic counter 0 earlier more
  rw [toNat_value_of_le inside steady, toNat_value_of_le (Nat.le_trans le inside) steady]
  omega

-- From a reading of a counter to the next one the counter gains what is counted meanwhile.
theorem toNat_value_lowMoment_succ {n final : Nat} (behind : 8 * (n + 2) ≤ final)
    (steady : (traffic.value counter 0).toNat + traffic.counted counter 0 final < UInt64.size) :
    (traffic.value counter (lowMoment (n + 1) counter)).toNat =
      (traffic.value counter (lowMoment n counter)).toNat +
        traffic.counted counter (lowMoment n counter) 8 := by
  have inside := lowMoment_lt n counter
  have split := counted_add traffic counter 0 (lowMoment n counter) 8
  rw [Nat.zero_add] at split
  have low_le : lowMoment n counter ≤ final := by omega
  have next_le : lowMoment n counter + 8 ≤ final := by omega
  rw [lowMoment_succ, toNat_value_of_le next_le steady, toNat_value_of_le low_le steady]
  omega

-- A pair of words that is not torn shows the value at its low word.
theorem Whole.read_reading {n : Nat} (h : traffic.Whole counter n) :
    counter.read (traffic.reading n) = traffic.value counter (lowMoment n counter) := by
  rw [Traffic.read_reading, counterFrom, Console.read_low, Console.read_high]
  show joinWords (lowWord (traffic.value counter _)) (highWord (traffic.value counter _)) = _
  rw [← h, joinWords_lowWord_highWord]

/-! ## 2. The readings of the reports -/

/-- From which reading to which one the reports measure that show these readings. -/
def spans (base : Nat) : List Nat → List (Nat × Nat)
  | [] => []
  | n :: shown => (base, n) :: spans (n + 1) shown

/-- The readings that a monitor's reports show in rounds of which the first one has reading `n` for
its report.  A round whose report is not due shows nothing. -/
def shownFrom (traffic : Traffic) (monitor : Monitor) (n : Nat) : List RoundCheck → List Nat
  | [] => []
  | check :: checks =>
    if monitor.ends (traffic.round n check) then []
    else if monitor.reportIsDue (traffic.round n check) then
      n :: traffic.shownFrom (monitor.afterReport (traffic.round n check)) (n + 2) checks
    else traffic.shownFrom monitor (n + 2) checks

def shown (traffic : Traffic) (settings : MonitorSettings) (startedAt lastReportAt : Nat)
    (checks : List RoundCheck) : List Nat :=
  traffic.shownFrom ⟨settings, startedAt, lastReportAt, traffic.reading 0⟩ 1 checks

-- By induction on the rounds: a round that reports shows its own reading, measured from the base,
-- and its second reading is the next base.
theorem run_roundsFrom (traffic : Traffic) (monitor : Monitor) (base n : Nat)
    (from_base : monitor.baseline = traffic.reading base) (checks : List RoundCheck) :
    (monitor.run (traffic.roundsFrom n checks)).1.map (fun r => (r.baseline.tally, r.now)) =
      (spans base (traffic.shownFrom monitor n checks)).map
        (Prod.map traffic.reading traffic.reading) := by
  induction checks generalizing monitor base n with
  | nil => rfl
  | cons check checks ih =>
    rw [roundsFrom, Monitor.run, shownFrom]
    by_cases ends : monitor.ends (traffic.round n check)
    · rw [if_pos ends, if_pos ends]
      rfl
    · rw [if_neg ends, if_neg ends]
      by_cases due : monitor.reportIsDue (traffic.round n check)
      · rw [if_pos due, if_pos due, List.map_cons, spans, List.map_cons,
          ih (monitor.afterReport (traffic.round n check)) (n + 1) (n + 2) rfl]
        congr 1
        exact congrArg (·, traffic.reading n) from_base
      · rw [if_neg due, if_neg due]
        exact ih monitor base (n + 2) from_base

theorem shownFrom_sublist (traffic : Traffic) (monitor : Monitor) (n : Nat)
    (checks : List RoundCheck) :
    (traffic.shownFrom monitor n checks).Sublist (List.range' n checks.length 2) := by
  induction checks generalizing monitor n with
  | nil => exact List.Sublist.refl _
  | cons check checks ih =>
    rw [shownFrom, List.length_cons, List.range'_succ]
    split
    · exact List.nil_sublist _
    · split
      · exact (ih _ (n + 2)).cons_cons n
      · exact (ih _ (n + 2)).cons n

theorem reports_spans (traffic : Traffic) (settings : MonitorSettings)
    (startedAt lastReportAt : Nat) (checks : List RoundCheck) :
    (traffic.reports settings startedAt lastReportAt checks).map
        (fun r => (r.baseline.tally, r.now)) =
      (spans 0 (traffic.shown settings startedAt lastReportAt checks)).map
        (Prod.map traffic.reading traffic.reading) :=
  run_roundsFrom traffic _ 0 1 rfl checks

theorem map_snd_spans (base : Nat) (shown : List Nat) : (spans base shown).map Prod.snd = shown := by
  induction shown generalizing base with
  | nil => rfl
  | cons n shown ih => rw [spans, List.map_cons, ih]

theorem le_of_mem_spans {base : Nat} {shown : List Nat} (ascending : shown.Pairwise (· < ·))
    (above : ∀ n ∈ shown, base ≤ n) : ∀ span ∈ spans base shown, span.1 ≤ span.2 := by
  induction shown generalizing base with
  | nil => simp [spans]
  | cons n shown ih =>
    obtain ⟨later, ascending⟩ := List.pairwise_cons.mp ascending
    refine List.forall_mem_cons.mpr ⟨above n List.mem_cons_self, ?_⟩
    exact ih ascending later

-- By induction on the readings shown.  A span ends where its report reads; from there to the base of
-- the next one the value gains what no report has.
theorem value_add_sum_spans {value gain : Nat → Nat} {bound : Nat}
    (step : ∀ n < bound, value (n + 1) = value n + gain n) (base : Nat) (shown : List Nat)
    (in_order : ∀ span ∈ spans base shown, span.1 ≤ span.2) (inside : ∀ n ∈ shown, n < bound) :
    value base + ((spans base shown).map fun span => value span.2 - value span.1).sum +
        (shown.dropLast.map gain).sum =
      value (shown.getLast?.getD base) := by
  have rises {a b : Nat} (le : a ≤ b) (within : b ≤ bound) : value a ≤ value b := by
    induction b, le using Nat.le_induction with
    | base => exact Nat.le_refl _
    | succ b le ih =>
      have := ih (by omega)
      rw [step b (by omega)]
      omega
  induction shown generalizing base with
  | nil => rfl
  | cons n shown ih =>
    have here : value base ≤ value n :=
      rises (in_order (base, n) List.mem_cons_self) (Nat.le_of_lt (inside n List.mem_cons_self))
    cases shown with
    | nil =>
      show value base + (value n - value base + 0) + 0 = value n
      omega
    | cons m shown =>
      have rest := ih (n + 1) (fun span mem => in_order span (List.mem_cons_of_mem _ mem))
        (fun k mem => inside k (List.mem_cons_of_mem _ mem))
      rw [step n (inside n List.mem_cons_self)] at rest
      rw [spans, List.map_cons, List.sum_cons, List.dropLast_cons_cons, List.map_cons, List.sum_cons,
        List.getLast?_cons_cons]
      have same : ((m :: shown).getLast?.getD base) = ((m :: shown).getLast?.getD (n + 1)) := by
        rw [List.getLast?_eq_some_getLast (List.cons_ne_nil m shown)]
        rfl
      rw [same]
      dsimp only
      omega

/-! ## 3. What is accounted for -/

theorem toNat_read_since (counter : Counter) (now earlier : Tally) :
    (counter.read (now.since earlier)).toNat =
      (counter.read now).toNat - (counter.read earlier).toNat := by
  cases counter <;> exact Tally.toNat_growth _ _

def growthOf (counter : Counter) (reports : List LiveReport) : Nat :=
  (reports.map fun report => (counter.read report.growth).toNat).sum

/-- What the last of the reports shows; the first reading of the run if there is none. -/
def lastShown (traffic : Traffic) (reports : List LiveReport) : Tally :=
  (reports.getLast?.map LiveReport.now).getD (traffic.reading 0)

def since (traffic : Traffic) (counter : Counter) (moment : Nat) (shown : Tally) : Nat :=
  (traffic.value counter moment).toNat - (counter.read shown).toNat

/-- By how much a counter is raised between the readings that reports show and the readings behind
them.  No report comes behind the last one, so what is raised there is not missed. -/
def missed (traffic : Traffic) (counter : Counter) (shown : List Nat) : Nat :=
  (shown.dropLast.map fun n => traffic.counted counter (lowMoment n counter) 8).sum

theorem growthOf_eq {reports : List LiveReport} {pairs : List (Nat × Nat)}
    (h : reports.map (fun r => (r.baseline.tally, r.now)) =
      pairs.map (Prod.map traffic.reading traffic.reading))
    (whole : ∀ pair ∈ pairs, traffic.Whole counter pair.1 ∧ traffic.Whole counter pair.2) :
    growthOf counter reports =
      (pairs.map fun pair => (traffic.value counter (lowMoment pair.2 counter)).toNat -
        (traffic.value counter (lowMoment pair.1 counter)).toNat).sum := by
  have growths := congrArg
    (List.map fun p => (counter.read p.2).toNat - (counter.read p.1).toNat) h
  rw [List.map_map, List.map_map] at growths
  have reported : reports.map (fun report => (counter.read report.growth).toNat) =
      pairs.map fun pair => (traffic.value counter (lowMoment pair.2 counter)).toNat -
        (traffic.value counter (lowMoment pair.1 counter)).toNat := by
    refine Eq.trans ?_ (growths.trans ?_)
    · apply List.map_congr_left
      intro report _
      exact toNat_read_since counter report.now report.baseline.tally
    · apply List.map_congr_left
      intro pair mem
      obtain ⟨low, high⟩ := whole pair mem
      show (counter.read (traffic.reading pair.2)).toNat -
        (counter.read (traffic.reading pair.1)).toNat = _
      rw [low.read_reading, high.read_reading]
  unfold growthOf
  rw [reported]

theorem lastShown_eq {reports : List LiveReport} {shown : List Nat}
    (h : reports.map (fun r => (r.baseline.tally, r.now)) =
      (spans 0 shown).map (Prod.map traffic.reading traffic.reading)) :
    traffic.lastShown reports = traffic.reading (shown.getLast?.getD 0) := by
  have nows := congrArg (List.map Prod.snd) h
  rw [List.map_map, List.map_map] at nows
  have same : reports.map LiveReport.now = shown.map traffic.reading := by
    refine nows.trans ?_
    rw [← map_snd_spans 0 shown, List.map_map, map_snd_spans]
    rfl
  unfold lastShown
  rw [← List.getLast?_map, same, List.getLast?_map]
  cases shown.getLast? <;> rfl

section Run

variable {reports : List LiveReport} {shown : List Nat} {rounds final : Nat}

theorem lt_of_mem_shown (among : shown.Sublist (List.range' 1 rounds 2)) :
    ∀ n ∈ shown, n < 2 * rounds := by
  intro n mem
  have := List.mem_range'.mp (among.subset mem)
  omega

theorem getLast_shown_le (among : shown.Sublist (List.range' 1 rounds 2)) :
    shown.getLast?.getD 0 ≤ 2 * rounds := by
  cases last : shown.getLast? with
  | none => exact Nat.zero_le _
  | some n => exact Nat.le_of_lt (lt_of_mem_shown among n (List.mem_of_getLast? last))

theorem whole_getLast_shown (first : traffic.Whole counter 0)
    (whole : ∀ span ∈ spans 0 shown, traffic.Whole counter span.1 ∧ traffic.Whole counter span.2) :
    traffic.Whole counter (shown.getLast?.getD 0) := by
  cases last : shown.getLast? with
  | none => exact first
  | some n =>
    have mem := List.mem_of_getLast? last
    rw [← map_snd_spans 0 shown] at mem
    obtain ⟨span, among, rfl⟩ := List.mem_map.mp mem
    exact (whole span among).2

-- From the first reading to what the last report shows, a gain is in a report's growth or missed.
theorem shown_add_growth (among : shown.Sublist (List.range' 1 rounds 2))
    (pairs : reports.map (fun r => (r.baseline.tally, r.now)) =
      (spans 0 shown).map (Prod.map traffic.reading traffic.reading))
    (behind : 8 * (2 * rounds + 1) ≤ final)
    (steady : (traffic.value counter 0).toNat + traffic.counted counter 0 final < UInt64.size)
    (first : traffic.Whole counter 0)
    (whole : ∀ span ∈ spans 0 shown, traffic.Whole counter span.1 ∧ traffic.Whole counter span.2) :
    (counter.read (traffic.reading 0)).toNat + growthOf counter reports +
        traffic.missed counter shown =
      (counter.read (traffic.lastShown reports)).toNat := by
  have inside := lt_of_mem_shown among
  have in_order : ∀ span ∈ spans 0 shown, span.1 ≤ span.2 :=
    le_of_mem_spans ((List.pairwise_lt_range' 2).sublist among) (by simp)
  have covered := @value_add_sum_spans
    (fun n => (traffic.value counter (lowMoment n counter)).toNat)
    (fun n => traffic.counted counter (lowMoment n counter) 8) (2 * rounds)
    (fun n lt => toNat_value_lowMoment_succ (by omega) steady) 0 shown in_order inside
  rw [lastShown_eq pairs, (whole_getLast_shown first whole).read_reading, first.read_reading,
    growthOf_eq pairs whole]
  exact covered

end Run

/-- **The growth of reports.**  Packets are counted at any moments of a run, the counter does not
wrap, and no pair of words is torn that a report shows or measures from.  The growth that the reports
measure, with what came behind the last one, falls short of the growth of the counter since the first
reading by just what was counted between the reading that a report shows and the one behind it, the
last report apart. -/
theorem growth_of_reports (traffic : Traffic) (settings : MonitorSettings)
    (startedAt lastReportAt : Nat) (checks : List RoundCheck) (counter : Counter) (final : Nat)
    (behind : 8 * (2 * checks.length + 1) ≤ final)
    (steady : (traffic.value counter 0).toNat + traffic.counted counter 0 final < UInt64.size)
    (first : traffic.Whole counter 0)
    (whole : ∀ span ∈ spans 0 (traffic.shown settings startedAt lastReportAt checks),
      traffic.Whole counter span.1 ∧ traffic.Whole counter span.2) :
    ∃ (reports : List LiveReport) (shown : List Nat),
      traffic.reports settings startedAt lastReportAt checks = reports ∧
      traffic.shown settings startedAt lastReportAt checks = shown ∧
      shown.Sublist (List.range' 1 checks.length 2) ∧
      reports.map (fun r => (r.baseline.tally, r.now)) =
        (spans 0 shown).map (Prod.map traffic.reading traffic.reading) ∧
      counter.read (traffic.reading 0) ≤ counter.read (traffic.lastShown reports) ∧
      counter.read (traffic.lastShown reports) ≤ traffic.value counter final ∧
      growthOf counter reports + traffic.missed counter shown +
          traffic.since counter final (traffic.lastShown reports) =
        traffic.since counter final (traffic.reading 0) ∧
      (growthOf counter reports + traffic.since counter final (traffic.lastShown reports) =
          traffic.since counter final (traffic.reading 0) ↔
        ∀ n ∈ shown.dropLast, traffic.counted counter (lowMoment n counter) 8 = 0) := by
  have pairs := traffic.reports_spans settings startedAt lastReportAt checks
  have among := traffic.shownFrom_sublist ⟨settings, startedAt, lastReportAt, traffic.reading 0⟩ 1 checks
  change (traffic.shown settings startedAt lastReportAt checks).Sublist _ at among
  generalize traffic.shown settings startedAt lastReportAt checks = shown at *
  have covered := shown_add_growth among pairs behind steady first whole
  have low_lt := lowMoment_lt (shown.getLast?.getD 0) counter
  have last_le := getLast_shown_le among
  have latest : (traffic.value counter (lowMoment (shown.getLast?.getD 0) counter)).toNat ≤
      (traffic.value counter final).toNat :=
    toNat_value_mono (by omega) (Nat.le_refl final) steady
  rw [← (whole_getLast_shown first whole).read_reading, ← lastShown_eq pairs] at latest
  have none_missed : traffic.missed counter shown = 0 ↔
      ∀ n ∈ shown.dropLast, traffic.counted counter (lowMoment n counter) 8 = 0 := by
    rw [missed, List.sum_eq_zero_iff, List.forall_mem_map]
  refine ⟨_, shown, rfl, rfl, among, pairs, ?_, UInt64.le_iff_toNat_le.mpr latest, ?_, ?_⟩
  · rw [UInt64.le_iff_toNat_le]
    omega
  · unfold since
    omega
  · rw [← none_missed]
    unfold since
    omega

-- One packet is counted behind the reading of the first report, another behind the base of the
-- second one.
def betweenTraffic : Traffic where
  console := {}
  packets moment := if moment = 12 ∨ moment = 20 then [⟨1, true⟩] else []

def twoReports : List RoundCheck :=
  [{ shutdown := false, durationCheck := 1, intervalCheck := 1, reportEnd := 2 },
    { shutdown := false, durationCheck := 3, intervalCheck := 3, reportEnd := 4 }]

theorem growth_of_reports_between :
    8 * (2 * twoReports.length + 1) ≤ 40 ∧
      (betweenTraffic.value .packetsIn 0).toNat + betweenTraffic.counted .packetsIn 0 40 <
        UInt64.size ∧
      betweenTraffic.Whole .packetsIn 0 ∧
      (∀ span ∈ spans 0 (betweenTraffic.shown ⟨0, 1⟩ 0 0 twoReports),
        betweenTraffic.Whole .packetsIn span.1 ∧ betweenTraffic.Whole .packetsIn span.2) ∧
      ∃ (reports : List LiveReport) (shown : List Nat),
        betweenTraffic.reports ⟨0, 1⟩ 0 0 twoReports = reports ∧ shown = [1, 3] ∧
        growthOf .packetsIn reports = 1 ∧
        betweenTraffic.since .packetsIn 40 (betweenTraffic.lastShown reports) = 0 ∧
        betweenTraffic.since .packetsIn 40 (betweenTraffic.reading 0) = 2 ∧
        betweenTraffic.missed .packetsIn shown = 1 := by
  have behind : 8 * (2 * twoReports.length + 1) ≤ 40 := by decide
  have steady : (betweenTraffic.value .packetsIn 0).toNat +
      betweenTraffic.counted .packetsIn 0 40 < UInt64.size := by decide
  have first_whole : betweenTraffic.Whole .packetsIn 0 := by decide
  have whole : ∀ span ∈ spans 0 (betweenTraffic.shown ⟨0, 1⟩ 0 0 twoReports),
      betweenTraffic.Whole .packetsIn span.1 ∧ betweenTraffic.Whole .packetsIn span.2 := by decide
  obtain ⟨reports, shown, run, readings, -, -, -, -, account, -⟩ :=
    growth_of_reports betweenTraffic ⟨0, 1⟩ 0 0 twoReports .packetsIn 40 behind steady first_whole
      whole
  subst run
  have two : shown = [1, 3] := readings.symm.trans (by decide)
  have grown : growthOf .packetsIn (betweenTraffic.reports ⟨0, 1⟩ 0 0 twoReports) = 1 := by decide
  have last : betweenTraffic.since .packetsIn 40
      (betweenTraffic.lastShown (betweenTraffic.reports ⟨0, 1⟩ 0 0 twoReports)) = 0 := by decide
  have first : betweenTraffic.since .packetsIn 40 (betweenTraffic.reading 0) = 2 := by decide
  exact ⟨behind, steady, first_whole, whole, _, shown, rfl, two, grown, last, first, by omega⟩

theorem growth_not_accounted_for :
    ¬ ∀ (traffic : Traffic) (settings : MonitorSettings) (startedAt lastReportAt : Nat)
      (checks : List RoundCheck) (counter : Counter) (final : Nat),
      8 * (2 * checks.length + 1) ≤ final →
      (traffic.value counter 0).toNat + traffic.counted counter 0 final < UInt64.size →
      growthOf counter (traffic.reports settings startedAt lastReportAt checks) +
          traffic.since counter final
            (traffic.lastShown (traffic.reports settings startedAt lastReportAt checks)) =
        traffic.since counter final (traffic.reading 0) := by
  intro accounted
  have total := accounted betweenTraffic ⟨0, 1⟩ 0 0 twoReports .packetsIn 40 (by decide) (by decide)
  exact absurd total (by decide)

end Traffic
end UdpGate
