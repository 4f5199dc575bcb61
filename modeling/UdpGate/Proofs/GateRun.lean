import UdpGate.Proofs.AssemblyRun

/-!
# What a gate says about a stream

A stream of chunks is cut into packets behind each chunk that is marked as last.  The gate withholds
a packet up to its decision chunk; from there on it forwards all of it or nothing, by the key that
the packet's own bytes name and the table as it stood when the decision chunk came.  `Gate.Tracks`
is the invariant that one chunk keeps (`Tracks.classify`), and `Lane.run_of_tracks` what it comes to
over a whole run in which rules are written between any two chunks.
-/

namespace UdpGate

/-! ## 1. The packets of a stream -/

/-- A chunk and the table as it stands when the chunk comes. -/
structure Arrival where
  chunk : Chunk
  table : RuleTable

/-- The packets of a stream, cut behind each last chunk.  The final packet may be unfinished. -/
def packets : List Arrival → List (List Arrival)
  | [] => []
  | arrival :: rest =>
    if arrival.chunk.last then [arrival] :: packets rest
    else
      match packets rest with
      | [] => [[arrival]]
      | packet :: more => (arrival :: packet) :: more

theorem packets_append_last {begun : List Arrival} (h : ∀ a ∈ begun, a.chunk.last = false)
    {arrival : Arrival} (last : arrival.chunk.last = true) (rest : List Arrival) :
    packets (begun ++ arrival :: rest) = (begun ++ [arrival]) :: packets rest := by
  induction begun with
  | nil => rw [List.nil_append, packets, if_pos last, List.nil_append]
  | cons first more ih =>
    rw [List.cons_append, packets, if_neg (by simp [h first List.mem_cons_self]),
      ih fun a ha => h a (List.mem_cons_of_mem first ha)]
    rfl

theorem packets_of_unfinished {begun : List Arrival} (h : ∀ a ∈ begun, a.chunk.last = false)
    (some_begun : begun ≠ []) : packets begun = [begun] := by
  induction begun with
  | nil => exact absurd rfl some_begun
  | cons first more ih =>
    rw [packets, if_neg (by simp [h first List.mem_cons_self])]
    by_cases ends : more = []
    · rw [ends]; rfl
    · rw [ih (fun a ha => h a (List.mem_cons_of_mem first ha)) ends]

theorem flatten_packets (stream : List Arrival) : (packets stream).flatten = stream := by
  induction stream with
  | nil => rfl
  | cons first rest ih =>
    rw [packets]
    split
    · rw [List.flatten_cons, ih, List.singleton_append]
    · split
      · rename_i none_left
        rw [none_left] at ih
        rw [← ih]; rfl
      · rename_i packet more cut
        rw [cut] at ih
        rw [List.flatten_cons, List.cons_append, ← List.flatten_cons, ih]

theorem length_le_of_mem_packets {stream packet : List Arrival} (h : packet ∈ packets stream) :
    packet.length ≤ stream.length := by
  have part := (List.sublist_flatten_of_mem h).length_le
  rwa [flatten_packets] at part

/-! ## 2. The verdicts on a packet -/

/-- Indexes count up to the greatest one and stay there. -/
def Verdict.saturated (verdict : Verdict) : Verdict :=
  { verdict with index := min verdict.index maxIndex }

namespace GateSettings

def view (settings : GateSettings) (packet : List Arrival) : Nat → Option UInt8 :=
  packetByte? settings.width (packet.map Arrival.chunk)

/-- The packet is let through: the table that its decision chunk met forwards the key that the
packet names. -/
def Admits (settings : GateSettings) (packet : List Arrival) : Prop :=
  ∃ decision ∈ packet[settings.width.decisionChunk]?,
    ∃ key ∈ namedKey? (settings.view packet) settings.endpoint,
      decision.table.lookup key = .forward

instance (settings : GateSettings) (packet : List Arrival) : Decidable (settings.Admits packet) :=
  inferInstanceAs (Decidable (∃ decision ∈ packet[settings.width.decisionChunk]?,
    ∃ key ∈ namedKey? (settings.view packet) settings.endpoint,
      decision.table.lookup key = .forward))

/-- The verdicts on the chunks of a packet: each has its place as its index, and from the decision
chunk on the packet passes if it is admitted. -/
def verdicts (settings : GateSettings) (packet : List Arrival) : List Verdict :=
  packet.mapIdx fun i arrival =>
    { index := i
      forwarded := decide (settings.width.decisionChunk ≤ i ∧ settings.Admits packet)
      last := arrival.chunk.last }

theorem index_lt_of_mem_verdicts {settings : GateSettings} {packet : List Arrival}
    {verdict : Verdict} (h : verdict ∈ settings.verdicts packet) : verdict.index < packet.length := by
  obtain ⟨i, inside, rfl⟩ := List.mem_mapIdx.mp h
  exact inside

def decision? (settings : GateSettings) (packet : List Arrival) : Option Action :=
  packet[settings.width.decisionChunk]?.map fun decision =>
    ((namedKey? (settings.view packet) settings.endpoint).map decision.table.lookup).getD .drop

variable {settings : GateSettings} {packet : List Arrival}

theorem admits_iff : settings.Admits packet ↔ settings.decision? packet = some .forward := by
  unfold Admits decision?
  cases packet[settings.width.decisionChunk]? with
  | none => simp
  | some decision =>
    cases namedKey? (settings.view packet) settings.endpoint with
    | none => simp
    | some key => simp

theorem decision?_eq_none_iff :
    settings.decision? packet = none ↔ packet.length ≤ settings.width.decisionChunk := by
  rw [decision?, Option.map_eq_none_iff, List.getElem?_eq_none_iff]

-- Once the decision chunk has come, what is behind it changes neither the key nor the table.
theorem decision?_append (h : settings.width.decisionChunk < packet.length) (rest : List Arrival) :
    settings.decision? (packet ++ rest) = settings.decision? packet := by
  have named : namedKey? (settings.view (packet ++ rest)) settings.endpoint =
      namedKey? (settings.view packet) settings.endpoint := by
    apply namedKey?_congr
    intro position inside
    rw [view, view, List.map_append]
    apply packetByte?_append_of_lt
    rw [List.length_map]
    exact Nat.lt_of_le_of_lt (Nat.div_le_div_right (Nat.le_sub_one_of_lt inside)) h
  rw [decision?, decision?, List.getElem?_append_left h, named]

-- The verdict on a chunk does not depend on the chunks behind it.
theorem verdicts_append (packet : List Arrival) (arrival : Arrival) :
    settings.verdicts (packet ++ [arrival]) =
      settings.verdicts packet ++
        [{ index := packet.length
           forwarded := decide (settings.decision? (packet ++ [arrival]) = some .forward)
           last := arrival.chunk.last }] := by
  rw [verdicts, verdicts, List.mapIdx_concat]
  congr 1
  · apply List.mapIdx_eq_mapIdx_iff.mpr
    intro i inside
    congr 2
    rw [eq_iff_iff]
    apply and_congr_right
    intro reached
    rw [admits_iff, admits_iff, decision?_append (Nat.lt_of_le_of_lt reached inside)]
  · have here : settings.decision? (packet ++ [arrival]) = some .forward →
        settings.width.decisionChunk ≤ packet.length := by
      intro decided
      apply Nat.le_of_not_lt
      intro before
      have none_yet : settings.decision? (packet ++ [arrival]) = none :=
        decision?_eq_none_iff.mpr (by rw [List.length_append]; exact before)
      rw [none_yet] at decided
      cases decided
    simp only [admits_iff, and_iff_right_of_imp here]

end GateSettings

/-! ## 3. One chunk -/

namespace Gate

/-- The gate is inside a packet of which these chunks have come; before the first one if there are
none. -/
structure Tracks (gate : Gate) (settings : GateSettings) (packet : List Arrival) : Prop where
  settings_eq : gate.settings = settings
  assembly : gate.assembly.Tracks settings.width (packet.map Arrival.chunk)
  phase_eq : gate.phase = (settings.decision? packet).elim .awaitingHeader .decided

theorem tracks_start (settings : GateSettings) : (start settings).Tracks settings [] where
  settings_eq := rfl
  assembly := Assembly.tracks_nil rfl
  phase_eq := rfl

@[simp] theorem settings_decideAt (gate : Gate) (table : RuleTable) (index : Nat) :
    (gate.decideAt table index).settings = gate.settings := by
  rw [decideAt, decide]
  split
  · split <;> rfl
  · rfl

@[simp] theorem assembly_decideAt (gate : Gate) (table : RuleTable) (index : Nat) :
    (gate.decideAt table index).assembly = gate.assembly := by
  rw [decideAt, decide]
  split
  · split <;> rfl
  · rfl

theorem phase_decide (gate : Gate) (table : RuleTable) :
    (gate.decide table).phase =
      .decided (((key? gate.settings gate.assembly.header).map table.lookup).getD .drop) := by
  rw [decide]
  split
  · rename_i h; rw [h]; rfl
  · rename_i h; rw [h]; rfl

theorem Tracks.phase_eq_awaitingHeader_iff {gate : Gate} {settings : GateSettings}
    {packet : List Arrival} (h : gate.Tracks settings packet) :
    gate.phase = .awaitingHeader ↔ packet.length ≤ settings.width.decisionChunk := by
  rw [h.phase_eq, ← GateSettings.decision?_eq_none_iff]
  cases settings.decision? packet <;> simp

theorem Tracks.header_consume {gate : Gate} {settings : GateSettings} {packet : List Arrival}
    (h : gate.Tracks settings packet) (table : RuleTable) (chunk : Chunk) :
    (gate.assembly.consume chunk).header =
      Header.ofView (settings.view (packet ++ [⟨chunk, table⟩])) := by
  rw [(h.assembly.consume chunk).1.header_eq, (h.assembly.consume chunk).2.width_eq,
    GateSettings.view, List.map_append]
  rfl

-- The gate decides with the decision chunk, neither before it nor again behind it.
theorem Tracks.decideAt_eq {gate : Gate} {settings : GateSettings} {packet : List Arrival}
    (h : gate.Tracks settings packet) (table : RuleTable) (chunk : Chunk) :
    { gate with assembly := gate.assembly.consume chunk }.decideAt table
        gate.assembly.incomingIndex =
      if settings.width.decisionChunk = packet.length then
        { gate with assembly := gate.assembly.consume chunk }.decide table
      else { gate with assembly := gate.assembly.consume chunk } := by
  have early : settings.width.decisionChunk ≤ headerLength - 1 := Nat.div_le_self _ _
  have now : gate.phase = .awaitingHeader ∧
      settings.width.decisionChunk ≤ gate.assembly.incomingIndex ↔
      settings.width.decisionChunk = packet.length := by
    rw [h.phase_eq_awaitingHeader_iff, h.assembly.incomingIndex_eq, List.length_map]
    unfold headerLength at early
    unfold maxIndex UInt64.size
    omega
  rw [decideAt]
  simp only [h.settings_eq, now]

-- Where the gate stands once a chunk has been taken over, before the end of the packet counts.
theorem Tracks.phase_decideAt {gate : Gate} {settings : GateSettings} {packet : List Arrival}
    (h : gate.Tracks settings packet) (table : RuleTable) (chunk : Chunk) :
    ({ gate with assembly := gate.assembly.consume chunk }.decideAt table
        gate.assembly.incomingIndex).phase =
      (settings.decision? (packet ++ [⟨chunk, table⟩])).elim .awaitingHeader .decided := by
  have header := h.header_consume table chunk
  rw [h.decideAt_eq]
  rcases Nat.lt_trichotomy settings.width.decisionChunk packet.length with before | now | later
  · -- An earlier chunk decided, and the phase stays as it is.
    rw [GateSettings.decision?_append before, if_neg (by omega)]
    exact h.phase_eq
  · -- This is the decision chunk: the header now holds all that the packet says about the key.
    rw [if_pos now, phase_decide]
    simp only [header, h.settings_eq, gate_key?_ofView, GateSettings.decision?]
    rw [now, List.getElem?_concat_length]
    rfl
  · -- The decision chunk is still to come.
    have undecided : settings.decision? packet = none :=
      GateSettings.decision?_eq_none_iff.mpr (Nat.le_of_lt later)
    have still : settings.decision? (packet ++ [⟨chunk, table⟩]) = none :=
      GateSettings.decision?_eq_none_iff.mpr (by rw [List.length_append]; exact later)
    have phase_eq := h.phase_eq
    rw [undecided] at phase_eq
    rw [if_neg (by omega), still]
    exact phase_eq

/-- **A step.**  The verdict is that of the specification, and the gate goes on with the packet or
waits for the next one. -/
theorem Tracks.classify {gate : Gate} {settings : GateSettings} {packet : List Arrival}
    (h : gate.Tracks settings packet) (table : RuleTable) (chunk : Chunk) :
    (gate.classify table chunk).1 =
        { index := min packet.length maxIndex
          forwarded := Decidable.decide
            (settings.decision? (packet ++ [⟨chunk, table⟩]) = some .forward)
          last := chunk.last } ∧
      (gate.classify table chunk).2.Tracks settings
        (if chunk.last then [] else packet ++ [⟨chunk, table⟩]) := by
  have phase := h.phase_decideAt table chunk
  have assembly := (h.assembly.consume chunk).2
  rw [Gate.classify]
  constructor
  · simp only [phase]
    rw [h.assembly.incomingIndex_eq, List.length_map]
    congr 1
    cases settings.decision? (packet ++ [⟨chunk, table⟩]) with
    | none => rfl
    | some action => cases action <;> rfl
  · cases last : chunk.last with
    | true =>
      rw [last] at assembly
      exact ⟨by simpa using h.settings_eq, by simpa using assembly, rfl⟩
    | false =>
      rw [last] at assembly
      exact ⟨by simpa using h.settings_eq, by simpa using assembly, by simpa using phase⟩

end Gate

/-! ## 4. A run -/

namespace Lane

def start (settings : GateSettings) (table : RuleTable) : Lane where
  gate := .start settings
  table := table

inductive Event where
  | chunk (chunk : Chunk)
  | rule (rule : Rule)

def run (lane : Lane) : List Event → List Verdict × Lane
  | [] => ([], lane)
  | .chunk chunk :: events =>
    let (verdict, after) := lane.classify chunk
    let (verdicts, last) := after.run events
    (verdict :: verdicts, last)
  | .rule rule :: events => (lane.insert rule).run events

/-- The chunks of a run, each with the table that the rules written before it have left. -/
def arrivals (table : RuleTable) : List Event → List Arrival
  | [] => []
  | .chunk chunk :: events => ⟨chunk, table⟩ :: arrivals table events
  | .rule rule :: events => arrivals (table.insert rule) events

/-- **A run.**  A lane inside a packet goes on with it; the verdicts already given are those on the
chunks that have come.  By induction on the events, with `Gate.Tracks` as the invariant. -/
theorem run_of_tracks {settings : GateSettings} (lane : Lane) (events : List Event)
    {begun : List Arrival} (h : lane.gate.Tracks settings begun)
    (unfinished : ∀ a ∈ begun, a.chunk.last = false) :
    (settings.verdicts begun).map .saturated ++ (lane.run events).1 =
      ((packets (begun ++ arrivals lane.table events)).flatMap settings.verdicts).map
        .saturated := by
  induction events generalizing lane begun with
  | nil =>
    simp only [run, arrivals, List.append_nil]
    by_cases empty : begun = []
    · rw [empty]; rfl
    · rw [packets_of_unfinished unfinished empty, List.flatMap_singleton]
  | cons event events ih =>
    cases event with
    | rule rule => exact ih (lane.insert rule) h unfinished
    | chunk chunk =>
      obtain ⟨verdict, tracks⟩ := h.classify lane.table chunk
      have passed : (settings.verdicts (begun ++ [⟨chunk, lane.table⟩])).map .saturated =
          (settings.verdicts begun).map .saturated ++ [(lane.classify chunk).1] := by
        rw [GateSettings.verdicts_append, List.map_append]
        exact congrArg ((settings.verdicts begun).map .saturated ++ [·]) verdict.symm
      cases last : chunk.last with
      | true =>
        -- The packet is finished: the rest of the stream begins with a new one.
        rw [last, if_pos rfl] at tracks
        have rest := ih (lane.classify chunk).2 tracks (by simp)
        rw [arrivals, packets_append_last unfinished last, List.flatMap_cons, List.map_append,
          passed, List.append_assoc]
        exact congrArg ((settings.verdicts begun).map .saturated ++ (lane.classify chunk).1 :: ·)
          rest
      | false =>
        rw [last, if_neg Bool.false_ne_true] at tracks
        have rest := ih (lane.classify chunk).2 tracks
          (by simpa [or_imp, forall_and, last] using unfinished)
        rw [passed, List.append_assoc, List.append_assoc] at rest
        exact rest

/-- **What a gate says about a stream.**  For every gate, table and run of fewer than 2 ^ 64 chunks,
with rules written between them in any way: each chunk gets its place in its packet as its index
and its own mark as the end of the packet, and it is forwarded exactly from the decision chunk on
and if the packet's own bytes show UDP over IPv4 and name a key that the table of the decision chunk
forwards. -/
theorem run_start_verdicts (settings : GateSettings) (table : RuleTable) (events : List Event)
    (few : (arrivals table events).length < UInt64.size) :
    ((start settings table).run events).1 =
      (packets (arrivals table events)).flatMap settings.verdicts := by
  have tracks : (start settings table).gate.Tracks settings [] := Gate.tracks_start settings
  have run := run_of_tracks (start settings table) events tracks (by simp)
  -- So few chunks that no index comes to the greatest one.
  have unsaturated : ∀ verdict ∈ (packets (arrivals table events)).flatMap settings.verdicts,
      verdict.saturated = verdict := by
    intro verdict given
    obtain ⟨packet, mem, given⟩ := List.mem_flatMap.mp given
    have short := length_le_of_mem_packets mem
    have place := GateSettings.index_lt_of_mem_verdicts given
    rw [Verdict.saturated, Nat.min_eq_left (by unfold maxIndex; omega)]
  calc ((start settings table).run events).1
      = ((packets (arrivals table events)).flatMap settings.verdicts).map .saturated := run
    _ = ((packets (arrivals table events)).flatMap settings.verdicts).map id :=
        List.map_congr_left unsaturated
    _ = _ := List.map_id _

-- The header bytes of a UDP packet to 10.0.0.5:9000.
def sampleFrame : List UInt8 :=
  List.replicate 12 0 ++ [0x08, 0x00] ++ List.replicate 9 0 ++ [17] ++ List.replicate 6 0 ++
    [10, 0, 0, 5, 0, 0, 0x23, 0x28, 0, 0, 0, 0]

def sampleKey : RuleKey := ⟨⟨0x0A000005⟩, 9000⟩

-- The sample in chunks of 16 bytes, with its rule taken back behind the decision chunk, and a second
-- packet that is too short to be decided on.
def sampleEvents : List Event :=
  [.rule ⟨sampleKey, .forward⟩,
    .chunk (.ofBytes (sampleFrame.take 16) false),
    .chunk (.ofBytes ((sampleFrame.drop 16).take 16) false),
    .chunk (.ofBytes (sampleFrame.drop 32) false),
    .rule ⟨sampleKey, .drop⟩,
    .chunk (.ofBytes [] true),
    .chunk (.ofBytes [1] true)]

theorem run_start_verdicts_rule_between :
    (arrivals .standard sampleEvents).length < UInt64.size ∧
      ((start { width := { bytes := 16 } } .standard).run sampleEvents).1 =
        [⟨0, false, false⟩, ⟨1, false, false⟩, ⟨2, true, false⟩, ⟨3, true, true⟩,
          ⟨0, false, true⟩] :=
  have few : (arrivals .standard sampleEvents).length < UInt64.size := by decide
  ⟨few, (run_start_verdicts _ _ _ few).trans (by decide +kernel)⟩

/-! ## 5. What a run leaves behind -/

def inFlight (begun : List Arrival) (arrival : Arrival) : List Arrival :=
  if arrival.chunk.last then [] else begun ++ [arrival]

def Event.rule? : Event → Option Rule
  | .chunk _ => none
  | .rule written => some written

-- A gate that is inside a packet before a run is inside the packet that the run leaves open.
theorem tracks_run {settings : GateSettings} (lane : Lane) (events : List Event)
    {begun : List Arrival} (h : lane.gate.Tracks settings begun) :
    (lane.run events).2.gate.Tracks settings
      ((arrivals lane.table events).foldl inFlight begun) := by
  induction events generalizing lane begun with
  | nil => exact h
  | cons event events ih =>
    cases event with
    | rule rule => exact ih (lane.insert rule) h
    | chunk chunk => exact ih (lane.classify chunk).2 (h.classify lane.table chunk).2

-- A run writes its rules to the table and nothing else.
theorem table_run (lane : Lane) (events : List Event) :
    (lane.run events).2.table = (events.filterMap Event.rule?).foldl RuleTable.insert lane.table := by
  induction events generalizing lane with
  | nil => rfl
  | cons event events ih =>
    cases event with
    | rule rule => exact ih (lane.insert rule)
    | chunk chunk => exact ih (lane.classify chunk).2

@[simp] theorem settings_classify (lane : Lane) (chunk : Chunk) :
    (lane.classify chunk).2.gate.settings = lane.gate.settings := by
  have kept : (lane.gate.classify lane.table chunk).2.settings = lane.gate.settings := by
    rw [Gate.classify]
    cases chunk.last <;> simp
  exact kept

-- The counters grow by what the verdicts of a run say, and only if the gate counts.
theorem tally_run (lane : Lane) (events : List Event) :
    (lane.run events).2.tally =
      if lane.gate.settings.counts then
        (lane.run events).1.foldl (fun tally verdict => verdict.record tally) lane.tally
      else lane.tally := by
  induction events generalizing lane with
  | nil => simp [run]
  | cons event events ih =>
    cases event with
    | rule rule => exact ih (lane.insert rule)
    | chunk chunk =>
      have rest := ih (lane.classify chunk).2
      have counted : (lane.classify chunk).2.tally =
          if lane.gate.settings.counts then (lane.classify chunk).1.record lane.tally
          else lane.tally := by
        rw [← settings_classify lane chunk]
        rfl
      rw [settings_classify, counted] at rest
      show ((lane.classify chunk).2.run events).2.tally = _
      rw [rest]
      cases lane.gate.settings.counts <;> rfl

end Lane
end UdpGate
