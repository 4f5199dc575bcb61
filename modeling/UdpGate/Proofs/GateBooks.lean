import Mathlib.Data.List.DropRight
import UdpGate.Proofs.GateRun

/-!
# What a gate keeps count of

The phase of a gate, the number of its look-ups and its four counters are all functions of the stream
that it has seen.  A gate has decided exactly while the packet in flight has its decision chunk; it
has asked the table once for each packet whose key was known there; and the counters tell of the
packets that are finished (`Lane.Books`).  Between two chunks the table may become any other table.
-/

namespace UdpGate

/-! ## 1. Streams -/

/-- The packet in flight behind a stream: the chunks that came after the latest last one. -/
def openPacket (stream : List Arrival) : List Arrival :=
  stream.rtakeWhile fun arrival => !arrival.chunk.last

def finishedPackets (stream : List Arrival) : List (List Arrival) :=
  (packets stream).filter fun packet => packet.any (·.chunk.last)

theorem foldl_inFlight_eq_openPacket (stream : List Arrival) :
    stream.foldl Lane.inFlight [] = openPacket stream := by
  induction stream using List.reverseRecOn with
  | nil => rfl
  | append_singleton stream arrival ih =>
    rw [List.foldl_append, List.foldl_cons, List.foldl_nil, ih, Lane.inFlight]
    cases last : arrival.chunk.last with
    | true => exact (List.rtakeWhile_concat_neg _ _ _ (by simp [last])).symm
    | false => exact (List.rtakeWhile_concat_pos _ _ _ (by simp [last])).symm

section Begun

variable {begun : List Arrival} {arrival : Arrival}

theorem countP_last_of_unfinished (h : ∀ a ∈ begun, a.chunk.last = false) :
    begun.countP (·.chunk.last) = 0 := by
  rw [List.countP_eq_zero]
  intro a mem
  simp [h a mem]

theorem finishedPackets_of_unfinished (h : ∀ a ∈ begun, a.chunk.last = false) :
    finishedPackets begun = [] := by
  by_cases empty : begun = []
  · rw [empty]
    rfl
  · have unmarked : begun.any (·.chunk.last) = false := by
      rw [List.any_eq_false]
      intro a mem
      simp [h a mem]
    rw [finishedPackets, packets_of_unfinished h empty, List.filter_singleton, unmarked]
    rfl

theorem finishedPackets_append_last (h : ∀ a ∈ begun, a.chunk.last = false)
    (last : arrival.chunk.last = true) (rest : List Arrival) :
    finishedPackets (begun ++ arrival :: rest) = (begun ++ [arrival]) :: finishedPackets rest := by
  have marked : (begun ++ [arrival]).any (·.chunk.last) = true := by simp [last]
  rw [finishedPackets, packets_append_last h last]
  exact List.filter_cons_of_pos marked

end Begun

namespace GateSettings

/-- The gate asks the table about a packet: the decision chunk has come, and the chunks up to it show
UDP over IPv4 and the whole key. -/
def Asks (settings : GateSettings) (packet : List Arrival) : Prop :=
  settings.width.decisionChunk < packet.length ∧
    (namedKey? (settings.view (packet.take (settings.width.decisionChunk + 1)))
      settings.endpoint).isSome

instance (settings : GateSettings) (packet : List Arrival) : Decidable (settings.Asks packet) :=
  inferInstanceAs (Decidable (_ ∧ _))

variable {settings : GateSettings} {packet : List Arrival}

theorem asks_append (h : settings.width.decisionChunk < packet.length) (rest : List Arrival) :
    settings.Asks (packet ++ rest) ↔ settings.Asks packet := by
  have longer : settings.width.decisionChunk < (packet ++ rest).length := by
    rw [List.length_append]
    omega
  rw [Asks, Asks, List.take_append_of_le_length h]
  exact and_congr (iff_of_true longer h) Iff.rfl

theorem not_asks_of_le (h : packet.length ≤ settings.width.decisionChunk) :
    ¬ settings.Asks packet := by
  rintro ⟨reached, -⟩
  omega

theorem asks_concat_iff (now : packet.length = settings.width.decisionChunk) (arrival : Arrival) :
    settings.Asks (packet ++ [arrival]) ↔
      (namedKey? (settings.view (packet ++ [arrival])) settings.endpoint).isSome := by
  have length : (packet ++ [arrival]).length = settings.width.decisionChunk + 1 := by
    rw [List.length_append, List.length_singleton, now]
  rw [Asks, ← length, List.take_length, length]
  exact and_iff_right (Nat.lt_succ_self _)

def askedFor (settings : GateSettings) (packet : List Arrival) : Nat :=
  if settings.Asks packet then 1 else 0

theorem askedFor_nil (settings : GateSettings) : settings.askedFor [] = 0 :=
  if_neg (not_asks_of_le (Nat.zero_le _))

end GateSettings

/-! ## 2. Look-ups -/

namespace Gate

theorem lookups_decide (gate : Gate) (table : RuleTable) :
    (gate.decide table).lookups =
      gate.lookups + if (key? gate.settings gate.assembly.header).isSome then 1 else 0 := by
  rw [decide]
  split
  · rename_i h
    rw [h]
    rfl
  · rename_i h
    rw [h]
    rfl

-- The table is asked with the decision chunk of a packet, and never again for the same packet.
theorem Tracks.lookups_classify {gate : Gate} {settings : GateSettings} {packet : List Arrival}
    (h : gate.Tracks settings packet) (table : RuleTable) (chunk : Chunk) :
    (gate.classify table chunk).2.lookups + settings.askedFor packet =
      gate.lookups + settings.askedFor (packet ++ [⟨chunk, table⟩]) := by
  have same : (gate.classify table chunk).2.lookups =
      ({ gate with assembly := gate.assembly.consume chunk }.decideAt table
        gate.assembly.incomingIndex).lookups := by
    rw [Gate.classify]
    cases chunk.last <;> rfl
  rw [same, h.decideAt_eq, GateSettings.askedFor, GateSettings.askedFor]
  rcases Nat.lt_trichotomy settings.width.decisionChunk packet.length with before | now | later
  · rw [if_neg (by omega)]
    simp only [GateSettings.asks_append before]
  · have header := h.header_consume table chunk
    have unasked : ¬ settings.Asks packet := GateSettings.not_asks_of_le (Nat.le_of_eq now.symm)
    rw [if_pos now, lookups_decide, if_neg unasked]
    simp only [header, h.settings_eq, gate_key?_ofView, GateSettings.asks_concat_iff now.symm]
    rfl
  · have unasked : ¬ settings.Asks packet := GateSettings.not_asks_of_le (Nat.le_of_lt later)
    have still : ¬ settings.Asks (packet ++ [⟨chunk, table⟩]) :=
      GateSettings.not_asks_of_le (by rw [List.length_append]; exact later)
    rw [if_neg (by omega), if_neg unasked, if_neg still]

def withCounts (gate : Gate) (counts : Bool) : Gate :=
  { gate with settings := { gate.settings with counts := counts } }

theorem decide_withCounts (gate : Gate) (counts : Bool) (table : RuleTable) :
    (gate.withCounts counts).decide table = (gate.decide table).withCounts counts := by
  have key : key? (gate.withCounts counts).settings (gate.withCounts counts).assembly.header =
      key? gate.settings gate.assembly.header := rfl
  rw [decide, decide, key]
  cases key? gate.settings gate.assembly.header <;> rfl

theorem decideAt_withCounts (gate : Gate) (counts : Bool) (table : RuleTable) (index : Nat) :
    (gate.withCounts counts).decideAt table index =
      (gate.decideAt table index).withCounts counts := by
  have due : (gate.withCounts counts).phase = .awaitingHeader ∧
      (gate.withCounts counts).settings.width.decisionChunk ≤ index ↔
      gate.phase = .awaitingHeader ∧ gate.settings.width.decisionChunk ≤ index := Iff.rfl
  rw [decideAt, decideAt, decide_withCounts]
  by_cases now : gate.phase = .awaitingHeader ∧ gate.settings.width.decisionChunk ≤ index
  · rw [if_pos now, if_pos (due.mpr now)]
  · rw [if_neg now, if_neg (mt due.mp now)]

-- Whether packets are counted makes no difference to what the gate does with a chunk.
theorem classify_withCounts (gate : Gate) (counts : Bool) (table : RuleTable) (chunk : Chunk) :
    (gate.withCounts counts).classify table chunk =
      ((gate.classify table chunk).1, (gate.classify table chunk).2.withCounts counts) := by
  have decided : { gate.withCounts counts with
        assembly := (gate.withCounts counts).assembly.consume chunk }.decideAt table
        (gate.withCounts counts).assembly.incomingIndex =
      ({ gate with assembly := gate.assembly.consume chunk }.decideAt table
        gate.assembly.incomingIndex).withCounts counts :=
    decideAt_withCounts { gate with assembly := gate.assembly.consume chunk } counts table
      gate.assembly.incomingIndex
  rw [Gate.classify, Gate.classify]
  simp only [decided]
  cases chunk.last <;> rfl

end Gate

/-! ## 3. Counters -/

namespace Tally

def grownOver (tally : Tally) (stream : List Arrival) (verdicts : List Verdict) : Tally where
  packetsIn := tally.packetsIn + UInt64.ofNat (stream.countP (·.chunk.last))
  chunksIn := tally.chunksIn + UInt64.ofNat (finishedPackets stream).flatten.length
  packetsForwarded :=
    tally.packetsForwarded + UInt64.ofNat (verdicts.countP fun v => v.last && v.forwarded)
  packetsDropped :=
    tally.packetsDropped + UInt64.ofNat (verdicts.countP fun v => v.last && !v.forwarded)

variable {begun : List Arrival} {arrival : Arrival} {verdict : Verdict}

theorem grownOver_of_unfinished (tally : Tally) (h : ∀ a ∈ begun, a.chunk.last = false) :
    tally.grownOver begun [] = tally := by
  simp [grownOver, finishedPackets_of_unfinished h, countP_last_of_unfinished h]

-- A chunk that ends no packet is counted nowhere.
theorem grownOver_cons_of_unfinished (tally : Tally) (stream : List Arrival)
    (verdicts : List Verdict) (unmarked : verdict.last = false) :
    tally.grownOver stream (verdict :: verdicts) = tally.grownOver stream verdicts := by
  simp [grownOver, unmarked]

-- A chunk that ends a packet is counted with the chunks of the packet before it.
theorem grownOver_record (tally : Tally) (h : ∀ a ∈ begun, a.chunk.last = false)
    (last : arrival.chunk.last = true) (marked : verdict.last = true)
    (place : verdict.index = begun.length) (stream : List Arrival) (verdicts : List Verdict) :
    (verdict.record tally).grownOver stream verdicts =
      tally.grownOver (begun ++ arrival :: stream) (verdict :: verdicts) := by
  simp only [Verdict.record, marked, if_true, grownOver, record, List.countP_append,
    countP_last_of_unfinished h, List.countP_cons, last, finishedPackets_append_last h last,
    List.flatten_cons, List.length_append, List.length_singleton, place, UInt64.ofNat_add,
    UInt64.add_assoc, Tally.mk.injEq]
  refine ⟨?_, trivial, ?_, ?_⟩
  · simp [UInt64.add_comm]
  · cases verdict.forwarded <;> simp [UInt64.add_comm]
  · cases verdict.forwarded <;> simp [UInt64.add_comm]

end Tally

/-! ## 4. Runs -/

namespace Lane

def meet (lane : Lane) (arrival : Arrival) : Verdict × Lane :=
  { lane with table := arrival.table }.classify arrival.chunk

/-- Looks at the chunks of a stream one after the other.  Before each of them the table becomes the
one that the chunk meets, whatever it was. -/
def follow (lane : Lane) : List Arrival → List Verdict × Lane
  | [] => ([], lane)
  | arrival :: stream =>
    let (verdict, after) := lane.meet arrival
    let (verdicts, final) := after.follow stream
    (verdict :: verdicts, final)

section Follow

variable {settings : GateSettings} {begun : List Arrival}

theorem tracks_meet (lane : Lane) (arrival : Arrival) (h : lane.gate.Tracks settings begun) :
    (lane.meet arrival).2.gate.Tracks settings (inFlight begun arrival) :=
  (h.classify arrival.table arrival.chunk).2

theorem tracks_follow (lane : Lane) (stream : List Arrival)
    (h : lane.gate.Tracks settings begun) :
    (lane.follow stream).2.gate.Tracks settings (stream.foldl inFlight begun) := by
  induction stream generalizing lane begun with
  | nil => exact h
  | cons arrival stream ih =>
    exact ih (lane.meet arrival).2 (lane.tracks_meet arrival h)

-- The packets of a stream that are asked about, those of them that are in flight before it apart.
theorem lookups_follow (lane : Lane) (stream : List Arrival)
    (h : lane.gate.Tracks settings begun) (unfinished : ∀ a ∈ begun, a.chunk.last = false) :
    (lane.follow stream).2.gate.lookups + settings.askedFor begun =
      lane.gate.lookups + (packets (begun ++ stream)).countP (settings.Asks ·) := by
  induction stream generalizing lane begun with
  | nil =>
    rw [List.append_nil]
    by_cases empty : begun = []
    · rw [empty, GateSettings.askedFor_nil]
      rfl
    · rw [packets_of_unfinished unfinished empty, List.countP_singleton, GateSettings.askedFor]
      simp only [decide_eq_true_eq]
      rfl
  | cons arrival stream ih =>
    have step : (lane.meet arrival).2.gate.lookups + settings.askedFor begun =
        lane.gate.lookups + settings.askedFor (begun ++ [arrival]) :=
      h.lookups_classify arrival.table arrival.chunk
    have tracks := lane.tracks_meet arrival h
    rw [inFlight] at tracks
    show ((lane.meet arrival).2.follow stream).2.gate.lookups + _ = _
    cases last : arrival.chunk.last with
    | true =>
      -- The packet is finished: the rest of the stream begins with a new one.
      rw [last, if_pos rfl] at tracks
      have rest := ih (lane.meet arrival).2 tracks (by simp)
      have first : (packets (begun ++ arrival :: stream)).countP (settings.Asks ·) =
          (packets stream).countP (settings.Asks ·) + settings.askedFor (begun ++ [arrival]) := by
        rw [packets_append_last unfinished last, List.countP_cons, GateSettings.askedFor]
        simp only [decide_eq_true_eq]
      rw [List.nil_append, GateSettings.askedFor_nil] at rest
      rw [first]
      omega
    | false =>
      rw [last, if_neg Bool.false_ne_true] at tracks
      have rest := ih (lane.meet arrival).2 tracks
        (by simpa [or_imp, forall_and, last] using unfinished)
      rw [List.append_assoc, List.singleton_append] at rest
      omega

-- The counters grow by the packets that are finished, with all of their chunks.
theorem tally_follow (lane : Lane) (stream : List Arrival)
    (h : lane.gate.Tracks settings begun) (unfinished : ∀ a ∈ begun, a.chunk.last = false)
    (few : (begun ++ stream).length < UInt64.size) :
    (lane.follow stream).2.tally =
      if settings.counts then lane.tally.grownOver (begun ++ stream) (lane.follow stream).1
      else lane.tally := by
  induction stream generalizing lane begun with
  | nil =>
    rw [List.append_nil, follow, Tally.grownOver_of_unfinished _ unfinished, ite_self]
  | cons arrival stream ih =>
    have tracks := lane.tracks_meet arrival h
    rw [inFlight] at tracks
    have same : begun ++ arrival :: stream = begun ++ [arrival] ++ stream := by simp
    have counted : (lane.meet arrival).2.tally =
        if settings.counts then (lane.meet arrival).1.record lane.tally else lane.tally := by
      rw [← tracks.settings_eq]
      rfl
    show ((lane.meet arrival).2.follow stream).2.tally =
      if settings.counts then lane.tally.grownOver (begun ++ arrival :: stream)
        ((lane.meet arrival).1 :: ((lane.meet arrival).2.follow stream).1) else lane.tally
    have mark : (lane.meet arrival).1.last = arrival.chunk.last := rfl
    cases last : arrival.chunk.last with
    | true =>
      have place : (lane.meet arrival).1.index = begun.length := by
        have index : (lane.meet arrival).1.index = min begun.length maxIndex :=
          congrArg Verdict.index (h.classify arrival.table arrival.chunk).1
        rw [List.length_append, List.length_cons] at few
        rw [index]
        unfold maxIndex
        omega
      rw [last, if_pos rfl] at tracks
      have rest := ih (lane.meet arrival).2 tracks (by simp)
        (by simp at few ⊢; omega)
      rw [rest, counted]
      cases settings.counts with
      | true => exact Tally.grownOver_record _ unfinished last (mark.trans last) place _ _
      | false => rfl
    | false =>
      rw [last, if_neg Bool.false_ne_true] at tracks
      have rest := ih (lane.meet arrival).2 tracks
        (by simpa [or_imp, forall_and, last] using unfinished) (by rwa [← same])
      have uncounted : (lane.meet arrival).1.record lane.tally = lane.tally := by
        rw [Verdict.record, if_neg (by simp [mark, last])]
      rw [rest, counted, uncounted, ite_self, same,
        Tally.grownOver_cons_of_unfinished _ _ _ (mark.trans last)]

-- A lane that counts and one that does not see the same stream alike.
theorem follow_withCounts (lane other : Lane) (counts : Bool) (stream : List Arrival)
    (h : other.gate = lane.gate.withCounts counts) :
    (other.follow stream).1 = (lane.follow stream).1 ∧
      (other.follow stream).2.gate = (lane.follow stream).2.gate.withCounts counts := by
  induction stream generalizing lane other with
  | nil => exact ⟨rfl, h⟩
  | cons arrival stream ih =>
    have step := Gate.classify_withCounts lane.gate counts arrival.table arrival.chunk
    rw [← h] at step
    have gate : (other.meet arrival).2.gate = (lane.meet arrival).2.gate.withCounts counts :=
      congrArg Prod.snd step
    have verdict : (other.meet arrival).1 = (lane.meet arrival).1 := by
      show (other.gate.classify arrival.table arrival.chunk).1 = _
      rw [step]
      rfl
    obtain ⟨verdicts, final⟩ := ih (lane.meet arrival).2 (other.meet arrival).2 gate
    exact ⟨List.cons_eq_cons.mpr ⟨verdict, verdicts⟩, final⟩

end Follow

-- A run in which rules are written between the chunks is such a stream: each chunk meets the table
-- that the rules before it have left.
theorem run_eq_follow (lane : Lane) (events : List Event) :
    (lane.run events).1 = (lane.follow (arrivals lane.table events)).1 ∧
      (lane.run events).2.gate = (lane.follow (arrivals lane.table events)).2.gate ∧
      (lane.run events).2.tally = (lane.follow (arrivals lane.table events)).2.tally := by
  induction events generalizing lane with
  | nil => exact ⟨rfl, rfl, rfl⟩
  | cons event events ih =>
    cases event with
    | chunk chunk =>
      obtain ⟨verdicts, gate, tally⟩ := ih (lane.classify chunk).2
      exact ⟨List.cons_eq_cons.mpr ⟨rfl, verdicts⟩, gate, tally⟩
    | rule rule =>
      obtain ⟨verdicts, gate, tally⟩ := ih (lane.insert rule)
      -- The next chunk meets its own table, so what the rule made of the lane's is not seen.
      have unseen (stream : List Arrival) :
          ((lane.insert rule).follow stream).1 = (lane.follow stream).1 ∧
            ((lane.insert rule).follow stream).2.gate = (lane.follow stream).2.gate ∧
            ((lane.insert rule).follow stream).2.tally = (lane.follow stream).2.tally := by
        cases stream <;> exact ⟨rfl, rfl, rfl⟩
      obtain ⟨verdicts', gate', tally'⟩ := unseen (arrivals (lane.insert rule).table events)
      exact ⟨verdicts.trans verdicts', gate.trans gate', tally.trans tally'⟩

/-! ## 5. The books -/

/-- What a lane holds behind a stream on which it gave these verdicts. -/
structure Books (lane : Lane) (settings : GateSettings) (stream : List Arrival)
    (verdicts : List Verdict) : Prop where
  decided_iff : (∃ action, lane.gate.phase = .decided action) ↔
    settings.width.decisionChunk < (openPacket stream).length
  awaiting_iff : lane.gate.phase = .awaitingHeader ↔
    (openPacket stream).length ≤ settings.width.decisionChunk
  lookups_eq : lane.gate.lookups = (packets stream).countP (settings.Asks ·)
  lookups_le : lane.gate.lookups ≤ (packets stream).length
  uncounted : settings.counts = false → lane.counted? = none
  counted : settings.counts = true → ∃ tally, lane.counted? = some tally ∧
    tally.packetsIn = UInt64.ofNat (stream.countP (·.chunk.last)) ∧
    tally.packetsForwarded + tally.packetsDropped = tally.packetsIn ∧
    tally.packetsForwarded = UInt64.ofNat (verdicts.countP fun v => v.last && v.forwarded) ∧
    tally.chunksIn = UInt64.ofNat (finishedPackets stream).flatten.length

theorem map_last_follow (lane : Lane) (stream : List Arrival) :
    (lane.follow stream).1.map Verdict.last = stream.map (·.chunk.last) := by
  induction stream generalizing lane with
  | nil => rfl
  | cons arrival stream ih => exact List.cons_eq_cons.mpr ⟨rfl, ih (lane.meet arrival).2⟩

theorem countP_forwarded_add_dropped (verdicts : List Verdict) :
    verdicts.countP (fun v => v.last && v.forwarded) +
      verdicts.countP (fun v => v.last && !v.forwarded) = verdicts.countP (·.last) := by
  induction verdicts with
  | nil => rfl
  | cons verdict verdicts ih =>
    simp only [List.countP_cons]
    cases verdict.last <;> cases verdict.forwarded <;> simp <;> omega

-- Each last chunk is counted as forwarded or as dropped.
theorem countP_verdicts_follow (lane : Lane) (stream : List Arrival) :
    (lane.follow stream).1.countP (fun v => v.last && v.forwarded) +
      (lane.follow stream).1.countP (fun v => v.last && !v.forwarded) =
      stream.countP (·.chunk.last) := by
  have marks := congrArg (List.countP id) (map_last_follow lane stream)
  rw [List.countP_map, List.countP_map] at marks
  rw [countP_forwarded_add_dropped]
  exact marks

/-- **The books.**  On every stream of fewer than 2 ^ 64 chunks, between which the table may become
any other table, a fresh lane keeps its books; and whether it counts packets makes no difference to
its verdicts, its phase and its look-ups. -/
theorem follow_start_books (settings : GateSettings) (table : RuleTable) (stream : List Arrival)
    (few : stream.length < UInt64.size) :
    ((start settings table).follow stream).2.Books settings stream
        ((start settings table).follow stream).1 ∧
      ∀ counts : Bool,
        ((start { settings with counts := counts } table).follow stream).1 =
            ((start settings table).follow stream).1 ∧
          ((start { settings with counts := counts } table).follow stream).2.gate.phase =
            ((start settings table).follow stream).2.gate.phase ∧
          ((start { settings with counts := counts } table).follow stream).2.gate.lookups =
            ((start settings table).follow stream).2.gate.lookups := by
  have fresh : (start settings table).gate.Tracks settings [] := Gate.tracks_start settings
  have tracks := tracks_follow (start settings table) stream fresh
  rw [foldl_inFlight_eq_openPacket] at tracks
  have awaiting := tracks.phase_eq_awaitingHeader_iff
  have asked := lookups_follow (start settings table) stream fresh (by simp)
  have lookups : ((start settings table).follow stream).2.gate.lookups =
      (packets stream).countP (settings.Asks ·) := by
    rw [GateSettings.askedFor_nil, List.nil_append] at asked
    exact asked.trans (Nat.zero_add _)
  have tally := tally_follow (start settings table) stream fresh (by simp) few
  have outcomes := countP_verdicts_follow (start settings table) stream
  constructor
  · refine ⟨?_, awaiting, lookups, ?_, ?_, ?_⟩
    · rw [← Nat.not_le, ← awaiting]
      cases ((start settings table).follow stream).2.gate.phase <;> simp
    · rw [lookups]
      exact List.countP_le_length
    · intro off
      rw [counted?, tracks.settings_eq, off]
      rfl
    · intro on
      rw [on, if_pos rfl, List.nil_append] at tally
      refine ⟨_, by rw [counted?, tracks.settings_eq, on, if_pos rfl], ?_⟩
      rw [tally]
      refine ⟨UInt64.zero_add _, ?_, UInt64.zero_add _, UInt64.zero_add _⟩
      show 0 + UInt64.ofNat _ + (0 + UInt64.ofNat _) = 0 + UInt64.ofNat _
      rw [UInt64.zero_add, UInt64.zero_add, UInt64.zero_add, ← UInt64.ofNat_add, outcomes]
  · intro counts
    obtain ⟨verdicts, gate⟩ := follow_withCounts (start settings table)
      (start { settings with counts := counts } table) counts stream rfl
    rw [gate]
    exact ⟨verdicts, rfl, rfl⟩

-- The sample packet of four chunks, which is asked about once, and a packet that is too short.
theorem follow_start_books_sample :
    (arrivals .standard sampleEvents).length < UInt64.size ∧
      ∃ final : Lane,
        final = ((start { width := { bytes := 16 } } .standard).follow
          (arrivals .standard sampleEvents)).2 ∧
        final.gate.phase = .awaitingHeader ∧ final.gate.lookups = 1 ∧
        ∃ tally, final.counted? = some tally ∧ tally.packetsIn = 2 ∧
          tally.packetsForwarded + tally.packetsDropped = tally.packetsIn ∧
          tally.packetsForwarded = 1 ∧ tally.chunksIn = 5 := by
  have few : (arrivals .standard sampleEvents).length < UInt64.size := by decide
  obtain ⟨books, -⟩ := follow_start_books { width := { bytes := 16 } } .standard
    (arrivals .standard sampleEvents) few
  obtain ⟨tally, shown, packetsIn, sum, forwarded, chunksIn⟩ := books.counted rfl
  refine ⟨few, _, rfl, books.awaiting_iff.mpr (by decide), ?_, tally, shown, ?_, sum, ?_, ?_⟩
  · exact books.lookups_eq.trans (by decide +kernel)
  · exact packetsIn.trans (by decide +kernel)
  · exact forwarded.trans (by decide +kernel)
  · exact chunksIn.trans (by decide +kernel)

end Lane
end UdpGate
