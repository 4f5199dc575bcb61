import UdpGate.Pool
import UdpGate.Proofs.FrameVerdict

/-!
# What a pool of workers answers

Calls come to the workers of a pool and to its control side in any order.  Between two calls every
gate waits for a packet (`Pool.Ready`), so a frame is judged as a whole, by the table as it stands
when the frame comes; the table changes only in the idle calls of a worker that owns the mailbox;
and the counters grow by the frames that were judged.  `Pool.Ready.answer` says this of one call and
`Pool.Ready.run` of a whole run.
-/

namespace UdpGate

/-! ## 1. IP packets -/

def ipv4Carrier (packet : List UInt8) : List UInt8 :=
  List.replicate 12 0 ++ [0x08, 0x00] ++ packet

theorem encapsulate_of_version4 {packet : List UInt8}
    (h : ∃ first ∈ packet.head?, first >>> 4 = 4) : encapsulate packet = ipv4Carrier packet := by
  obtain ⟨first, head, version⟩ := h
  match packet, head with
  | _ :: rest, rfl =>
    have etherType : etherTypeOf (first :: rest) = etherTypeIpv4 := if_pos version
    rw [encapsulate, etherType]
    rfl

theorem not_saysUdp_encapsulate {packet : List UInt8}
    (h : ¬ ∃ first ∈ packet.head?, first >>> 4 = 4) : ¬ SaysUdp (encapsulate packet) := by
  have etherType : etherTypeOf packet = 0 := by
    match packet with
    | [] => rfl
    | first :: rest => exact if_neg fun version => h ⟨first, rfl, version⟩
  rw [SaysUdp, encapsulate, etherType]
  intro udp
  exact absurd udp.1 (by simp [wordBytes])

-- An IP packet is let through if it is of version 4 and the frame that it travels in is.
theorem GateSettings.admitsFrame_encapsulate (settings : GateSettings) (table : RuleTable)
    (packet : List UInt8) :
    settings.AdmitsFrame table (encapsulate packet) ↔
      (∃ first ∈ packet.head?, first >>> 4 = 4) ∧
        settings.AdmitsFrame table (ipv4Carrier packet) := by
  by_cases version : ∃ first ∈ packet.head?, first >>> 4 = 4
  · rw [encapsulate_of_version4 version, and_iff_right version]
  · exact iff_of_false (fun admits => not_saysUdp_encapsulate version admits.2.2.1)
      fun both => version both.1

/-! ## 2. Calls and what they answer -/

-- An idle step does nothing, or writes the latest commit to the table and acknowledges it.
theorem Engine.idleStep_cases (engine : Engine) :
    engine.idleStep = (.idle, engine) ∨
      ∃ number, engine.idleStep = (.ruleApplied ⟨number, engine.mailbox.committed.rule⟩,
        { lane := engine.lane.insert engine.mailbox.committed.rule
          mailbox := engine.mailbox.acknowledge number
          applied := number }) := by
  rw [Engine.idleStep, Engine.applyPending]
  cases pending : engine.pending? with
  | none => exact .inl rfl
  | some commit =>
    rw [Engine.pending?, Mailbox.pending?] at pending
    split at pending
    · cases pending
    · cases pending
      exact .inr ⟨engine.mailbox.commits, rfl⟩

namespace Pool

def writeRule (pool : Pool) (rule : Rule) : Pool :=
  { pool with console := { pool.console with mailbox := pool.console.mailbox.commit rule } }

inductive Call (n : Nat) where
  | frame (worker : Fin n) (frame : List UInt8)
  | packet (worker : Fin n) (packet : List UInt8)
  | idle (worker : Fin n)
  | writeRule (rule : Rule)

inductive Reply where
  | verdict (accepted : Bool)
  | step (outcome : StepOutcome)
  | written
deriving DecidableEq

/-- A call, and the pool before and after it. -/
structure Exchange (n : Nat) where
  before : Pool
  call : Call n
  reply : Reply
  after : Pool

def answer (pool : Pool) (call : Call n) : Option (Exchange n) :=
  match call with
  | .frame i frame =>
    (pool.filterFrame i frame).map fun (accepted, after) => ⟨pool, call, .verdict accepted, after⟩
  | .packet i packet =>
    (pool.filterIp i packet).map fun (accepted, after) => ⟨pool, call, .verdict accepted, after⟩
  | .idle i => (pool.idle i).map fun (outcome, after) => ⟨pool, call, .step outcome, after⟩
  | .writeRule rule => some ⟨pool, call, .written, pool.writeRule rule⟩

def run (pool : Pool) : List (Call n) → Option (List (Exchange n) × Pool)
  | [] => some ([], pool)
  | call :: calls => do
    let exchange ← pool.answer call
    let (exchanges, last) ← exchange.after.run calls
    return (exchange :: exchanges, last)

def Call.frame? : Call n → Option (List UInt8)
  | .frame _ bytes => some bytes
  | .packet _ bytes => some (encapsulate bytes)
  | .idle _ => none
  | .writeRule _ => none

def Exchange.judged? (exchange : Exchange n) : Option (List UInt8 × Bool) :=
  match exchange.call.frame?, exchange.reply with
  | some frame, .verdict accepted => some (frame, accepted)
  | _, _ => none

/-- What an exchange with a pool must be, for each kind of call. -/
def Exchange.Meets (settings : GateSettings) (owners : List Bool)
    (exchange : Exchange owners.length) : Prop :=
  match exchange.call with
  | .frame _ frame =>
    exchange.reply = .verdict (decide (settings.AdmitsFrame exchange.before.table.snapshot frame)) ∧
      exchange.after.table = exchange.before.table
  | .packet _ packet =>
    exchange.reply =
        .verdict (decide ((∃ first ∈ packet.head?, first >>> 4 = 4) ∧
          settings.AdmitsFrame exchange.before.table.snapshot (ipv4Carrier packet))) ∧
      exchange.after.table = exchange.before.table
  | .idle i =>
    if owners[i] then
      (exchange.reply = .step .idle ∧ exchange.after.table = exchange.before.table) ∨
        ∃ number, let rule := exchange.before.console.mailbox.committed.rule
          exchange.reply = .step (.ruleApplied ⟨number, rule⟩) ∧
            exchange.after.table = exchange.before.table.insert rule
    else exchange.reply = .step .idle ∧ exchange.after = exchange.before
  | .writeRule _ => exchange.after.table = exchange.before.table

/-! ## 3. One call -/

/-- Every worker's gate waits for a packet, and the workers that own the mailbox are these. -/
structure Ready (pool : Pool) (settings : GateSettings) (owners : List Bool) : Prop where
  owners_eq : pool.workers.map Worker.ownsMailbox = owners
  tracks : ∀ worker ∈ pool.workers, worker.gate.Tracks settings []

theorem ready_start (settings : GateSettings) (table : RuleTable) (console : Console)
    (owners : List Bool) :
    { start settings table owners with console := console }.Ready settings owners where
  owners_eq := by
    rw [start, List.map_map]
    exact List.map_id owners
  tracks := by
    intro worker mem
    obtain ⟨owns, -, rfl⟩ := List.mem_map.mp mem
    exact Gate.tracks_start settings

variable {pool : Pool} {settings : GateSettings} {owners : List Bool}

-- The worker of an index, with what it owns.
theorem Ready.worker (h : pool.Ready settings owners) (i : Fin owners.length) :
    ∃ worker, pool.workers[i.val]? = some worker ∧ worker.gate.Tracks settings [] ∧
      worker.ownsMailbox = owners[i] := by
  have entry : (pool.workers.map Worker.ownsMailbox)[i.val]? = some owners[i] := by
    rw [h.owners_eq]
    exact List.getElem?_eq_getElem i.isLt
  rw [List.getElem?_map, Option.map_eq_some_iff] at entry
  obtain ⟨worker, there, owns⟩ := entry
  exact ⟨worker, there, h.tracks worker (List.mem_of_getElem? there), owns⟩

-- Putting a worker back leaves the pool ready if its gate waits and it owns what it owned.
theorem Ready.withEngine (h : pool.Ready settings owners) {i : Nat} {worker changed : Worker}
    (there : pool.workers[i]? = some worker) (owns : changed.ownsMailbox = worker.ownsMailbox)
    {engine : Engine} (tracks : engine.lane.gate.Tracks settings []) :
    (pool.withEngine i changed engine).Ready settings owners where
  owners_eq := by
    rw [Pool.withEngine, List.map_set, owns, ← h.owners_eq]
    apply List.ext_getElem?
    intro j
    rw [List.getElem?_set]
    split
    · rename_i same
      rw [← same]
      obtain ⟨inside, rfl⟩ := List.getElem?_eq_some_iff.mp there
      simp [inside]
    · rfl
  tracks := by
    intro other mem
    rcases List.mem_or_eq_of_mem_set mem with kept | rfl
    · exact h.tracks other kept
    · exact tracks

def judge (settings : GateSettings) (tally : Tally) (judged : List UInt8 × Bool) : Tally :=
  if settings.counts then
    (Lane.finalVerdict (settings.width.chunksFor judged.1.length) judged.2).record tally
  else tally

-- A worker judges a frame by the table of the moment.
theorem Ready.filterFrame (h : pool.Ready settings owners) (i : Fin owners.length)
    (frame : List UInt8) :
    ∃ after, pool.filterFrame i frame =
        some (decide (settings.AdmitsFrame pool.table.snapshot frame), after) ∧
      after.Ready settings owners ∧ after.table = pool.table ∧
      after.console.mailbox = pool.console.mailbox ∧
      after.console.tally = judge settings pool.console.tally
        (frame, decide (settings.AdmitsFrame pool.table.snapshot frame)) := by
  obtain ⟨worker, there, tracks, -⟩ := h.worker i
  obtain ⟨lane, emptied, passed, drained, waits, table, tally, packets⟩ :=
    (pool.engine worker).drain_frame tracks frame worker.passed
  -- The worker reads its verdict off the count of ends that have passed.
  have accepted : decide (worker.passed.packets < passed.packets) =
      decide (settings.AdmitsFrame pool.table.snapshot frame) := by
    rw [packets]
    show _ = decide (settings.AdmitsFrame (pool.engine worker).lane.table frame)
    by_cases admits : settings.AdmitsFrame (pool.engine worker).lane.table frame
    · simp [admits]
    · simp [admits]
  refine ⟨pool.withEngine i { worker with passed := passed }
    { pool.engine worker with lane := lane }, ?_, ?_, ?_, rfl, ?_⟩
  · rw [Pool.filterFrame, there, Option.map_some, tracks.settings_eq]
    simp only [drained, accepted]
  · apply h.withEngine there
    · rfl
    · exact waits
  · exact congrArg PublishedTable.mk table
  · exact tally

-- A worker that owns the mailbox may write the latest commit to the table; another one does
-- nothing.
theorem Ready.idle (h : pool.Ready settings owners) (i : Fin owners.length) :
    ∃ outcome after, pool.idle i = some (outcome, after) ∧ after.Ready settings owners ∧
      after.console.tally = pool.console.tally ∧
      if owners[i] then
        (outcome = .idle ∧ after.table = pool.table) ∨
          ∃ number, outcome = .ruleApplied ⟨number, pool.console.mailbox.committed.rule⟩ ∧
            after.table = pool.table.insert pool.console.mailbox.committed.rule
      else outcome = .idle ∧ after = pool := by
  obtain ⟨worker, there, tracks, owns⟩ := h.worker i
  rw [Pool.idle, there, Option.map_some, owns]
  cases owners[i] with
  | false => exact ⟨_, _, rfl, h, rfl, by simp⟩
  | true =>
    simp only [if_true]
    rcases (pool.engine worker).idleStep_cases with idle | ⟨number, applied⟩
    · rw [idle]
      exact ⟨_, _, rfl, h.withEngine there rfl tracks, rfl, .inl ⟨rfl, rfl⟩⟩
    · rw [applied]
      exact ⟨_, _, rfl, h.withEngine there rfl tracks, rfl, .inr ⟨number, rfl, rfl⟩⟩

/-- **A call.**  A ready pool answers every call as it must, and is ready again. -/
theorem Ready.answer (h : pool.Ready settings owners) (call : Call owners.length) :
    ∃ exchange, pool.answer call = some exchange ∧ exchange.call = call ∧
      exchange.Meets settings owners ∧ exchange.after.Ready settings owners ∧
      exchange.judged?.map Prod.fst = call.frame? ∧
      exchange.after.console.tally =
        exchange.judged?.elim pool.console.tally (judge settings pool.console.tally) := by
  cases call with
  | frame i bytes =>
    obtain ⟨after, filtered, ready, table, -, tally⟩ := h.filterFrame i bytes
    refine ⟨⟨pool, .frame i bytes, .verdict _, after⟩, ?_, rfl, ⟨rfl, table⟩, ready, rfl, tally⟩
    rw [Pool.answer, filtered, Option.map_some]
  | packet i bytes =>
    obtain ⟨after, filtered, ready, table, -, tally⟩ := h.filterFrame i (encapsulate bytes)
    refine ⟨⟨pool, .packet i bytes, .verdict _, after⟩, ?_, rfl, ⟨?_, table⟩, ready, rfl, tally⟩
    · rw [Pool.answer, Pool.filterIp, filtered, Option.map_some]
    · simp only [settings.admitsFrame_encapsulate]
  | idle i =>
    obtain ⟨outcome, after, found, ready, tally, meets⟩ := h.idle i
    refine ⟨⟨pool, .idle i, .step outcome, after⟩, ?_, rfl, ?_, ready, rfl, tally⟩
    · rw [Pool.answer, found, Option.map_some]
    · simpa [Exchange.Meets] using meets
  | writeRule rule =>
    exact ⟨_, rfl, rfl, rfl, ⟨h.owners_eq, h.tracks⟩, rfl, rfl⟩

/-! ## 4. A run -/

/-- **A run.**  By induction on the calls, with `Ready` as the invariant. -/
theorem Ready.run (h : pool.Ready settings owners) (calls : List (Call owners.length)) :
    ∃ exchanges last, pool.run calls = some (exchanges, last) ∧
      exchanges.map Exchange.call = calls ∧
      (∀ exchange ∈ exchanges, exchange.Meets settings owners) ∧
      last.Ready settings owners ∧
      (exchanges.filterMap Exchange.judged?).map Prod.fst = calls.filterMap Call.frame? ∧
      last.console.tally =
        (exchanges.filterMap Exchange.judged?).foldl (judge settings) pool.console.tally := by
  induction calls generalizing pool with
  | nil => exact ⟨[], pool, rfl, rfl, by simp, h, rfl, rfl⟩
  | cons call calls ih =>
    obtain ⟨exchange, answered, made, meets, ready, frame, tally⟩ := h.answer call
    obtain ⟨exchanges, last, ran, all_made, all_meet, ready_last, frames, total⟩ := ih ready
    refine ⟨exchange :: exchanges, last, ?_, ?_, ?_, ready_last, ?_, ?_⟩
    · rw [Pool.run, answered]
      simp [ran]
    · rw [List.map_cons, made, all_made]
    · exact List.forall_mem_cons.mpr ⟨meets, all_meet⟩
    · rw [List.filterMap_cons, List.filterMap_cons, ← frame]
      cases exchange.judged? with
      | none => exact frames
      | some judged => exact congrArg (judged.1 :: ·) frames
    · rw [total, tally, List.filterMap_cons]
      cases exchange.judged? with
      | none => rfl
      | some judged => rfl

end Pool

def ChunkWidth.totalChunks (width : ChunkWidth) : List (List UInt8) → Nat
  | [] => 0
  | frame :: frames => width.chunksFor frame.length + width.totalChunks frames

/-- The counters once these frames were judged in these ways; they wrap as 64-bit numbers do. -/
def Tally.grownBy (tally : Tally) (width : ChunkWidth) (judged : List (List UInt8 × Bool)) :
    Tally where
  packetsIn := tally.packetsIn + UInt64.ofNat judged.length
  chunksIn := tally.chunksIn + UInt64.ofNat (width.totalChunks (judged.map Prod.fst))
  packetsForwarded := tally.packetsForwarded + UInt64.ofNat (judged.countP fun (_, ok) => ok)
  packetsDropped := tally.packetsDropped + UInt64.ofNat (judged.countP fun (_, ok) => !ok)

theorem Tally.grownBy_record (tally : Tally) (width : ChunkWidth) (frame : List UInt8) (ok : Bool)
    (judged : List (List UInt8 × Bool)) :
    (tally.record (UInt64.ofNat (width.chunksFor frame.length)) ok).grownBy width judged =
      tally.grownBy width ((frame, ok) :: judged) := by
  simp only [grownBy, record, List.length_cons, List.map_cons, ChunkWidth.totalChunks,
    List.countP_cons, UInt64.ofNat_add, UInt64.add_assoc, Tally.mk.injEq]
  refine ⟨?_, trivial, ?_, ?_⟩
  · rw [UInt64.add_comm 1]
    rfl
  · cases ok <;> simp [UInt64.add_comm]
  · cases ok <;> simp [UInt64.add_comm]

namespace Pool

theorem record_finalVerdict {chunks : Nat} (some_chunk : 0 < chunks) (few : chunks < UInt64.size)
    (accepted : Bool) (tally : Tally) :
    (Lane.finalVerdict chunks accepted).record tally =
      tally.record (UInt64.ofNat chunks) accepted := by
  have place : min (chunks - 1) maxIndex + 1 = chunks := by
    unfold maxIndex
    omega
  show tally.record (UInt64.ofNat (min (chunks - 1) maxIndex + 1)) accepted = _
  rw [place]

theorem foldl_judge {settings : GateSettings} (judged : List (List UInt8 × Bool))
    (few : settings.width.totalChunks (judged.map Prod.fst) < UInt64.size) (tally : Tally) :
    judged.foldl (judge settings) tally =
      if settings.counts then tally.grownBy settings.width judged else tally := by
  induction judged generalizing tally with
  | nil => simp [Tally.grownBy, ChunkWidth.totalChunks]
  | cons first judged ih =>
    have some_chunk : 0 < settings.width.chunksFor first.1.length := Nat.le_max_right _ _
    rw [List.map_cons, ChunkWidth.totalChunks] at few
    rw [List.foldl_cons, ih (by omega), judge, record_finalVerdict some_chunk (by omega)]
    cases settings.counts with
    | false => rfl
    | true =>
      simp only [if_true]
      rw [Tally.grownBy_record]

/-- **What a pool answers.**  Workers that share a table, a mailbox and counters are called in any
order, between commits of rules.  Each frame is judged as a whole by the table of the moment; only
an idle call of a worker that owns the mailbox changes the table, by the rule committed last; and
while the gates count, the counters grow by the frames judged, their verdicts and their chunks. -/
theorem run_start (settings : GateSettings) (table : RuleTable) (console : Console)
    (owners : List Bool) (calls : List (Call owners.length))
    (few : settings.width.totalChunks (calls.filterMap Call.frame?) < UInt64.size) :
    ∃ exchanges last,
      { start settings table owners with console := console }.run calls = some (exchanges, last) ∧
      exchanges.map Exchange.call = calls ∧
      (∀ exchange ∈ exchanges, exchange.Meets settings owners) ∧
      last.console.tally =
        if settings.counts then
          console.tally.grownBy settings.width (exchanges.filterMap Exchange.judged?)
        else console.tally := by
  obtain ⟨exchanges, last, ran, made, meet, -, frames, total⟩ :=
    (ready_start settings table console owners).run calls
  refine ⟨exchanges, last, ran, made, meet, ?_⟩
  rw [total, foldl_judge]
  rwa [frames]

-- Frames and an IP packet to one endpoint around a commit, which only worker 0 applies.
def sampleCalls : List (Call 2) :=
  [.frame 1 Lane.sampleFrame, .writeRule ⟨Lane.sampleKey, .forward⟩, .idle 1,
    .frame 1 Lane.sampleFrame, .idle 0, .frame 1 Lane.sampleFrame,
    .packet 0 (0x45 :: Lane.sampleFrame.drop 15)]

theorem run_start_two_workers :
    ChunkWidth.widest.totalChunks (sampleCalls.filterMap Call.frame?) < UInt64.size ∧
      ∃ exchanges last, (start {} .standard [true, false]).run sampleCalls = some (exchanges, last) ∧
        (∀ exchange ∈ exchanges, exchange.Meets {} [true, false]) ∧
        exchanges.map Exchange.reply =
          [.verdict false, .written, .step .idle, .verdict false,
            .step (.ruleApplied ⟨1, ⟨Lane.sampleKey, .forward⟩⟩), .verdict true, .verdict true] ∧
        last.console.tally = ⟨4, 4, 2, 2⟩ := by
  have few : ChunkWidth.widest.totalChunks (sampleCalls.filterMap Call.frame?) < UInt64.size := by
    decide
  obtain ⟨exchanges, last, ran, -, meet, -⟩ := run_start {} .standard {} [true, false] sampleCalls few
  have answers : ((start {} .standard [true, false]).run sampleCalls).map
      (fun (exchanges, last) => (exchanges.map Exchange.reply, last.console.tally)) =
        some ([.verdict false, .written, .step .idle, .verdict false,
          .step (.ruleApplied ⟨1, ⟨Lane.sampleKey, .forward⟩⟩), .verdict true, .verdict true],
          ⟨4, 4, 2, 2⟩) := by decide +kernel
  have same : (start {} .standard [true, false]).run sampleCalls = some (exchanges, last) := ran
  rw [same, Option.map_some, Option.some.injEq, Prod.mk.injEq] at answers
  exact ⟨few, exchanges, last, same, meet, answers.1, answers.2⟩

/-! ## 5. Reachable pools -/

variable {pool : Pool} {settings : GateSettings} {owners : List Bool}

def Reached (pool : Pool) (settings : GateSettings) (owners : List Bool) : Prop :=
  ∃ (table : RuleTable) (console : Console) (calls : List (Call owners.length))
    (exchanges : List (Exchange owners.length)),
    { start settings table owners with console := console }.run calls = some (exchanges, pool)

theorem reached_start (settings : GateSettings) (table : RuleTable) (owners : List Bool) :
    (start settings table owners).Reached settings owners :=
  ⟨table, {}, [], [], rfl⟩

theorem Reached.ready (h : pool.Reached settings owners) : pool.Ready settings owners := by
  obtain ⟨table, console, calls, exchanges, ran⟩ := h
  obtain ⟨_, last, same, -, -, ready, -⟩ := (ready_start settings table console owners).run calls
  rw [ran, Option.some.injEq, Prod.mk.injEq] at same
  rwa [same.2]

-- The verdict on a frame in any state of a pool, whatever the length of the frame.
theorem Reached.verdict (h : pool.Reached settings owners) (i : Fin owners.length)
    (frame : List UInt8) :
    ∃ after, pool.filterFrame i frame =
      some (decide (settings.AdmitsFrame pool.table.snapshot frame), after) := by
  obtain ⟨after, filtered, -⟩ := h.ready.filterFrame i frame
  exact ⟨after, filtered⟩

end Pool
end UdpGate
