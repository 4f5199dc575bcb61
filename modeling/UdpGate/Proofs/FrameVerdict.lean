import UdpGate.Engine
import UdpGate.Proofs.FrameChunks
import UdpGate.Proofs.GateRun

/-!
# What becomes of a whole frame

A gate that waits for a packet takes a frame chunk by chunk, and the verdict on its final chunk says
whether the frame is let through.  `GateSettings.AdmitsFrame` says in terms of the frame alone when
that is the case.  Draining an engine is a run of its lane over the chunks of the feed
(`Engine.drainFrom_eq`), and a count of ends of packets behind the gate grows exactly when the frame
is let through (`Engine.drain_frame`).
-/

namespace UdpGate

/-! ## 1. Frames that are let through -/

namespace GateSettings

/-- A frame that is let through: it reaches into the decision chunk, is long enough for its key, says
that it is UDP over IPv4, and the table forwards the key. -/
def AdmitsFrame (settings : GateSettings) (table : RuleTable) (frame : List UInt8) : Prop :=
  settings.width.decisionChunk * settings.width.bytes < frame.length ∧
    settings.endpoint.keyEnd ≤ frame.length ∧ SaysUdp frame ∧
    table.lookup (settings.endpoint.keyOf frame) = .forward

instance (settings : GateSettings) (table : RuleTable) (frame : List UInt8) :
    Decidable (settings.AdmitsFrame table frame) :=
  inferInstanceAs (Decidable (_ ∧ _ ∧ _ ∧ _))

def frameArrivals (settings : GateSettings) (table : RuleTable) (frame : List UInt8) :
    List Arrival :=
  (Chunk.split settings.width frame).map fun chunk => ⟨chunk, table⟩

variable (settings : GateSettings) (table : RuleTable) (frame : List UInt8)

theorem view_frameArrivals : settings.view (settings.frameArrivals table frame) = (frame[·]?) := by
  funext b
  rw [view, frameArrivals, List.map_map]
  exact (congrArg (packetByte? settings.width · b) (List.map_id _)).trans
    (packetByte?_split settings.width frame b)

-- Cutting a frame into chunks and putting them together again asks for nothing but the frame.
theorem admits_frameArrivals :
    settings.Admits (settings.frameArrivals table frame) ↔ settings.AdmitsFrame table frame := by
  have decision : (settings.frameArrivals table frame)[settings.width.decisionChunk]? =
      if settings.width.decisionChunk < settings.width.chunksFor frame.length then
        some ⟨ChunkCursor.chunkAt settings.width frame settings.width.decisionChunk, table⟩
      else none := by
    rw [frameArrivals, List.getElem?_map, ChunkCursor.getElem?_split]
    split <;> rfl
  rw [Admits, AdmitsFrame, decision, view_frameArrivals, namedKey?_frame]
  -- The empty frame has a chunk but no byte; it is told apart by its missing key.
  by_cases named : SaysUdp frame ∧ settings.endpoint.keyEnd ≤ frame.length
  · have some_byte : 0 < frame.length := by
      have : 0 < settings.endpoint.keyEnd := by cases settings.endpoint <;> decide
      omega
    rw [if_pos named, ← ChunkCursor.lt_chunksFor_iff some_byte]
    by_cases reached : settings.width.decisionChunk < settings.width.chunksFor frame.length
    · simp [reached, named.1, named.2]
    · simp [reached]
  · rw [if_neg named]
    constructor
    · rintro ⟨_, _, _, key, _⟩
      cases key
    · rintro ⟨_, long, udp, _⟩
      exact absurd ⟨udp, long⟩ named

end GateSettings

/-! ## 2. The verdicts on a frame -/

namespace Lane

theorem arrivals_map_chunk (table : RuleTable) (chunks : List Chunk) :
    arrivals table (chunks.map .chunk) = chunks.map fun chunk => ⟨chunk, table⟩ := by
  induction chunks with
  | nil => rfl
  | cons chunk chunks ih => rw [List.map_cons, arrivals, ih, List.map_cons]

theorem length_run_map_chunk (lane : Lane) (chunks : List Chunk) :
    (lane.run (chunks.map .chunk)).1.length = chunks.length := by
  induction chunks generalizing lane with
  | nil => rfl
  | cons chunk chunks ih => exact congrArg (· + 1) (ih (lane.classify chunk).2)

theorem filterMap_rule?_map_chunk (chunks : List Chunk) :
    (chunks.map Event.chunk).filterMap Event.rule? = [] := by
  rw [List.filterMap_map]
  exact List.filterMap_eq_nil_iff.mpr fun _ _ => rfl

def finalVerdict (chunks : Nat) (admitted : Bool) : Verdict where
  index := min (chunks - 1) maxIndex
  forwarded := admitted
  last := true

-- Only the final verdict on a frame ends a packet, and it forwards the frame if it is admitted.
theorem run_frame {settings : GateSettings} {lane : Lane} (h : lane.gate.Tracks settings [])
    (frame : List UInt8) :
    ∃ before : List Verdict, (∀ verdict ∈ before, verdict.last = false) ∧
      (lane.run ((Chunk.split settings.width frame).map .chunk)).1 = before ++
        [finalVerdict (settings.width.chunksFor frame.length)
          (decide (settings.AdmitsFrame lane.table frame))] := by
  obtain ⟨begun, final, cut, unfinished, last⟩ := Chunk.split_eq_concat settings.width frame
  have stream : settings.frameArrivals lane.table frame =
      begun.map (⟨·, lane.table⟩) ++ [⟨final, lane.table⟩] := by
    rw [GateSettings.frameArrivals, cut, List.map_append, List.map_singleton]
  have count : begun.length = settings.width.chunksFor frame.length - 1 := by
    rw [← Chunk.length_split, cut, List.length_append, List.length_singleton, Nat.add_sub_cancel]
  have one_packet : packets (settings.frameArrivals lane.table frame) =
      [settings.frameArrivals lane.table frame] := by
    rw [stream]
    exact packets_append_last (by simpa using unfinished) last []
  -- The gate waits for a packet, so the stream that the run lemma speaks of is this frame alone.
  have run := lane.run_of_tracks ((Chunk.split settings.width frame).map .chunk) h (by simp)
  have verdicts : (lane.run ((Chunk.split settings.width frame).map .chunk)).1 =
      (settings.verdicts (settings.frameArrivals lane.table frame)).map .saturated := by
    rw [List.nil_append, arrivals_map_chunk] at run
    refine run.trans ?_
    show ((packets (settings.frameArrivals lane.table frame)).flatMap settings.verdicts).map
      Verdict.saturated = _
    rw [one_packet, List.flatMap_singleton]
  refine ⟨(settings.verdicts (begun.map (⟨·, lane.table⟩))).map .saturated, ?_, ?_⟩
  · intro verdict given
    obtain ⟨unsaturated, among, rfl⟩ := List.mem_map.mp given
    obtain ⟨i, inside, rfl⟩ := List.mem_mapIdx.mp among
    simp only [Verdict.saturated, List.getElem_map]
    exact unfinished _ (List.getElem_mem _)
  · rw [verdicts, stream, GateSettings.verdicts_append, List.map_append, ← stream]
    simp only [← GateSettings.admits_iff, GateSettings.admits_frameArrivals, List.length_map, count,
      last]
    rfl

theorem foldl_record_of_unfinished {verdicts : List Verdict}
    (h : ∀ verdict ∈ verdicts, verdict.last = false) (tally : Tally) :
    verdicts.foldl (fun tally verdict => verdict.record tally) tally = tally := by
  induction verdicts with
  | nil => rfl
  | cons verdict verdicts ih =>
    have more := ih fun other mem => h other (List.mem_cons_of_mem verdict mem)
    rw [List.foldl_cons, Verdict.record, if_neg (by simp [h verdict List.mem_cons_self]), more]

-- A gate that waits for a packet waits for one again behind a frame.
theorem tracks_run_frame {settings : GateSettings} {lane : Lane}
    (h : lane.gate.Tracks settings []) (frame : List UInt8) :
    (lane.run ((Chunk.split settings.width frame).map .chunk)).2.gate.Tracks settings [] := by
  obtain ⟨begun, final, cut, -, last⟩ := Chunk.split_eq_concat settings.width frame
  have behind := lane.tracks_run ((Chunk.split settings.width frame).map .chunk) h
  have closed : (arrivals lane.table ((Chunk.split settings.width frame).map .chunk)).foldl
      inFlight [] = [] := by
    rw [arrivals_map_chunk, cut, List.map_append, List.map_singleton, List.foldl_append,
      List.foldl_cons, List.foldl_nil, inFlight, if_pos last]
  rwa [closed] at behind

theorem table_run_map_chunk (lane : Lane) (chunks : List Chunk) :
    (lane.run (chunks.map .chunk)).2.table = lane.table := by
  rw [table_run, filterMap_rule?_map_chunk, List.foldl_nil]

-- A frame is counted once, with its verdict, and only if the gate counts.
theorem tally_run_frame {settings : GateSettings} {lane : Lane}
    (h : lane.gate.Tracks settings []) (frame : List UInt8) :
    (lane.run ((Chunk.split settings.width frame).map .chunk)).2.tally =
      if settings.counts then
        (finalVerdict (settings.width.chunksFor frame.length)
          (decide (settings.AdmitsFrame lane.table frame))).record lane.tally
      else lane.tally := by
  obtain ⟨before, unfinished, verdicts⟩ := run_frame h frame
  rw [tally_run, verdicts, List.foldl_append, foldl_record_of_unfinished unfinished, h.settings_eq]
  rfl

end Lane

/-! ## 3. Draining -/

def forwardedChunks (chunks : List Chunk) (verdicts : List Verdict) : List Chunk :=
  ((chunks.zip verdicts).filter (·.2.forwarded)).map Prod.fst

theorem forwardedChunks_cons (chunk : Chunk) (chunks : List Chunk) (verdict : Verdict)
    (verdicts : List Verdict) :
    forwardedChunks (chunk :: chunks) (verdict :: verdicts) =
      if verdict.forwarded then chunk :: forwardedChunks chunks verdicts
      else forwardedChunks chunks verdicts := by
  rw [forwardedChunks, List.zip_cons_cons, List.filter_cons]
  split <;> rfl

theorem mem_of_mem_forwardedChunks {chunks : List Chunk} {verdicts : List Verdict} {chunk : Chunk}
    (h : chunk ∈ forwardedChunks chunks verdicts) : chunk ∈ chunks := by
  obtain ⟨⟨_, verdict⟩, kept, rfl⟩ := List.mem_map.mp h
  exact (List.of_mem_zip (List.mem_filter.mp kept).1).1

-- Of a packet that is cut into chunks, an end passes if its final chunk does.
theorem countP_last_forwardedChunks {begun : List Chunk} {final : Chunk} {before : List Verdict}
    {verdict : Verdict} (paired : begun.length = before.length)
    (unfinished : ∀ chunk ∈ begun, chunk.last = false) (last : final.last = true) :
    (forwardedChunks (begun ++ [final]) (before ++ [verdict])).countP (·.last) =
      if verdict.forwarded then 1 else 0 := by
  have front : (forwardedChunks begun before).countP (·.last) = 0 := by
    rw [List.countP_eq_zero]
    intro chunk kept
    simp [unfinished chunk (mem_of_mem_forwardedChunks kept)]
  have split : forwardedChunks (begun ++ [final]) (before ++ [verdict]) =
      forwardedChunks begun before ++ forwardedChunks [final] [verdict] := by
    rw [forwardedChunks, List.zip_append paired, List.filter_append, List.map_append]
    rfl
  rw [split, List.countP_append, front, forwardedChunks_cons, Nat.zero_add]
  cases verdict.forwarded with
  | true => simp [forwardedChunks, last]
  | false => simp [forwardedChunks]

theorem PassCount.packets_foldl_put (chunks : List Chunk) (count : PassCount) :
    (chunks.foldl Outlet.put count).packets = count.packets + chunks.countP (·.last) := by
  induction chunks generalizing count with
  | nil => rfl
  | cons chunk chunks ih =>
    have put : (Outlet.put count chunk).packets = count.packets + if chunk.last then 1 else 0 := rfl
    rw [List.foldl_cons, ih, put, List.countP_cons]
    omega

namespace Engine

theorem forward_eq [Outlet ω] (engine : Engine) (outlet : ω) (chunk : Chunk) :
    engine.forward outlet chunk =
      ((engine.lane.classify chunk).1,
        { engine with lane := (engine.lane.classify chunk).2 },
        if (engine.lane.classify chunk).1.forwarded then Outlet.put outlet chunk else outlet) := rfl

-- Draining is a run of the lane over the chunks of the feed, and the outlet takes those that
-- pass.  By induction on the feed.
theorem drainFrom_eq [Feed φ] [Outlet ω] (count : Nat) (engine : Engine) (feed : φ) (outlet : ω) :
    ∃ rest : φ, Feed.next? rest = none ∧
      engine.drainFrom count feed outlet =
        (count + (Feed.chunks feed).length,
          { engine with lane := (engine.lane.run ((Feed.chunks feed).map .chunk)).2 },
          rest,
          (forwardedChunks (Feed.chunks feed)
            (engine.lane.run ((Feed.chunks feed).map .chunk)).1).foldl Outlet.put outlet) := by
  fun_induction drainFrom count engine feed outlet with
  | case1 count engine feed outlet ended =>
    exact ⟨feed, ended, by rw [Feed.chunks_of_none ended]; rfl⟩
  | case2 count engine feed outlet chunk rest taken verdict after passed forwarded ih =>
    obtain ⟨emptied, ended, drained⟩ := ih
    rw [forward_eq, Prod.mk.injEq, Prod.mk.injEq] at forwarded
    obtain ⟨rfl, rfl, rfl⟩ := forwarded
    refine ⟨emptied, ended, drained.trans ?_⟩
    rw [Feed.chunks_of_some taken, List.length_cons, List.map_cons, Nat.add_assoc, Nat.add_comm 1]
    simp only [Lane.run, forwardedChunks_cons]
    split
    · rw [List.foldl_cons]
    · rfl

/-- **A frame.**  A gate that waits for a packet takes all chunks of a frame and waits again; the
table stays as it is, the frame is counted, and its end passes if it is let through. -/
theorem drain_frame {settings : GateSettings} (engine : Engine)
    (h : engine.lane.gate.Tracks settings []) (frame : List UInt8) (count : PassCount) :
    ∃ (lane : Lane) (emptied : ChunkCursor) (passed : PassCount),
      engine.drain (.ofPacket settings.width frame) count =
        (settings.width.chunksFor frame.length, { engine with lane := lane }, emptied, passed) ∧
      lane.gate.Tracks settings [] ∧
      lane.table = engine.lane.table ∧
      lane.tally =
        (if settings.counts then
          (Lane.finalVerdict (settings.width.chunksFor frame.length)
            (decide (settings.AdmitsFrame engine.lane.table frame))).record engine.lane.tally
        else engine.lane.tally) ∧
      passed.packets =
        count.packets + if settings.AdmitsFrame engine.lane.table frame then 1 else 0 := by
  obtain ⟨emptied, -, drained⟩ :=
    engine.drainFrom_eq 0 (ChunkCursor.ofPacket settings.width frame) count
  have chunks : Feed.chunks (ChunkCursor.ofPacket settings.width frame) =
      Chunk.split settings.width frame := (ChunkCursor.toList_eq_chunks _).symm
  rw [chunks, Chunk.length_split, Nat.zero_add] at drained
  refine ⟨_, _, _, drained, Lane.tracks_run_frame h frame, Lane.table_run_map_chunk _ _,
    Lane.tally_run_frame h frame, ?_⟩
  obtain ⟨begun, final, cut, unfinished, last⟩ := Chunk.split_eq_concat settings.width frame
  obtain ⟨before, -, verdicts⟩ := Lane.run_frame h frame
  have paired : begun.length = before.length := by
    have same := engine.lane.length_run_map_chunk (Chunk.split settings.width frame)
    rw [verdicts, cut] at same
    simpa using same.symm
  rw [PassCount.packets_foldl_put, verdicts, cut, countP_last_forwardedChunks paired unfinished last]
  simp [Lane.finalVerdict]

end Engine
end UdpGate
