import UdpGate.Proofs.PoolRun

/-!
# The width of the chunks and the verdict on a frame

A gate decides when the chunk with the last header byte comes.  A frame that ends in front of that
chunk is dropped; one that reaches into it is judged by its key, even if it ends inside the header.
Where the chunk begins depends on the width.  So the width makes no difference to a frame with a
whole header (`Pool.filterFrame_of_whole_header`), but two widths disagree about a shorter one that
names a forwarded key and reaches into the decision chunk at one of them only.
-/

namespace UdpGate

def ChunkWidth.decisionStart (width : ChunkWidth) : Nat := width.decisionChunk * width.bytes

theorem ChunkWidth.decisionStart_lt (width : ChunkWidth) : width.decisionStart < headerLength := by
  have le : width.decisionStart ≤ headerLength - 1 := Nat.div_mul_le_self _ _
  unfold headerLength at le ⊢
  omega

def Endpoint.Allows (endpoint : Endpoint) (table : RuleTable) (frame : List UInt8) : Prop :=
  endpoint.keyEnd ≤ frame.length ∧ SaysUdp frame ∧ table.lookup (endpoint.keyOf frame) = .forward

theorem GateSettings.admitsFrame_iff (settings : GateSettings) (table : RuleTable)
    (frame : List UInt8) :
    settings.AdmitsFrame table frame ↔
      settings.width.decisionStart < frame.length ∧ settings.endpoint.Allows table frame := Iff.rfl

namespace Pool

variable {pool other : Pool} {settings others : GateSettings} {owners otherOwners : List Bool}

-- Frames with a whole header get the same verdict at all widths.
theorem filterFrame_of_whole_header (h : pool.Reached settings owners)
    (hother : other.Reached others otherOwners) (endpoint : others.endpoint = settings.endpoint)
    (table : other.table = pool.table) (i : Fin owners.length) (j : Fin otherOwners.length)
    {frame : List UInt8} (whole : headerLength ≤ frame.length) :
    (other.filterFrame j frame).map Prod.fst = (pool.filterFrame i frame).map Prod.fst := by
  obtain ⟨after, filtered⟩ := h.verdict i frame
  obtain ⟨otherAfter, otherFiltered⟩ := hother.verdict j frame
  have reached := Nat.lt_of_lt_of_le settings.width.decisionStart_lt whole
  have otherReached := Nat.lt_of_lt_of_le others.width.decisionStart_lt whole
  have same : others.AdmitsFrame pool.table.snapshot frame ↔
      settings.AdmitsFrame pool.table.snapshot frame := by
    rw [GateSettings.admitsFrame_iff, GateSettings.admitsFrame_iff, endpoint]
    exact and_congr (iff_of_true otherReached reached) Iff.rfl
  rw [filtered, otherFiltered, Option.map_some, Option.map_some, table, decide_eq_decide.mpr same]

/-- **What the width changes.**  Pools with the same table and endpoint disagree about a frame
exactly if its key is forwarded and it reaches into the decision chunk at one of the widths only.
Such a frame ends behind its key and inside the header. -/
theorem filterFrame_ne_iff_of_width (h : pool.Reached settings owners)
    (hother : other.Reached others otherOwners) (endpoint : others.endpoint = settings.endpoint)
    (table : other.table = pool.table) (i : Fin owners.length) (j : Fin otherOwners.length)
    (frame : List UInt8) :
    ∃ verdict otherVerdict after otherAfter,
      pool.filterFrame i frame = some (verdict, after) ∧
      other.filterFrame j frame = some (otherVerdict, otherAfter) ∧
      (verdict ≠ otherVerdict ↔
        settings.endpoint.Allows pool.table.snapshot frame ∧
          min settings.width.decisionStart others.width.decisionStart < frame.length ∧
          frame.length ≤ max settings.width.decisionStart others.width.decisionStart) := by
  obtain ⟨after, filtered⟩ := h.verdict i frame
  obtain ⟨otherAfter, otherFiltered⟩ := hother.verdict j frame
  refine ⟨_, _, after, otherAfter, filtered, otherFiltered, ?_⟩
  rw [ne_eq, decide_eq_decide, GateSettings.admitsFrame_iff, GateSettings.admitsFrame_iff, table,
    endpoint]
  by_cases allowed : settings.endpoint.Allows pool.table.snapshot frame
  · simp only [allowed, and_true, true_and]
    omega
  · simp [allowed]

-- The sample frame, cut behind the port that it is sent to.
def cutFrame : List UInt8 := Lane.sampleFrame.take 38

-- A table that forwards the sample frame.
def sampleTable : RuleTable := RuleTable.standard.insert ⟨Lane.sampleKey, .forward⟩

theorem filterFrame_ne_iff_of_width_widest :
    (start {} sampleTable [true]).Reached {} [true] ∧
      (start { width := { bytes := 8 } } sampleTable [true]).Reached
        { width := { bytes := 8 } } [true] ∧
      ∃ verdict otherVerdict after otherAfter,
        (start {} sampleTable [true]).filterFrame 0 cutFrame = some (verdict, after) ∧
        (start { width := { bytes := 8 } } sampleTable [true]).filterFrame 0 cutFrame =
          some (otherVerdict, otherAfter) ∧
        verdict ≠ otherVerdict := by
  have wide := reached_start {} sampleTable [true]
  have narrow := reached_start { width := { bytes := 8 } } sampleTable [true]
  obtain ⟨verdict, otherVerdict, after, otherAfter, filtered, otherFiltered, iff⟩ :=
    filterFrame_ne_iff_of_width wide narrow rfl rfl 0 0 cutFrame
  refine ⟨wide, narrow, verdict, otherVerdict, after, otherAfter, filtered, otherFiltered, ?_⟩
  exact iff.mpr ⟨⟨by decide, by decide, by decide +kernel⟩, by decide, by decide⟩

-- The width is not only a matter of transport: 38 bytes of a frame pass in one chunk of 64 bytes,
-- and are dropped in chunks of 8 bytes, none of which is the decision chunk.
theorem filterFrame_differs_by_width :
    ¬ ∀ (width other : ChunkWidth) (endpoint : Endpoint) (table : RuleTable) (frame : List UInt8),
      ((start { width := width, endpoint := endpoint } table [true]).filterFrame 0 frame).map
          Prod.fst =
        ((start { width := other, endpoint := endpoint } table [true]).filterFrame 0 frame).map
          Prod.fst := by
  intro same
  have cut := same .widest { bytes := 8 } .destination sampleTable cutFrame
  revert cut
  decide +kernel

end Pool
end UdpGate
