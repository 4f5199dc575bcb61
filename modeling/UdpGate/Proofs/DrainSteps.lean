import UdpGate.Proofs.MailboxRun

/-!
# Draining and stepping

Draining passes the chunks of a feed without a look at the mailbox; stepping looks at the mailbox
whenever its feed is empty.  As long as there are chunks the two do the same, whatever the feed is
made of and wherever the chunks go (`Engine.drain_eq_steps`).  So a frame may be cut while it is
drained or before, and an outlet that only counts can stand for one that keeps what it is given
(`Engine.drain_queue`).
-/

namespace UdpGate

/-! ## 1. Feeds and outlets as lists -/

theorem ChunkQueue.chunks_eq_toList (queue : ChunkQueue) : Feed.chunks queue = queue.toList := by
  fun_induction Feed.chunks queue with
  | case1 queue ended => exact (pop?_eq_none_iff.mp ended).symm
  | case2 queue chunk rest taken ih => rw [toList_of_pop? taken, ih]

def Outlet.putAll [Outlet ω] (outlet : ω) (chunks : List Chunk) : ω := chunks.foldl put outlet

theorem Outlet.toList_putAll_array (chunks : List Chunk) (array : Array Chunk) :
    (putAll array chunks).toList = array.toList ++ chunks := by
  induction chunks generalizing array with
  | nil => exact (List.append_nil _).symm
  | cons chunk chunks ih =>
    have rest := ih (array.push chunk)
    rw [Array.toList_push, List.append_assoc] at rest
    exact rest

theorem Outlet.toList_putAll_queue (chunks : List Chunk) (queue : ChunkQueue) :
    (putAll queue chunks).toList = queue.toList ++ chunks :=
  queue.toList_pushAll chunks

theorem PassCount.chunks_foldl_put (chunks : List Chunk) (count : PassCount) :
    (chunks.foldl Outlet.put count).chunks = count.chunks + chunks.length := by
  induction chunks generalizing count with
  | nil => rfl
  | cons chunk chunks ih =>
    have put : (Outlet.put count chunk).chunks = count.chunks + 1 := rfl
    rw [List.foldl_cons, ih, put, List.length_cons, Nat.add_assoc, Nat.add_comm 1]

theorem Outlet.putAll_count (chunks : List Chunk) (count : PassCount) :
    putAll count chunks =
      { chunks := count.chunks + chunks.length
        packets := count.packets + chunks.countP (·.last) } := by
  rw [← PassCount.chunks_foldl_put, ← PassCount.packets_foldl_put]
  rfl

theorem forwardedChunks_sublist (chunks : List Chunk) (verdicts : List Verdict) :
    (forwardedChunks chunks verdicts).Sublist chunks := by
  induction chunks generalizing verdicts with
  | nil => exact List.Sublist.refl _
  | cons chunk chunks ih =>
    cases verdicts with
    | nil => exact List.nil_sublist _
    | cons verdict verdicts =>
      rw [forwardedChunks_cons]
      split
      · exact (ih verdicts).cons_cons chunk
      · exact (ih verdicts).cons chunk

/-! ## 2. Steps -/

namespace Engine

def steps [Feed φ] [Outlet ω] : Nat → Engine → φ → ω → List StepOutcome × Engine × φ × ω
  | 0, engine, feed, outlet => ([], engine, feed, outlet)
  | n + 1, engine, feed, outlet =>
    let (outcome, engine, feed, outlet) := engine.step feed outlet
    let (outcomes, last) := steps n engine feed outlet
    (outcome :: outcomes, last)

-- A step for each chunk leaves the engine, the feed and the outlet as draining does.
theorem steps_eq_drainFrom [Feed φ] [Outlet ω] (count : Nat) (engine : Engine) (feed : φ)
    (outlet : ω) :
    steps (Feed.chunks feed).length engine feed outlet =
      ((engine.lane.run ((Feed.chunks feed).map .chunk)).1.map .chunk,
        (engine.drainFrom count feed outlet).2) := by
  fun_induction drainFrom count engine feed outlet with
  | case1 count engine feed outlet ended =>
    rw [Feed.chunks_of_none ended]
    rfl
  | case2 count engine feed outlet chunk rest taken verdict after passed forwarded ih =>
    rw [forward_eq, Prod.mk.injEq, Prod.mk.injEq] at forwarded
    obtain ⟨rfl, rfl, rfl⟩ := forwarded
    rw [Feed.chunks_of_some taken, List.length_cons, steps, step_of_some engine taken]
    show (_ :: (steps (Feed.chunks rest).length _ rest _).1, _) = _
    rw [forward_eq, ih]
    rfl

/-- What draining leaves as it was: the registers, the commit that is waiting, and the table. -/
structure Untouched (before after : Engine) : Prop where
  mailbox : after.mailbox = before.mailbox
  applied : after.applied = before.applied
  pending : after.pending? = before.pending?
  table : after.lane.table = before.lane.table

def afterChunks (engine : Engine) (chunks : List Chunk) : Engine :=
  { engine with lane := (engine.lane.run (chunks.map .chunk)).2 }

theorem untouched_afterChunks (engine : Engine) (chunks : List Chunk) :
    Untouched engine (engine.afterChunks chunks) :=
  ⟨rfl, rfl, rfl, engine.lane.table_run_map_chunk chunks⟩

def verdictsOn (engine : Engine) (chunks : List Chunk) : List Verdict :=
  (engine.lane.run (chunks.map .chunk)).1

/-- Of any feed of some chunks draining and stepping make the same, and what they make of it depends
on the chunks alone. -/
theorem drain_eq_steps [Feed φ] [Outlet ω] (engine : Engine) {feed : φ} {chunks : List Chunk}
    (view : Feed.chunks feed = chunks) (outlet : ω) :
    ∃ emptied : φ, Feed.next? emptied = none ∧
      engine.drain feed outlet =
        (chunks.length, engine.afterChunks chunks, emptied,
          Outlet.putAll outlet (forwardedChunks chunks (engine.verdictsOn chunks))) ∧
      steps chunks.length engine feed outlet =
        ((engine.verdictsOn chunks).map .chunk, engine.afterChunks chunks, emptied,
          Outlet.putAll outlet (forwardedChunks chunks (engine.verdictsOn chunks))) := by
  subst view
  obtain ⟨emptied, ended, drained⟩ := engine.drainFrom_eq 0 feed outlet
  rw [Nat.zero_add] at drained
  refine ⟨emptied, ended, drained, ?_⟩
  rw [steps_eq_drainFrom 0, drained]
  rfl

/-- What comes of draining a queue, by the verdicts on its chunks, the engine that it leaves, and the
chunks that pass. -/
structure Drains (engine : Engine) (queue : ChunkQueue) (verdicts : List Verdict) (after : Engine)
    (passed : List Chunk) : Prop where
  length_eq : verdicts.length = queue.length
  untouched : Untouched engine after
  passed_eq : passed = forwardedChunks queue.toList verdicts
  sublist : passed.Sublist queue.toList
  stepped : ∀ {ω : Type} [Outlet ω] (outlet : ω), ∃ emptied : ChunkQueue, emptied.toList = [] ∧
    engine.drain queue outlet = (queue.length, after, emptied, Outlet.putAll outlet passed) ∧
    steps queue.length engine queue outlet =
      (verdicts.map .chunk, after, emptied, Outlet.putAll outlet passed)
  uncut : ∀ (width : ChunkWidth) (frame : List UInt8), queue.toList = Chunk.split width frame →
    ∀ {ω : Type} [Outlet ω] (outlet : ω), ∃ emptied : ChunkCursor, emptied.next? = none ∧
      engine.drain (ChunkCursor.ofPacket width frame) outlet =
        (queue.length, after, emptied, Outlet.putAll outlet passed)
  array : ∀ array : Array Chunk, (Outlet.putAll array passed).toList = array.toList ++ passed
  onward : ∀ onward : ChunkQueue, (Outlet.putAll onward passed).toList = onward.toList ++ passed
  count : ∀ count : PassCount, Outlet.putAll count passed =
    { chunks := count.chunks + passed.length
      packets := count.packets + passed.countP (·.last) }
  words : ∀ count : PassCount, (Outlet.putAll count passed).words =
    (count.words.1 + UInt64.ofNat passed.length,
      count.words.2 + UInt64.ofNat (passed.countP (·.last)))

/-- **A queue.**  Draining a queue does what a step for each of its chunks does, and leaves the
registers, the commit that is waiting and the table as they were.  The verdicts are the same for
every outlet, which is given the forwarded chunks in their order.  A cursor over a frame is drained
like a queue of the frame's chunks.  An outlet that counts shows how many chunks, and how many ends of
packets, an outlet that keeps its chunks has received. -/
theorem drain_queue (engine : Engine) (queue : ChunkQueue) :
    engine.Drains queue (engine.verdictsOn queue.toList) (engine.afterChunks queue.toList)
      (forwardedChunks queue.toList (engine.verdictsOn queue.toList)) where
  length_eq := (engine.lane.length_run_map_chunk queue.toList).trans queue.length_toList
  untouched := engine.untouched_afterChunks queue.toList
  passed_eq := rfl
  sublist := forwardedChunks_sublist _ _
  stepped := by
    intro ω _ outlet
    obtain ⟨emptied, ended, same⟩ := engine.drain_eq_steps queue.chunks_eq_toList outlet
    rw [queue.length_toList] at same
    exact ⟨emptied, ChunkQueue.pop?_eq_none_iff.mp ended, same⟩
  uncut := by
    intro width frame cut ω _ outlet
    have chunks : Feed.chunks (ChunkCursor.ofPacket width frame) = queue.toList :=
      (ChunkCursor.toList_eq_chunks _).symm.trans cut.symm
    obtain ⟨emptied, ended, drained, -⟩ := engine.drain_eq_steps chunks outlet
    rw [queue.length_toList] at drained
    exact ⟨emptied, ended, drained⟩
  array := Outlet.toList_putAll_array _
  onward := Outlet.toList_putAll_queue _
  count := Outlet.putAll_count _
  words := by
    intro count
    rw [Outlet.putAll_count, PassCount.words, UInt64.ofNat_add, UInt64.ofNat_add]
    rfl

end Engine
end UdpGate
