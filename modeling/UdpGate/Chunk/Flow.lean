import UdpGate.Chunk.Cursor

/-!
# Where chunks come from and where they go

A feed yields chunks until it is empty; an outlet takes the chunks that passed.  The feeds are a
queue and a cursor over one packet.  The outlets are a growing array, a queue, and a pair of counts
that keeps no chunk.
-/

namespace UdpGate

/-! ## 1. A first-in first-out queue -/

/-- A queue of chunks: `front` leaves first, `back` holds the newest chunk first. -/
structure ChunkQueue where
  front : List Chunk := []
  back : List Chunk := []

namespace ChunkQueue

def toList (queue : ChunkQueue) : List Chunk := queue.front ++ queue.back.reverse

def length (queue : ChunkQueue) : Nat := queue.front.length + queue.back.length

def push (queue : ChunkQueue) (chunk : Chunk) : ChunkQueue :=
  { queue with back := chunk :: queue.back }

def pushAll (queue : ChunkQueue) (chunks : List Chunk) : ChunkQueue :=
  chunks.foldl push queue

def pop? (queue : ChunkQueue) : Option (Chunk × ChunkQueue) :=
  match queue.front with
  | chunk :: front => some (chunk, { queue with front := front })
  | [] =>
    match queue.back.reverse with
    | chunk :: front => some (chunk, { front := front })
    | [] => none

@[simp] theorem length_toList (queue : ChunkQueue) : queue.toList.length = queue.length := by
  simp [toList, length]

@[simp] theorem toList_push (queue : ChunkQueue) (chunk : Chunk) :
    (queue.push chunk).toList = queue.toList ++ [chunk] := by
  simp [push, toList]

theorem toList_pushAll (queue : ChunkQueue) (chunks : List Chunk) :
    (queue.pushAll chunks).toList = queue.toList ++ chunks := by
  induction chunks generalizing queue with
  | nil => simp [pushAll]
  | cons chunk rest ih =>
    have step := ih (queue.push chunk)
    simp only [pushAll, List.foldl_cons] at step ⊢
    simp [step]

theorem toList_of_pop? {queue after : ChunkQueue} {chunk : Chunk}
    (h : queue.pop? = some (chunk, after)) : queue.toList = chunk :: after.toList := by
  unfold pop? at h
  unfold toList
  split at h
  · rename_i front hf
    cases h
    simp [hf]
  · rename_i hf
    split at h
    · rename_i front hb
      cases h
      simp [hf, hb]
    · cases h

theorem pop?_eq_none_iff {queue : ChunkQueue} : queue.pop? = none ↔ queue.toList = [] := by
  unfold pop? toList
  split
  · rename_i hf
    simp [hf]
  · rename_i hf
    split
    · rename_i hb
      simp [hf, hb]
    · rename_i hb
      simp [hf, hb]

end ChunkQueue

/-! ## 2. Feeds -/

/-- A feed yields chunks one at a time, and `left` bounds how many it has yet to yield. -/
class Feed (φ : Type) where
  next? : φ → Option (Chunk × φ)
  left : φ → Nat
  left_lt {feed after : φ} {chunk : Chunk} :
    next? feed = some (chunk, after) → left after < left feed

instance : Feed ChunkCursor where
  next? := ChunkCursor.next?
  left := ChunkCursor.measure
  left_lt := ChunkCursor.measure_lt_of_next?

instance : Feed ChunkQueue where
  next? := ChunkQueue.pop?
  left := ChunkQueue.length
  left_lt h := by
    have view := congrArg List.length (ChunkQueue.toList_of_pop? h)
    simp at view
    omega

/-! ## 3. Outlets -/

class Outlet (ω : Type) where
  put : ω → Chunk → ω

instance : Outlet (Array Chunk) := ⟨Array.push⟩

instance : Outlet ChunkQueue := ⟨ChunkQueue.push⟩

/-- An outlet that counts chunks and ends of packets, and keeps neither.  The counts have no bound
here; a run keeps them in words. -/
structure PassCount where
  chunks : Nat := 0
  packets : Nat := 0
deriving DecidableEq

def PassCount.words (count : PassCount) : UInt64 × UInt64 :=
  (UInt64.ofNat count.chunks, UInt64.ofNat count.packets)

def PassCount.put (count : PassCount) (chunk : Chunk) : PassCount where
  chunks := count.chunks + 1
  packets := count.packets + if chunk.last then 1 else 0

instance : Outlet PassCount := ⟨PassCount.put⟩

end UdpGate
