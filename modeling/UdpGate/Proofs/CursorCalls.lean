import UdpGate.Proofs.CanonicalChunks

/-!
# Asking a cursor for chunks

A cursor is asked for one chunk after the other, as often as one likes.  Behind any number of calls
it stands so many widths into the packet (`ChunkCursor.Stands`); so the number of chunks that it
still announces is the number of calls that it still answers with a chunk, and what it has left is
the rest of the packet (`ChunkCursor.polled_ofPacket`).
-/

namespace UdpGate
namespace ChunkCursor

/-! ## 1. How many chunks are left -/

section Counting

variable {width : ChunkWidth} {length k : Nat}

-- Every chunk but the first begins inside the packet.
theorem succ_lt_chunksFor_iff : k + 1 < width.chunksFor length ↔ (k + 1) * width.bytes < length := by
  by_cases empty : length = 0
  · rw [empty, chunksFor_of_le (Nat.zero_le _)]
    omega
  · exact lt_chunksFor_iff (Nat.pos_of_ne_zero empty)

theorem mul_bytes_le_of_lt (h : k < width.chunksFor length) : k * width.bytes ≤ length := by
  cases k with
  | zero => rw [Nat.zero_mul]; exact Nat.zero_le _
  | succ k => exact Nat.le_of_lt (succ_lt_chunksFor_iff.mp h)

theorem le_mul_bytes_of_le (h : width.chunksFor length ≤ k) : length ≤ k * width.bytes := by
  cases k with
  | zero =>
    have some_chunk : 1 ≤ width.chunksFor length := Nat.le_max_right _ _
    omega
  | succ k => exact Nat.le_of_not_lt (mt succ_lt_chunksFor_iff.mpr (Nat.not_lt_of_le h))

-- By induction on the chunks that are gone.
theorem chunksFor_sub_mul (h : k < width.chunksFor length) :
    width.chunksFor (length - k * width.bytes) = width.chunksFor length - k := by
  induction k with
  | zero => rw [Nat.zero_mul, Nat.sub_zero, Nat.sub_zero]
  | succ k ih =>
    have reached := succ_lt_chunksFor_iff.mp h
    have before := ih (Nat.lt_of_succ_lt h)
    rw [Nat.succ_mul] at reached ⊢
    have long : width.bytes < length - k * width.bytes := by omega
    rw [chunksFor_of_lt long, Nat.sub_sub] at before
    omega

end Counting

/-! ## 2. Calls -/

def polled (cursor : ChunkCursor) : Nat → ChunkCursor
  | 0 => cursor
  | k + 1 => (cursor.polled k).poll.2

/-- A cursor that has answered `k` calls for the chunks of a packet: it stands `k` widths into the
packet and has finished if these were all of its chunks. -/
structure Stands (width : ChunkWidth) (packet : List UInt8) (k : Nat) (cursor : ChunkCursor) :
    Prop where
  width_eq : cursor.width = width
  rest_eq : cursor.rest = packet.drop (k * width.bytes)
  finished_iff : cursor.finished ↔ width.chunksFor packet.length ≤ k

variable {width : ChunkWidth} {packet : List UInt8} {k : Nat} {cursor : ChunkCursor}

theorem stands_ofPacket (width : ChunkWidth) (packet : List UInt8) :
    (ofPacket width packet).Stands width packet 0 where
  width_eq := rfl
  rest_eq := by
    rw [Nat.zero_mul]
    rfl
  finished_iff := by
    have some_chunk : 1 ≤ width.chunksFor packet.length := Nat.le_max_right _ _
    refine iff_of_false Bool.false_ne_true ?_
    omega

theorem Stands.next?_of_lt (h : cursor.Stands width packet k)
    (more : k < width.chunksFor packet.length) :
    cursor.next? = some (chunkAt width packet k,
      ⟨width, packet.drop ((k + 1) * width.bytes), decide (width.chunksFor packet.length ≤ k + 1)⟩) := by
  have going : cursor.finished = false := by
    rw [← Bool.not_eq_true, h.finished_iff]
    omega
  have behind : cursor.rest.drop cursor.width.bytes = packet.drop ((k + 1) * width.bytes) := by
    rw [h.rest_eq, h.width_eq, List.drop_drop, Nat.succ_mul]
  have last : (packet.drop ((k + 1) * width.bytes)).isEmpty =
      decide (width.chunksFor packet.length ≤ k + 1) := by
    rw [Bool.eq_iff_iff, List.isEmpty_iff, List.drop_eq_nil_iff, decide_eq_true_iff, ← Nat.not_lt,
      ← Nat.not_lt, succ_lt_chunksFor_iff]
  have marked : decide (k + 1 = width.chunksFor packet.length) =
      decide (width.chunksFor packet.length ≤ k + 1) := by
    rw [decide_eq_decide]
    omega
  rw [next?, going, chunkAt, marked, ← last, ← behind, ← h.rest_eq, ← h.width_eq]
  rfl

theorem Stands.next?_of_le (h : cursor.Stands width packet k)
    (gone : width.chunksFor packet.length ≤ k) : cursor.next? = none := by
  rw [next?, if_pos (h.finished_iff.mpr gone)]

theorem Stands.poll (h : cursor.Stands width packet k) :
    cursor.poll.1 =
      (if k < width.chunksFor packet.length then some (chunkAt width packet k) else none) ∧
    cursor.poll.2.Stands width packet (k + 1) := by
  by_cases more : k < width.chunksFor packet.length
  · rw [ChunkCursor.poll, h.next?_of_lt more, if_pos more]
    exact ⟨rfl, rfl, rfl, decide_eq_true_iff⟩
  · have gone : width.chunksFor packet.length ≤ k := Nat.le_of_not_lt more
    rw [ChunkCursor.poll, h.next?_of_le gone, if_neg more]
    refine ⟨rfl, h.width_eq, ?_, ?_⟩
    · have whole : packet.length ≤ k * width.bytes := le_mul_bytes_of_le gone
      have further : packet.length ≤ (k + 1) * width.bytes :=
        le_mul_bytes_of_le (Nat.le_succ_of_le gone)
      rw [h.rest_eq, List.drop_eq_nil_of_le whole, List.drop_eq_nil_of_le further]
    · exact iff_of_true (h.finished_iff.mpr gone) (Nat.le_succ_of_le gone)

theorem Stands.polled (h : cursor.Stands width packet k) (m : Nat) :
    (cursor.polled m).Stands width packet (k + m) := by
  induction m with
  | zero => exact h
  | succ m ih => exact ih.poll.2

/-! ## 3. What a cursor announces and has left -/

theorem Stands.remaining_eq (h : cursor.Stands width packet k) :
    cursor.remaining = width.chunksFor packet.length - k := by
  rw [remaining]
  by_cases more : k < width.chunksFor packet.length
  · have going : ¬ cursor.finished := by
      rw [h.finished_iff]
      omega
    rw [if_neg going, h.width_eq, h.rest_eq, List.length_drop, chunksFor_sub_mul more]
  · have gone : width.chunksFor packet.length ≤ k := Nat.le_of_not_lt more
    rw [if_pos (h.finished_iff.mpr gone), Nat.sub_eq_zero_of_le gone]

theorem size?_eq (cursor : ChunkCursor) : cursor.size? = some cursor.remaining := if_pos rfl

theorem Stands.join_toList (h : cursor.Stands width packet k) :
    Chunk.join cursor.toList = packet.drop (min (k * width.bytes) packet.length) := by
  by_cases more : k < width.chunksFor packet.length
  · have begun : cursor = ofPacket width (packet.drop (k * width.bytes)) := by
      have going : cursor.finished = false := by
        rw [← Bool.not_eq_true, h.finished_iff]
        omega
      rw [← h.rest_eq, ← h.width_eq, ofPacket, ← going]
    obtain ⟨front, final, cut⟩ := Chunk.exists_cutInto width (packet.drop (k * width.bytes))
    rw [begun, ← Chunk.split, cut.split_eq, cut.join_eq, Nat.min_eq_left (mul_bytes_le_of_lt more)]
  · have gone : width.chunksFor packet.length ≤ k := Nat.le_of_not_lt more
    have ended : Feed.next? cursor = none := h.next?_of_le gone
    rw [toList_eq_chunks, Feed.chunks_of_none ended, Chunk.join_nil,
      Nat.min_eq_right (le_mul_bytes_of_le gone), List.drop_length]

-- Chunk `k` has the bytes between two ends that do not go past the packet's.
theorem chunkAt_eq_ofBytes_extract (width : ChunkWidth) (packet : List UInt8)
    (h : k < width.chunksFor packet.length) :
    chunkAt width packet k =
      Chunk.ofBytes
        (packet.extract (k * width.bytes) (min ((k + 1) * width.bytes) packet.length))
        (decide (k = width.chunksFor packet.length - 1)) := by
  have marked : decide (k + 1 = width.chunksFor packet.length) =
      decide (k = width.chunksFor packet.length - 1) := by
    rw [decide_eq_decide]
    omega
  have cut : min ((k + 1) * width.bytes) packet.length - k * width.bytes =
      min width.bytes (packet.drop (k * width.bytes)).length := by
    rw [Nat.succ_mul, List.length_drop]
    have := mul_bytes_le_of_lt h
    omega
  rw [chunkAt, marked, List.extract_eq_take_drop, cut, ← List.take_eq_take_min]

/-- **Calls to a cursor.**  Behind `k` calls a cursor announces, by its size and by both bounds on
it, the chunks of its packet less `k`; so many further calls are answered with a chunk and none
behind them is; the next chunk has the bytes of the packet from `k` widths on, and is marked if it is
the last; and joining what is left gives the rest of the packet. -/
theorem polled_ofPacket (width : ChunkWidth) (packet : List UInt8) (k : Nat) :
    let total := width.chunksFor packet.length
    let cursor := (ofPacket width packet).polled k
    cursor.size? = some (total - k) ∧
      cursor.sizeHint = (total - k, some (total - k)) ∧
      (∀ m, (cursor.polled m).poll.1.isSome ↔ m < total - k) ∧
      cursor.poll.1 = (if k < total then
        some (Chunk.ofBytes
          (packet.extract (k * width.bytes) (min ((k + 1) * width.bytes) packet.length))
          (decide (k = total - 1)))
        else none) ∧
      Chunk.join cursor.toList = packet.drop (min (k * width.bytes) packet.length) := by
  intro total cursor
  have stands : cursor.Stands width packet k := by
    have begun := (stands_ofPacket width packet).polled k
    rwa [Nat.zero_add] at begun
  refine ⟨?_, ?_, fun m => ?_, ?_, stands.join_toList⟩
  · rw [size?_eq, stands.remaining_eq]
  · rw [sizeHint, stands.remaining_eq]
  · rw [(stands.polled m).poll.1]
    show _ ↔ m < width.chunksFor packet.length - k
    split
    · rename_i more
      exact iff_of_true rfl (by omega)
    · rename_i gone
      exact iff_of_false nofun (by omega)
  · rw [stands.poll.1]
    by_cases more : k < width.chunksFor packet.length
    · rw [if_pos more, if_pos more, chunkAt_eq_ofBytes_extract width packet more]
    · rw [if_neg more, if_neg more]

end ChunkCursor
end UdpGate
