import UdpGate.Chunk.Flow
import UdpGate.Proofs.PacketKey

/-!
# The chunks of a frame

A feed is the list of the chunks that it has yet to yield.  For a frame that is cut into chunks the
list is known in full (`toList_ofPacket`): chunk `k` carries the bytes from `k * width` on, and the
final one is marked.  So the chunks of a frame show exactly its own bytes (`packetByte?_split`), and
the key that they name is read off the frame (`namedKey?_frame`).
-/

namespace UdpGate

/-! ## 1. A feed as a list -/

def Feed.chunks [Feed φ] (feed : φ) : List Chunk :=
  match _taken : Feed.next? feed with
  | none => []
  | some (chunk, rest) => chunk :: Feed.chunks rest
termination_by Feed.left feed
decreasing_by exact Feed.left_lt (by assumption)

theorem Feed.chunks_of_none [Feed φ] {feed : φ} (h : Feed.next? feed = none) :
    Feed.chunks feed = [] := by
  rw [Feed.chunks]
  split
  · rfl
  · rename_i taken
    rw [h] at taken
    cases taken

theorem Feed.chunks_of_some [Feed φ] {feed rest : φ} {chunk : Chunk}
    (h : Feed.next? feed = some (chunk, rest)) :
    Feed.chunks feed = chunk :: Feed.chunks rest := by
  rw [Feed.chunks]
  split
  · rename_i taken
    rw [h] at taken
    cases taken
  · rename_i taken
    rw [h] at taken
    cases taken
    rfl

namespace ChunkCursor

theorem foldl_eq_foldl_chunks (f : σ → Chunk → σ) (start : σ) (cursor : ChunkCursor) :
    cursor.foldl f start = (Feed.chunks cursor).foldl f start := by
  fun_induction foldl f start cursor with
  | case1 start cursor ended =>
    have taken : Feed.next? cursor = none := ended
    rw [Feed.chunks_of_none taken, List.foldl_nil]
  | case2 start cursor chunk after step ih =>
    have taken : Feed.next? cursor = some (chunk, after) := step
    rw [Feed.chunks_of_some taken, List.foldl_cons, ih]

theorem toList_eq_chunks (cursor : ChunkCursor) : cursor.toList = Feed.chunks cursor := by
  rw [toList, foldl_eq_foldl_chunks]
  simp

/-! ## 2. The chunks of a frame -/

-- One chunk takes a frame that is no longer than the width.
theorem split_of_le {width : ChunkWidth} {frame : List UInt8} (h : frame.length ≤ width.bytes) :
    Chunk.split width frame = [Chunk.ofBytes frame true] := by
  have behind : frame.drop width.bytes = [] := List.drop_eq_nil_of_le h
  have taken : Feed.next? (ofPacket width frame) =
      some (Chunk.ofBytes frame true, ⟨width, [], true⟩) := by
    show next? _ = _
    simp [next?, ofPacket, behind, List.take_of_length_le h]
  have ended : Feed.next? (ChunkCursor.mk width [] true) = none := by
    show next? _ = _
    simp [next?]
  rw [Chunk.split, toList_eq_chunks, Feed.chunks_of_some taken, Feed.chunks_of_none ended]

-- Of a longer one a full chunk comes first, and behind it the chunks of the rest.
theorem split_of_lt {width : ChunkWidth} {frame : List UInt8} (h : width.bytes < frame.length) :
    Chunk.split width frame = Chunk.ofBytes (frame.take width.bytes) false ::
      Chunk.split width (frame.drop width.bytes) := by
  have more : (frame.drop width.bytes).isEmpty = false := by
    rw [List.isEmpty_eq_false_iff, ne_eq, List.drop_eq_nil_iff]
    omega
  have taken : Feed.next? (ofPacket width frame) =
      some (Chunk.ofBytes (frame.take width.bytes) false,
        ofPacket width (frame.drop width.bytes)) := by
    show next? _ = _
    simp [next?, ofPacket, more]
  rw [Chunk.split, Chunk.split, toList_eq_chunks, toList_eq_chunks, Feed.chunks_of_some taken]

def chunkAt (width : ChunkWidth) (frame : List UInt8) (k : Nat) : Chunk :=
  Chunk.ofBytes ((frame.drop (k * width.bytes)).take width.bytes)
    (k + 1 = width.chunksFor frame.length)

theorem chunksFor_of_le {width : ChunkWidth} {length : Nat} (h : length ≤ width.bytes) :
    width.chunksFor length = 1 := by
  have pos := width.bytes_pos
  have : (length + width.bytes - 1) / width.bytes < 2 := by
    rw [Nat.div_lt_iff_lt_mul pos]
    omega
  rw [ChunkWidth.chunksFor]
  omega

theorem chunksFor_of_lt {width : ChunkWidth} {length : Nat} (h : width.bytes < length) :
    width.chunksFor length = width.chunksFor (length - width.bytes) + 1 := by
  have pos := width.bytes_pos
  have step : (length + width.bytes - 1) / width.bytes =
      (length - width.bytes + width.bytes - 1) / width.bytes + 1 := by
    rw [← Nat.add_div_right _ pos]
    congr 1
    omega
  have some_left : 1 ≤ (length - width.bytes + width.bytes - 1) / width.bytes := by
    rw [Nat.le_div_iff_mul_le pos]
    omega
  rw [ChunkWidth.chunksFor, ChunkWidth.chunksFor, step]
  omega

theorem chunkAt_drop {width : ChunkWidth} {frame : List UInt8} (h : width.bytes < frame.length)
    (k : Nat) : chunkAt width (frame.drop width.bytes) k = chunkAt width frame (k + 1) := by
  rw [chunkAt, chunkAt, List.drop_drop, Nat.succ_mul, Nat.add_comm, List.length_drop,
    chunksFor_of_lt h]
  simp

-- A frame is cut every `width` bytes.  By induction on its length.
theorem toList_ofPacket (width : ChunkWidth) (frame : List UInt8) :
    (ofPacket width frame).toList =
      (List.range (width.chunksFor frame.length)).map (chunkAt width frame) := by
  show Chunk.split width frame = _
  induction hn : frame.length using Nat.strongRecOn generalizing frame with
  | ind n ih =>
    have pos := width.bytes_pos
    by_cases short : frame.length ≤ width.bytes
    · have only : chunkAt width frame 0 = Chunk.ofBytes frame true := by
        rw [chunkAt, chunksFor_of_le short, Nat.zero_mul, List.drop_zero,
          List.take_of_length_le short]
        congr 1
      rw [split_of_le short, ← hn, chunksFor_of_le short, List.range_one, List.map_singleton, only]
    · have long : width.bytes < frame.length := Nat.lt_of_not_le short
      have first : chunkAt width frame 0 = Chunk.ofBytes (frame.take width.bytes) false := by
        have : 0 < width.chunksFor (frame.length - width.bytes) := by
          rw [ChunkWidth.chunksFor]
          omega
        rw [chunkAt, chunksFor_of_lt long]
        congr 1
        · simp
        · simp
          omega
      have rest := ih (frame.length - width.bytes) (by omega) (frame.drop width.bytes)
        List.length_drop
      rw [split_of_lt long, rest, ← hn, chunksFor_of_lt long, List.range_succ_eq_map,
        List.map_cons, List.map_map, first]
      refine List.cons_eq_cons.mpr ⟨rfl, ?_⟩
      apply List.map_congr_left
      intro k _
      rw [Function.comp_apply, chunkAt_drop long]

end ChunkCursor

/-! ## 3. The bytes of the chunks -/

theorem getLsbD_lowMask (n offset : Nat) :
    (lowMask n).getLsbD offset = (decide (offset < 64) && decide (offset < n)) := by
  have low : (Nat.pow 2 n - 1).testBit offset = decide (offset < n) :=
    Nat.testBit_two_pow_sub_one n offset
  rw [lowMask, BitVec.getLsbD_ofNat, low]

namespace Chunk

variable {bytes : List UInt8}

-- A chunk of at most 64 bytes vouches for all of them and for nothing else.
theorem isValid_ofBytes (h : bytes.length ≤ chunkRoom) (last : Bool) (offset : Nat) :
    (ofBytes bytes last).isValid offset = decide (offset < bytes.length) := by
  rw [isValid, ofBytes, Nat.min_eq_left h, getLsbD_lowMask, ← Bool.decide_and, decide_eq_decide]
  unfold chunkRoom at h
  omega

theorem getElem_data_ofBytes (bytes : List UInt8) (last : Bool) {offset : Nat}
    (room : offset < 64) : (ofBytes bytes last).data[offset] = bytes[offset]?.getD 0 := by
  show (Vector.ofFn fun i : Fin 64 => bytes.getD i 0)[offset] = _
  rw [Vector.getElem_ofFn, List.getD_eq_getElem?_getD]

theorem byte?_ofBytes (h : bytes.length ≤ chunkRoom) (last : Bool) (offset : Nat) :
    (ofBytes bytes last).byte? offset = bytes[offset]? := by
  rw [byte?, isValid_ofBytes h]
  by_cases inside : offset < bytes.length
  · have room : offset < 64 := Nat.lt_of_lt_of_le inside h
    rw [if_pos (decide_eq_true inside), Vector.getElem?_eq_getElem room,
      getElem_data_ofBytes bytes last room, List.getElem?_eq_getElem inside, Option.getD_some]
  · rw [if_neg (by simpa using inside), List.getElem?_eq_none (Nat.le_of_not_lt inside)]

end Chunk

namespace ChunkCursor

variable {width : ChunkWidth} {frame : List UInt8}

theorem byte?_chunkAt (k : Nat) {offset : Nat} (h : offset < width.bytes) :
    (chunkAt width frame k).byte? offset = frame[k * width.bytes + offset]? := by
  have room : ((frame.drop (k * width.bytes)).take width.bytes).length ≤ chunkRoom :=
    Nat.le_trans (List.length_take_le _ _) width.bytes_le
  rw [chunkAt, Chunk.byte?_ofBytes room, List.getElem?_take_of_lt h, List.getElem?_drop]

theorem lt_chunksFor_iff {length k : Nat} (h : 0 < length) :
    k < width.chunksFor length ↔ k * width.bytes < length := by
  have pos := width.bytes_pos
  have ceiling : k < (length + width.bytes - 1) / width.bytes ↔ k * width.bytes < length := by
    rw [Nat.lt_iff_add_one_le, Nat.le_div_iff_mul_le pos, Nat.succ_mul]
    omega
  have some_chunk : 0 < (length + width.bytes - 1) / width.bytes :=
    Nat.div_pos (by omega) pos
  rw [ChunkWidth.chunksFor, Nat.max_eq_left some_chunk, ceiling]

theorem getElem?_split (k : Nat) :
    (Chunk.split width frame)[k]? =
      if k < width.chunksFor frame.length then some (chunkAt width frame k) else none := by
  rw [Chunk.split, toList_ofPacket, List.getElem?_map]
  split
  · rename_i inside
    rw [List.getElem?_range inside, Option.map_some]
  · rename_i outside
    rw [List.getElem?_eq_none (by simpa using outside), Option.map_none]

end ChunkCursor

@[simp] theorem Chunk.length_split (width : ChunkWidth) (frame : List UInt8) :
    (split width frame).length = width.chunksFor frame.length := by
  rw [split, ChunkCursor.toList_ofPacket, List.length_map, List.length_range]

-- The chunks of a frame show its own bytes, whatever the width.
theorem packetByte?_split (width : ChunkWidth) (frame : List UInt8) (b : Nat) :
    packetByte? width (Chunk.split width frame) b = frame[b]? := by
  have inChunk : b % width.bytes < width.bytes := Nat.mod_lt b width.bytes_pos
  have place : b / width.bytes * width.bytes + b % width.bytes = b := by
    rw [Nat.mul_comm]
    exact Nat.div_add_mod b width.bytes
  rw [packetByte?, ChunkCursor.getElem?_split]
  split
  · rw [Option.bind_some, ChunkCursor.byte?_chunkAt _ inChunk, place]
  · rename_i outside
    rw [Option.bind_none, List.getElem?_eq_none]
    apply Nat.le_of_not_lt
    intro inside
    have reached : b / width.bytes < width.chunksFor frame.length :=
      (ChunkCursor.lt_chunksFor_iff (Nat.zero_lt_of_lt inside)).mpr (by omega)
    exact outside reached

-- A frame ends with its final chunk and not before.
theorem Chunk.split_eq_concat (width : ChunkWidth) (frame : List UInt8) :
    ∃ (begun : List Chunk) (final : Chunk), split width frame = begun ++ [final] ∧
      (∀ chunk ∈ begun, chunk.last = false) ∧ final.last = true := by
  have some_chunk : 1 ≤ width.chunksFor frame.length := Nat.le_max_right _ _
  obtain ⟨before, count⟩ : ∃ before, width.chunksFor frame.length = before + 1 :=
    ⟨width.chunksFor frame.length - 1, by omega⟩
  refine ⟨(List.range before).map (ChunkCursor.chunkAt width frame),
    ChunkCursor.chunkAt width frame before, ?_, ?_, ?_⟩
  · rw [split, ChunkCursor.toList_ofPacket, count, List.range_succ, List.map_append,
      List.map_singleton]
  · intro chunk mem
    obtain ⟨k, inside, rfl⟩ := List.mem_map.mp mem
    rw [List.mem_range] at inside
    exact decide_eq_false (by omega)
  · exact decide_eq_true count.symm

/-! ## 4. The key that a frame names -/

/-- The length that a frame must have for the address and the port at one of its ends. -/
def Endpoint.keyEnd : Endpoint → Nat
  | .destination => 38
  | .source => 36

def Endpoint.keyOf (endpoint : Endpoint) (frame : List UInt8) : RuleKey :=
  match endpoint with
  | .destination =>
    ⟨⟨UInt32.ofNat (networkValue (frame.extract 30 34))⟩,
      UInt16.ofNat (networkValue (frame.extract 36 38))⟩
  | .source =>
    ⟨⟨UInt32.ofNat (networkValue (frame.extract 26 30))⟩,
      UInt16.ofNat (networkValue (frame.extract 34 36))⟩

def SaysUdp (frame : List UInt8) : Prop :=
  frame.extract 12 14 = [0x08, 0x00] ∧ frame[23]? = some 17

instance (frame : List UInt8) : Decidable (SaysUdp frame) :=
  inferInstanceAs (Decidable (_ ∧ _))

theorem mapM_range'_getElem? (frame : List UInt8) {start count : Nat}
    (h : start + count ≤ frame.length) :
    (List.range' start count).mapM (frame[·]?) = some ((frame.drop start).take count) := by
  induction count generalizing start with
  | zero => rfl
  | succ count ih =>
    have inside : start < frame.length := by omega
    rw [List.range'_succ, List.mapM_cons, ih (by omega), List.getElem?_eq_getElem inside,
      List.drop_eq_getElem_cons inside, List.take_succ_cons]
    rfl

theorem slice?_frame (frame : List UInt8) {start stop : Nat} (h : start < stop) :
    slice? (frame[·]?) start stop =
      if stop ≤ frame.length then some (frame.extract start stop) else none := by
  split
  · rw [slice?, mapM_range'_getElem? frame (by omega), List.extract_eq_take_drop]
  · have short : frame[stop - 1]? = none := List.getElem?_eq_none (by omega)
    exact mapM_eq_none_of_mem (List.mem_range'_1.mpr (by omega)) short

theorem endpointAt?_frame (frame : List UInt8) {address port : Nat} (h : address + 4 ≤ port) :
    endpointAt? (frame[·]?) address port =
      if port + 2 ≤ frame.length then
        some ⟨⟨UInt32.ofNat (networkValue (frame.extract address (address + 4)))⟩,
          UInt16.ofNat (networkValue (frame.extract port (port + 2)))⟩
      else none := by
  rw [endpointAt?, slice?_frame frame (by omega), slice?_frame frame (by omega)]
  by_cases whole : port + 2 ≤ frame.length
  · have front : address + 4 ≤ frame.length := by omega
    simp only [if_pos whole, if_pos front]
  · rw [if_neg whole, if_neg whole]
    split
    · rename_i short
      cases short
    · rfl

-- A frame names a key if it says that it is UDP over IPv4 and is long enough for the key.
theorem namedKey?_frame (frame : List UInt8) (endpoint : Endpoint) :
    namedKey? (frame[·]?) endpoint =
      if SaysUdp frame ∧ endpoint.keyEnd ≤ frame.length then some (endpoint.keyOf frame)
      else none := by
  have etherType : slice? (frame[·]?) 12 14 = some [0x08, 0x00] ↔
      frame.extract 12 14 = [0x08, 0x00] := by
    rw [slice?_frame frame (by decide)]
    split
    · rw [Option.some.injEq]
    · rename_i short
      refine iff_of_false nofun fun same => ?_
      have := congrArg List.length same
      simp at this
      omega
  have protocol : slice? (frame[·]?) 23 24 = some [17] ↔ frame[23]? = some 17 := by
    cases h : frame[23]? with
    | none => simp [slice?, h]
    | some byte => simp [slice?, h]
  have udp_iff : (slice? (frame[·]?) 12 14 = some [0x08, 0x00] ∧
      slice? (frame[·]?) 23 24 = some [17]) ↔ SaysUdp frame := and_congr etherType protocol
  by_cases udp : SaysUdp frame
  · simp only [namedKey?, if_pos (udp_iff.mpr udp), udp, true_and]
    cases endpoint with
    | destination => exact endpointAt?_frame frame (by decide)
    | source => exact endpointAt?_frame frame (by decide)
  · simp only [namedKey?, if_neg (mt udp_iff.mp udp), udp, false_and, if_false]

end UdpGate
