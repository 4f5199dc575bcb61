import UdpGate.Proofs.PacketKey

/-!
# What an assembly holds

An assembly is determined by the chunks of the packet in flight: the bytes that arrived are the
header bytes of `packetByte?`, and the header is the one that these bytes show.  `Assembly.Tracks`
is that invariant, and `Tracks.consume` shows that each chunk keeps it.  Between two packets the old
state stays readable, but the next chunk begins with a fresh one; hence `Tracks` is about `opened`.
-/

namespace UdpGate

/-! ## 1. The header bytes of a chunk -/

-- A header byte lies in the range of chunk `index` exactly if it travels there.
theorem ChunkWidth.mem_headerRange_iff (width : ChunkWidth) (index : Nat) {b : Nat}
    (h : b < headerLength) :
    (width.headerStart index ≤ b ∧ b < width.headerStop index) ↔ b / width.bytes = index := by
  have pos := width.bytes_pos
  rw [headerStop, headerStart_eq, Nat.div_eq_iff pos]
  generalize hp : index * width.bytes = product
  unfold headerLength at h ⊢
  omega

theorem ChunkWidth.headerStart_eq_of_mem {width : ChunkWidth} {index b : Nat}
    (h : b < headerLength) (mem : b / width.bytes = index) :
    b - width.headerStart index = b % width.bytes := by
  have split := Nat.div_add_mod b width.bytes
  have lower := (mem_headerRange_iff width index h).mpr mem
  rw [mem, Nat.mul_comm] at split
  rw [headerStart_eq] at lower ⊢
  generalize hp : index * width.bytes = product at *
  omega

namespace Assembly

/-- The assembly knows of the header what these chunks of its packet say about it. -/
structure Holds (assembly : Assembly) (packet : List Chunk) : Prop where
  arrived_eq : assembly.arrived = Vector.ofFn fun b => packetByte? assembly.width packet b
  header_eq : assembly.header = Header.ofView (packetByte? assembly.width packet)

/-- The next chunk goes on with a packet of which these chunks have arrived. -/
structure Tracks (assembly : Assembly) (width : ChunkWidth) (packet : List Chunk) : Prop where
  width_eq : assembly.width = width
  incomingIndex_eq : assembly.incomingIndex = min packet.length maxIndex
  holds : assembly.opened.Holds packet

theorem holds_start (width : ChunkWidth) : (start width).Holds [] where
  arrived_eq := by rw [packetByte?_nil]; rfl
  header_eq := by rw [packetByte?_nil]; rfl

/-! ## 2. One chunk more -/

section Fill

variable {assembly : Assembly} {packet : List Chunk} {index : Nat}

-- The bytes that the chunk brings were unknown so far, so taking over and adding come to the same.
theorem Holds.arrived_receive (h : assembly.Holds packet)
    (place : ∀ b < headerLength, b / assembly.width.bytes = index ↔
      b / assembly.width.bytes = packet.length) (chunk : Chunk) :
    (assembly.receive index chunk).arrived =
      Vector.ofFn fun b => packetByte? assembly.width (packet ++ [chunk]) b := by
  apply Vector.ext
  intro b inside
  have range := assembly.width.mem_headerRange_iff index inside
  simp only [receive, Vector.getElem_mapIdx, Vector.getElem_ofFn, h.arrived_eq, range,
    place b inside]
  rw [packetByte?_append_chunk]
  by_cases here : b / assembly.width.bytes = packet.length
  · have offset := ChunkWidth.headerStart_eq_of_mem inside ((place b inside).mpr here)
    rw [if_pos here, if_pos here, offset, packetByte?_eq_none (Nat.le_of_eq here.symm),
      Option.or_none]
  · rw [if_neg here, if_neg here]

-- What a field reads once the chunks of the packet and one more have arrived.
theorem read?_append_chunk (width : ChunkWidth) (packet : List Chunk) (chunk : Chunk)
    (field : Field) :
    (if width.owner field = packet.length
      then (field.read? (packetByte? width (packet ++ [chunk]))).or
        (field.read? (packetByte? width packet))
      else field.read? (packetByte? width packet)) =
    field.read? (packetByte? width (packet ++ [chunk])) := by
  obtain ⟨lower, upper⟩ := field.last_mem
  -- The last byte of the field decides: it came before, comes with this chunk, or is still to come.
  rcases Nat.lt_trichotomy (width.owner field) packet.length with before | now | later
  · rw [if_neg (by omega)]
    apply Field.read?_congr
    intro position _ inside
    have arrived : position / width.bytes ≤ width.owner field :=
      Nat.div_le_div_right (by omega)
    rw [packetByte?_append_of_lt [chunk] (by omega)]
  · have unread : field.read? (packetByte? width packet) = none :=
      Field.read?_eq_none lower upper (packetByte?_eq_none (Nat.le_of_eq now.symm))
    rw [if_pos now, unread, Option.or_none]
  · rw [if_neg (by omega),
      Field.read?_eq_none lower upper (packetByte?_eq_none (Nat.le_of_lt later)),
      Field.read?_eq_none lower upper
        (packetByte?_eq_none (by rw [List.length_append, List.length_singleton]; exact later))]

theorem Holds.storeCompleted_receive (h : assembly.Holds packet)
    (place : ∀ b < headerLength, b / assembly.width.bytes = index ↔
      b / assembly.width.bytes = packet.length) (chunk : Chunk) :
    ((assembly.receive index chunk).storeCompleted index).Holds (packet ++ [chunk]) where
  arrived_eq := h.arrived_receive place chunk
  header_eq := by
    have arrived := h.arrived_receive place chunk
    have read (field : Field) : field.read? (assembly.receive index chunk).byte? =
        field.read? (packetByte? assembly.width (packet ++ [chunk])) := by
      apply Field.read?_congr
      intro position _ upper
      have inside : position < 42 := Nat.lt_of_lt_of_le upper field.stop_le
      simp [byte?, arrived, inside]
    have completes (field : Field) : field ∈ assembly.width.completedIn index ↔
        assembly.width.owner field = packet.length :=
      ChunkWidth.mem_completedIn.trans (place _ field.last_lt_headerLength)
    show (assembly.width.completedIn index).foldl _ assembly.header = _
    rw [h.header_eq, Header.ofView_eq_ofFields, Header.foldl_fill_ofFields]
    show _ = Header.ofView (packetByte? assembly.width (packet ++ [chunk]))
    rw [Header.ofView_eq_ofFields]
    congr 1
    funext field
    simp only [completes, read]
    exact read?_append_chunk assembly.width packet chunk field

-- A chunk behind the header brings no byte and completes no field, so the guard of `fill` only
-- saves work.
theorem fill_eq (assembly : Assembly) (index : Nat) (chunk : Chunk) :
    assembly.fill index chunk = (assembly.receive index chunk).storeCompleted index := by
  rw [fill]
  split
  · rfl
  · rename_i behind
    have received : assembly.receive index chunk = assembly := by
      have arrived : (assembly.receive index chunk).arrived = assembly.arrived := by
        apply Vector.ext
        intro b inside
        have out : ¬ (assembly.width.headerStart index ≤ b ∧
            b < assembly.width.headerStop index) := by omega
        simp only [receive, Vector.getElem_mapIdx, if_neg out]
      show { assembly with arrived := (assembly.receive index chunk).arrived } = assembly
      rw [arrived]
    have completed : assembly.width.completedIn index = [] := by
      apply List.filter_eq_nil_iff.mpr
      intro field _ owned
      have inside := (ChunkWidth.mem_headerRange_iff _ _ field.last_lt_headerLength).mpr
        (by simpa [ChunkWidth.owner] using owned)
      omega
    rw [received, storeCompleted, completed, List.foldl_nil]

end Fill

theorem opened_of_betweenPackets {assembly : Assembly} (h : assembly.betweenPackets = true) :
    assembly.opened = { start assembly.width with betweenPackets := false } := by
  rw [opened, if_pos h, reset]

theorem opened_of_inside {assembly : Assembly} (h : assembly.betweenPackets = false) :
    assembly.opened = assembly := by
  rw [opened, if_neg (by simp [h])]

theorem width_fill_opened (assembly : Assembly) (index : Nat) (chunk : Chunk) :
    (assembly.opened.fill index chunk).width = assembly.width := by
  rw [fill_eq, opened]
  split <;> rfl

-- The chunk that is taken in belongs to a packet, whether it begins one or not.
theorem betweenPackets_fill_opened (assembly : Assembly) (index : Nat) (chunk : Chunk) :
    (assembly.opened.fill index chunk).betweenPackets = false := by
  rw [fill_eq, opened]
  split
  · rfl
  · rename_i inside
    show assembly.betweenPackets = false
    simpa using inside

-- Between two packets nothing is known of the next one.
theorem tracks_nil {assembly : Assembly} (h : assembly.betweenPackets = true) :
    assembly.Tracks assembly.width [] where
  width_eq := rfl
  incomingIndex_eq := by rw [incomingIndex, opened_of_betweenPackets h]; rfl
  holds := by
    rw [opened_of_betweenPackets h]
    exact ⟨(holds_start assembly.width).arrived_eq, (holds_start assembly.width).header_eq⟩

/-- **A step.**  The chunk adds its bytes and the fields that it completes, and the index moves on;
behind the last chunk the next packet is expected. -/
theorem Tracks.consume {assembly : Assembly} {width : ChunkWidth} {packet : List Chunk}
    (h : assembly.Tracks width packet) (chunk : Chunk) :
    (assembly.consume chunk).Holds (packet ++ [chunk]) ∧
      (assembly.consume chunk).Tracks width (if chunk.last then [] else packet ++ [chunk]) := by
  -- The index stops counting at its greatest value, which lies far behind the header.
  have place : ∀ b < headerLength, b / assembly.opened.width.bytes = assembly.incomingIndex ↔
      b / assembly.opened.width.bytes = packet.length := by
    intro b inside
    have := Nat.div_le_self b assembly.opened.width.bytes
    rw [h.incomingIndex_eq]
    unfold maxIndex UInt64.size
    unfold headerLength at inside
    omega
  have filled := h.holds.storeCompleted_receive place chunk
  have width_eq := (assembly.width_fill_opened assembly.incomingIndex chunk).trans h.width_eq
  have inside := assembly.betweenPackets_fill_opened assembly.incomingIndex chunk
  rw [← fill_eq] at filled
  rw [Assembly.consume]
  -- From here on only what the filled assembly holds counts, not how it came about.
  have index_eq := h.incomingIndex_eq
  generalize assembly.opened.fill assembly.incomingIndex chunk = next at *
  cases chunk.last with
  | true =>
    refine ⟨⟨filled.arrived_eq, filled.header_eq⟩, ?_⟩
    rw [← width_eq]
    exact tracks_nil rfl
  | false =>
    have held : Holds { next with nextIndex := min (assembly.incomingIndex + 1) maxIndex }
        (packet ++ [chunk]) := ⟨filled.arrived_eq, filled.header_eq⟩
    rw [if_neg Bool.false_ne_true, if_neg Bool.false_ne_true]
    refine ⟨held, ⟨width_eq, ?_, ?_⟩⟩
    · rw [incomingIndex, opened_of_inside (by exact inside)]
      show min (assembly.incomingIndex + 1) maxIndex = _
      rw [index_eq, List.length_append, List.length_singleton]
      generalize maxIndex = greatest
      omega
    · rw [opened_of_inside (by exact inside)]
      exact held

end Assembly
end UdpGate
