import UdpGate.Proofs.HeaderPrefix

/-!
# What each chunk brings of a header

The chunks of a packet share out its header.  One after the other they bring the 42 bytes, each byte
in one chunk, and they complete the 17 fields in the order in which these travel, each field in one
chunk; behind the decision chunk nothing is left (`ChunkWidth.schedule_partitions`).  An assembly
keeps to this schedule: the bytes that arrived are a set of bits, a field is stored if this set
covers its mask, and no chunk behind the field's owner changes the set there.
-/

namespace UdpGate

/-! ## 1. Header bytes -/

namespace ChunkWidth

theorem mem_headerBytes {width : ChunkWidth} {index b : Nat} :
    b ∈ width.headerBytes index ↔ b < headerLength ∧ b / width.bytes = index := by
  have between : b ∈ width.headerBytes index ↔
      width.headerStart index ≤ b ∧ b < width.headerStop index := by
    rw [headerBytes, List.mem_range'_1]
    omega
  have stop_le : width.headerStop index ≤ headerLength := Nat.min_le_right _ _
  rw [between]
  constructor
  · intro inside
    have header : b < headerLength := Nat.lt_of_lt_of_le inside.2 stop_le
    exact ⟨header, (mem_headerRange_iff width index header).mp inside⟩
  · rintro ⟨header, here⟩
    exact (mem_headerRange_iff width index header).mpr here

theorem headerStart_zero (width : ChunkWidth) : width.headerStart 0 = 0 := by
  rw [headerStart_eq, Nat.zero_mul]
  exact Nat.zero_min _

theorem headerStart_succ (width : ChunkWidth) (index : Nat) :
    width.headerStart (index + 1) = width.headerStop index := by
  rw [headerStop, headerStart_eq, headerStart_eq, Nat.succ_mul]
  generalize index * width.bytes = product
  omega

theorem headerStart_of_decisionChunk_lt {width : ChunkWidth} {index : Nat}
    (h : width.decisionChunk < index) : width.headerStart index = headerLength := by
  have whole : headerLength - 1 < index * width.bytes :=
    (Nat.div_lt_iff_lt_mul width.bytes_pos).mp h
  rw [headerStart_eq]
  unfold headerLength at whole ⊢
  omega

theorem headerBytes_of_decisionChunk_lt {width : ChunkWidth} {index : Nat}
    (h : width.decisionChunk < index) : width.headerBytes index = [] := by
  rw [headerBytes, headerStop, headerStart_of_decisionChunk_lt h,
    Nat.min_eq_right (Nat.le_add_right _ _), Nat.sub_self, List.range'_zero]

-- In 64 bits this product of index and width would come back to byte 10.
example : headerBytes { bytes := 2 } (Nat.pow 2 63 + 5) = [] := by decide

-- By induction on the chunks: each goes on where those before it end.
theorem flatMap_headerBytes (width : ChunkWidth) (count : Nat) :
    (List.range count).flatMap width.headerBytes = List.range (width.headerStart count) := by
  induction count with
  | zero => rw [headerStart_zero]; rfl
  | succ count ih =>
    have forward : width.headerStart count ≤ width.headerStop count := by
      rw [headerStop, headerStart_eq]
      omega
    rw [List.range_succ, List.flatMap_append, ih, List.flatMap_singleton, headerBytes,
      headerStart_succ, List.range_eq_range', List.range_eq_range']
    calc List.range' 0 (width.headerStart count) ++ _
        = List.range' 0 (width.headerStart count) ++
          List.range' (0 + width.headerStart count)
            (width.headerStop count - width.headerStart count) := by rw [Nat.zero_add]
      _ = List.range' 0 (width.headerStop count) := by
        rw [List.range'_append_1, Nat.add_sub_cancel' forward]

end ChunkWidth

/-! ## 2. Fields -/

-- No field begins before the one in front of it has ended.
theorem Field.pairwise_all : Field.all.Pairwise fun a b => a.stop ≤ b.offset := by decide

-- In a list that is sorted by a key, those with the next key stand behind those with smaller ones.
theorem filter_lt_succ {α : Type} {key : α → Nat} {l : List α}
    (sorted : l.Pairwise fun a b => key a ≤ key b) (n : Nat) :
    l.filter (fun a => decide (key a < n + 1)) =
      l.filter (fun a => decide (key a < n)) ++ l.filter (fun a => key a == n) := by
  induction l with
  | nil => rfl
  | cons first rest ih =>
    obtain ⟨least, others⟩ := List.pairwise_cons.mp sorted
    have tail := ih others
    simp only [List.filter_cons, decide_eq_true_eq, beq_iff_eq]
    rcases Nat.lt_trichotomy (key first) n with before | now | later
    · rw [if_pos (Nat.lt_succ_of_lt before), if_pos before, if_neg (Nat.ne_of_lt before), tail,
        List.cons_append]
    · have none_before : rest.filter (fun a => decide (key a < n)) = [] := by
        apply List.filter_eq_nil_iff.mpr
        intro a mem smaller
        have := least a mem
        have := of_decide_eq_true smaller
        omega
      rw [if_pos (by omega), if_neg (by omega), if_pos now, tail, none_before, List.nil_append,
        List.nil_append]
    · rw [if_neg (by omega), if_neg (by omega), if_neg (Nat.ne_of_gt later), tail]

namespace ChunkWidth

theorem pairwise_owner (width : ChunkWidth) :
    Field.all.Pairwise fun a b => width.owner a ≤ width.owner b := by
  apply Field.pairwise_all.imp
  intro a b before
  have := b.last_mem.1
  exact Nat.div_le_div_right (by omega)

theorem flatMap_completedIn (width : ChunkWidth) (count : Nat) :
    (List.range count).flatMap width.completedIn =
      Field.all.filter fun field => decide (width.owner field < count) := by
  induction count with
  | zero => rfl
  | succ count ih =>
    rw [List.range_succ, List.flatMap_append, ih, List.flatMap_singleton, completedIn,
      filter_lt_succ width.pairwise_owner]

theorem last_mem_headerBytes_owner (width : ChunkWidth) (field : Field) :
    field.stop - 1 ∈ width.headerBytes (width.owner field) :=
  mem_headerBytes.mpr ⟨field.last_lt_headerLength, rfl⟩

-- The bytes of a field come no later than its last one.
theorem div_bytes_le_owner (width : ChunkWidth) {field : Field} {b : Nat}
    (h : b ∈ field.positions) : b / width.bytes ≤ width.owner field := by
  have := (Field.mem_positions.mp h).2
  exact Nat.div_le_div_right (by omega)

end ChunkWidth

/-! ## 3. Masks -/

theorem Field.getLsbD_byteMask (field : Field) (b : Nat) :
    field.byteMask.getLsbD b = decide (b ∈ field.positions) := by
  have stop_le := field.stop_le
  rw [byteMask, BitVec.getLsbD_shiftLeft, getLsbD_lowMask, Bool.eq_iff_iff]
  simp only [Bool.and_eq_true, Bool.not_eq_true', decide_eq_true_eq, decide_eq_false_iff_not,
    mem_positions]
  unfold stop headerLength at *
  omega

-- Masked for a field, two sets of header bytes are told apart by the field's bytes only.
theorem Field.and_byteMask_eq_iff {field : Field} {mask other : BitVec 64} :
    mask &&& field.byteMask = other &&& field.byteMask ↔
      ∀ b ∈ field.positions, mask.getLsbD b = other.getLsbD b := by
  constructor
  · intro same b mem
    have bit := congrArg (BitVec.getLsbD · b) same
    simpa [getLsbD_byteMask, mem] using bit
  · intro same
    apply BitVec.eq_of_getLsbD_eq
    intro b _
    rw [BitVec.getLsbD_and, BitVec.getLsbD_and, getLsbD_byteMask]
    by_cases mem : b ∈ field.positions
    · rw [same b mem]
    · simp [mem]

theorem Field.and_byteMask_eq_self_iff {field : Field} {mask : BitVec 64} :
    mask &&& field.byteMask = field.byteMask ↔ ∀ b ∈ field.positions, mask.getLsbD b := by
  have own : mask &&& field.byteMask = field.byteMask ↔
      mask &&& field.byteMask = field.byteMask &&& field.byteMask := by rw [BitVec.and_self]
  rw [own, and_byteMask_eq_iff]
  apply forall₂_congr
  intro b mem
  rw [getLsbD_byteMask, decide_eq_true mem]

/-! ## 4. The partition -/

namespace ChunkWidth

/-- The chunks of a width share out the header bytes. -/
structure SharesBytes (width : ChunkWidth) : Prop where
  mem_iff : ∀ index b,
    b ∈ width.headerBytes index ↔ b < headerLength ∧ b / width.bytes = index
  nil_of_behind : ∀ index, width.decisionChunk < index → width.headerBytes index = []
  first : width.headerStart 0 = 0
  consecutive : ∀ index, width.headerStart (index + 1) = width.headerStop index
  last : width.headerStop width.decisionChunk = headerLength
  disjoint : ∀ index other b,
    b ∈ width.headerBytes index → b ∈ width.headerBytes other → index = other
  cover : (List.range (width.decisionChunk + 1)).flatMap width.headerBytes =
    List.range headerLength

/-- The chunks of a width share out the fields. -/
structure SharesFields (width : ChunkWidth) : Prop where
  ordered : ∀ index, (width.completedIn index).Sublist Field.all
  mem_iff : ∀ index field, field ∈ width.completedIn index ↔ width.owner field = index
  owner_le : ∀ field, width.owner field ≤ width.decisionChunk
  last_mem : ∀ field, field.stop - 1 ∈ width.headerBytes (width.owner field)
  arrives : ∀ field, ∀ b ∈ field.positions, ∃ index ≤ width.owner field,
    ∀ other, b ∈ width.headerBytes other ↔ other = index
  cover : (List.range (width.decisionChunk + 1)).flatMap width.completedIn = Field.all

theorem sharesBytes (width : ChunkWidth) : width.SharesBytes where
  mem_iff _ _ := mem_headerBytes
  nil_of_behind _ := headerBytes_of_decisionChunk_lt
  first := width.headerStart_zero
  consecutive := width.headerStart_succ
  last := by
    rw [← headerStart_succ]
    exact headerStart_of_decisionChunk_lt (Nat.lt_succ_self _)
  disjoint index other b here there := by
    rw [← (mem_headerBytes.mp here).2, ← (mem_headerBytes.mp there).2]
  cover := by
    rw [flatMap_headerBytes, headerStart_of_decisionChunk_lt (Nat.lt_succ_self _)]

theorem sharesFields (width : ChunkWidth) : width.SharesFields where
  ordered _ := List.filter_sublist
  mem_iff _ _ := mem_completedIn
  owner_le := width.owner_le_decisionChunk
  last_mem := width.last_mem_headerBytes_owner
  arrives field b mem := by
    have header : b < headerLength :=
      Nat.lt_of_lt_of_le (Field.mem_positions.mp mem).2 field.stop_le
    refine ⟨b / width.bytes, width.div_bytes_le_owner mem, fun other => ?_⟩
    rw [mem_headerBytes, eq_comm (a := other)]
    exact and_iff_right header
  cover := by
    rw [flatMap_completedIn, List.filter_eq_self]
    intro field _
    exact decide_eq_true (Nat.lt_succ_of_le (width.owner_le_decisionChunk field))

/-- **The schedule of a header.**  At every width the chunks part the header bytes among them, each
chunk those that travel in it and none behind the decision chunk; they part the fields among them,
each with the chunk of its last byte, behind which no byte of it comes; and the mask of a field has
the bits of its bytes. -/
theorem schedule_partitions (width : ChunkWidth) :
    width.SharesBytes ∧ width.SharesFields ∧
      ∀ (field : Field) (b : Nat), field.byteMask.getLsbD b ↔ b ∈ field.positions := by
  refine ⟨width.sharesBytes, width.sharesFields, fun field b => ?_⟩
  rw [field.getLsbD_byteMask]
  exact decide_eq_true_iff

end ChunkWidth

/-! ## 5. An assembly keeps to the schedule -/

namespace Assembly

theorem getLsbD_arrivedMask (assembly : Assembly) (b : Nat) :
    assembly.arrivedMask.getLsbD b = (assembly.byte? b).isSome := by
  rw [arrivedMask, BitVec.getLsbD_setWidth, BitVec.getLsbD_ofBoolListLE,
    List.getD_eq_getElem?_getD, List.getElem?_map, Vector.getElem?_toList, byte?]
  by_cases header : b < 42
  · have room : b < 64 := by omega
    rw [Vector.getElem?_eq_getElem header]
    simp [room]
  · rw [Vector.getElem?_eq_none (Nat.le_of_not_lt header)]
    simp

-- A chunk adds the header bytes that it vouches for.
theorem getLsbD_arrivedMask_receive (assembly : Assembly) (index : Nat) (chunk : Chunk) (b : Nat) :
    (assembly.receive index chunk).arrivedMask.getLsbD b =
      (assembly.arrivedMask.getLsbD b || (decide (b ∈ assembly.width.headerBytes index) &&
        chunk.isValid (b - assembly.width.headerStart index))) := by
  rw [getLsbD_arrivedMask, getLsbD_arrivedMask, byte?, byte?]
  by_cases header : b < 42
  · have place : (assembly.width.headerStart index ≤ b ∧ b < assembly.width.headerStop index) ↔
        b ∈ assembly.width.headerBytes index := by
      rw [ChunkWidth.mem_headerBytes, assembly.width.mem_headerRange_iff index header]
      exact (and_iff_right header).symm
    rw [Vector.getElem?_eq_getElem header, Vector.getElem?_eq_getElem header]
    simp only [receive, Vector.getElem_mapIdx, place]
    by_cases here : b ∈ assembly.width.headerBytes index
    · simp [here, Option.isSome_or, Chunk.isSome_byte?, Bool.or_comm]
    · simp [here]
  · have outside : b ∉ assembly.width.headerBytes index :=
      fun mem => header (ChunkWidth.mem_headerBytes.mp mem).1
    simp [header, outside]

-- All bytes of a field have arrived if the set of those that have covers its mask.
theorem isSome_read?_iff {assembly : Assembly} {field : Field} :
    (field.read? assembly.byte?).isSome ↔
      assembly.arrivedMask &&& field.byteMask = field.byteMask := by
  simp only [Field.read?, isSome_mapM_iff, Field.and_byteMask_eq_self_iff, getLsbD_arrivedMask]

theorem storeCompleted_eq (assembly : Assembly) (index : Nat) :
    assembly.storeCompleted index =
      { assembly with
        header := (assembly.width.completedIn index).foldl (fun header field =>
          if assembly.arrivedMask &&& field.byteMask = field.byteMask then
            header.fill assembly.byte? field
          else header) assembly.header } := by
  have unread (header : Header) (field : Field)
      (h : ¬ assembly.arrivedMask &&& field.byteMask = field.byteMask) :
      header.fill assembly.byte? field = header := by
    rw [← isSome_read?_iff, Option.not_isSome_iff_eq_none] at h
    rw [Header.fill, h]
    rfl
  rw [storeCompleted]
  congr 2
  funext header field
  by_cases covered : assembly.arrivedMask &&& field.byteMask = field.byteMask
  · rw [if_pos covered]
  · rw [if_neg covered, unread header field covered]

theorem arrivedMask_fill_of_owner_lt {assembly : Assembly} {field : Field} {index : Nat}
    (h : assembly.width.owner field < index) (chunk : Chunk) :
    (assembly.fill index chunk).arrivedMask &&& field.byteMask =
      assembly.arrivedMask &&& field.byteMask := by
  rw [fill_eq]
  show (assembly.receive index chunk).arrivedMask &&& field.byteMask = _
  rw [Field.and_byteMask_eq_iff]
  intro b mem
  have early := assembly.width.div_bytes_le_owner mem
  have elsewhere : b ∉ assembly.width.headerBytes index := by
    intro here
    have := (ChunkWidth.mem_headerBytes.mp here).2
    omega
  rw [getLsbD_arrivedMask_receive, decide_eq_false elsewhere, Bool.false_and, Bool.or_false]

end Assembly
end UdpGate
