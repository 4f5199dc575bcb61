import Mathlib.Data.Set.Function
import UdpGate.Proofs.FrameChunks

/-!
# Cutting and joining are inverse

A packet is cut into chunks of one form (`Chunk.Canonical`): full chunks, then a marked one with what
is left, and zeros wherever a chunk does not vouch for a byte.  Joining gives the packet back, and a
run of chunks of that form is what its own bytes are cut into; so cutting is a bijection from packets
to the runs of this form (`Chunk.split_bijOn_canonical`).
-/

namespace UdpGate
namespace Chunk

/-! ## 1. The bytes that a chunk carries -/

structure Carries (chunk : Chunk) (count : Nat) : Prop where
  isValid_iff : ∀ offset, chunk.isValid offset ↔ offset < count
  zero_behind : ∀ offset (room : offset < 64), count ≤ offset → chunk.data[offset] = 0

section Carrying

variable {chunk : Chunk} {count : Nat}

theorem Carries.count_le (h : chunk.Carries count) : count ≤ chunkRoom := by
  apply Nat.le_of_not_lt
  intro more
  have valid := (h.isValid_iff 64).mpr more
  rw [isValid, BitVec.getLsbD_of_ge _ _ (Nat.le_refl 64)] at valid
  cases valid

theorem Carries.validLength_eq (h : chunk.Carries count) : chunk.validLength = count := by
  obtain ⟨more, room⟩ := Nat.exists_eq_add_of_le h.count_le
  have front : ∀ offset ∈ List.range count, chunk.isValid offset = true := by
    intro offset inside
    exact (h.isValid_iff offset).mpr (List.mem_range.mp inside)
  have behind : ((List.range more).map (count + ·)).takeWhile chunk.isValid = [] := by
    cases more with
    | zero => rfl
    | succ more =>
      have invalid : ¬ chunk.isValid (count + 0) = true := by
        rw [h.isValid_iff]
        exact Nat.lt_irrefl count
      rw [List.range_succ_eq_map, List.map_cons, List.takeWhile_cons_of_neg invalid]
  rw [validLength, room, List.range_add, List.takeWhile_append_of_pos front, behind,
    List.append_nil, List.length_range]

theorem Carries.length_payload (h : chunk.Carries count) : chunk.payload.length = count := by
  rw [payload, h.validLength_eq, List.length_take, Vector.length_toList]
  exact Nat.min_eq_left h.count_le

theorem Carries.getElem?_payload (h : chunk.Carries count) {offset : Nat} (inside : offset < count) :
    chunk.payload[offset]? = chunk.data[offset]? := by
  rw [payload, h.validLength_eq, List.getElem?_take_of_lt inside, Vector.getElem?_toList]

theorem carries_ofBytes {bytes : List UInt8} (h : bytes.length ≤ chunkRoom) (last : Bool) :
    (ofBytes bytes last).Carries bytes.length := by
  constructor
  · intro offset
    rw [isValid_ofBytes h, decide_eq_true_eq]
  · intro offset room behind
    rw [getElem_data_ofBytes bytes last room, List.getElem?_eq_none behind]
    rfl

theorem payload_ofBytes {bytes : List UInt8} (h : bytes.length ≤ chunkRoom) (last : Bool) :
    (ofBytes bytes last).payload = bytes := by
  have carries := carries_ofBytes h last
  apply List.ext_getElem?
  intro offset
  by_cases inside : offset < bytes.length
  · have room : offset < 64 := Nat.lt_of_lt_of_le inside h
    rw [carries.getElem?_payload inside, Vector.getElem?_eq_getElem room,
      getElem_data_ofBytes bytes last room, List.getElem?_eq_getElem inside, Option.getD_some]
  · have behind := Nat.le_of_not_lt inside
    rw [List.getElem?_eq_none behind, List.getElem?_eq_none (carries.length_payload ▸ behind)]

-- A chunk without holes is made of its payload.
theorem Carries.ofBytes_payload (h : chunk.Carries count) {last : Bool} (mark : chunk.last = last) :
    ofBytes chunk.payload last = chunk := by
  have length := h.length_payload
  have carries := carries_ofBytes (length ▸ h.count_le) last
  rw [length] at carries
  have data : (ofBytes chunk.payload last).data = chunk.data := by
    apply Vector.ext
    intro offset room
    by_cases inside : offset < count
    · rw [getElem_data_ofBytes _ _ room, h.getElem?_payload inside, Vector.getElem?_eq_getElem room,
        Option.getD_some]
    · have behind := Nat.le_of_not_lt inside
      rw [carries.zero_behind offset room behind, h.zero_behind offset room behind]
  have keep : (ofBytes chunk.payload last).keep = chunk.keep := by
    apply BitVec.eq_of_getLsbD_eq
    intro offset _
    exact Bool.eq_iff_iff.mpr ((carries.isValid_iff offset).trans (h.isValid_iff offset).symm)
  calc ofBytes chunk.payload last
      = ⟨(ofBytes chunk.payload last).data, (ofBytes chunk.payload last).keep, last⟩ := rfl
    _ = ⟨chunk.data, chunk.keep, chunk.last⟩ := by rw [data, keep, mark]

end Carrying

/-! ## 2. The form in which packets are cut -/

/-- The form of the chunks that a packet is cut into: full ones without a mark, and behind them a
marked one that vouches for `count` bytes, which may be none only if it stands alone.  A byte that
does not count is zero. -/
structure Canonical (width : ChunkWidth) (begun : List Chunk) (final : Chunk) (count : Nat) :
    Prop where
  unmarked : ∀ chunk ∈ begun, chunk.last = false
  marked : final.last = true
  full : ∀ chunk ∈ begun, chunk.keep = width.fullMask
  isValid_final : ∀ offset, final.isValid offset ↔ offset < count
  count_le : count ≤ width.bytes
  count_pos : begun ≠ [] → 0 < count
  zero_of_invalid : ∀ chunk ∈ begun ++ [final], ∀ offset (room : offset < 64),
    ¬ chunk.isValid offset → chunk.data[offset] = 0

section CanonicalForm

variable {width : ChunkWidth} {begun : List Chunk} {chunk final : Chunk} {count : Nat}

theorem getLsbD_fullMask (width : ChunkWidth) (offset : Nat) :
    width.fullMask.getLsbD offset ↔ offset < width.bytes := by
  have := width.bytes_le
  rw [ChunkWidth.fullMask, getLsbD_lowMask, Bool.and_eq_true, decide_eq_true_eq, decide_eq_true_eq]
  omega

theorem Canonical.carries_final (h : Canonical width begun final count) : final.Carries count where
  isValid_iff := h.isValid_final
  zero_behind offset room behind :=
    h.zero_of_invalid final (by simp) offset room (by rw [h.isValid_final]; omega)

theorem Canonical.carries_of_mem (h : Canonical width begun final count) (mem : chunk ∈ begun) :
    chunk.Carries width.bytes := by
  have valid (offset : Nat) : chunk.isValid offset ↔ offset < width.bytes := by
    rw [isValid, h.full chunk mem]
    exact getLsbD_fullMask width offset
  refine ⟨valid, fun offset room behind => ?_⟩
  exact h.zero_of_invalid chunk (List.mem_append_left _ mem) offset room (by rw [valid]; omega)

theorem canonical_nil (mark : final.last = true) (carries : final.Carries count)
    (fits : count ≤ width.bytes) : Canonical width [] final count where
  unmarked := by simp
  marked := mark
  full := by simp
  isValid_final := carries.isValid_iff
  count_le := fits
  count_pos none := (none rfl).elim
  zero_of_invalid := by
    intro chunk mem offset room invalid
    rw [List.nil_append, List.mem_singleton] at mem
    subst mem
    exact carries.zero_behind offset room (by rw [carries.isValid_iff] at invalid; omega)

-- A full chunk may come in front of chunks that carry a byte.
theorem Canonical.cons (h : Canonical width begun final count) (pos : 0 < count)
    (mark : chunk.last = false) (carries : chunk.Carries width.bytes) :
    Canonical width (chunk :: begun) final count where
  unmarked := List.forall_mem_cons.mpr ⟨mark, h.unmarked⟩
  marked := h.marked
  full := by
    refine List.forall_mem_cons.mpr ⟨?_, h.full⟩
    apply BitVec.eq_of_getLsbD_eq
    intro offset _
    exact Bool.eq_iff_iff.mpr
      ((carries.isValid_iff offset).trans (getLsbD_fullMask width offset).symm)
  isValid_final := h.isValid_final
  count_le := h.count_le
  count_pos _ := pos
  zero_of_invalid := by
    refine List.forall_mem_cons.mpr ⟨fun offset room invalid => ?_, h.zero_of_invalid⟩
    exact carries.zero_behind offset room (by rw [carries.isValid_iff] at invalid; omega)

theorem Canonical.tail (h : Canonical width (chunk :: begun) final count) :
    Canonical width begun final count where
  unmarked := (List.forall_mem_cons.mp h.unmarked).2
  marked := h.marked
  full := (List.forall_mem_cons.mp h.full).2
  isValid_final := h.isValid_final
  count_le := h.count_le
  count_pos _ := h.count_pos (List.cons_ne_nil chunk begun)
  zero_of_invalid := (List.forall_mem_cons.mp h.zero_of_invalid).2

end CanonicalForm

/-! ## 3. Cutting -/

/-- A packet is cut into these chunks: as many as the width says, in canonical form, and they carry
the packet. -/
structure CutInto (width : ChunkWidth) (packet : List UInt8) (begun : List Chunk) (final : Chunk) :
    Prop where
  split_eq : split width packet = begun ++ [final]
  length_eq : begun.length + 1 = width.chunksFor packet.length
  canonical : Canonical width begun final (packet.length - width.bytes * begun.length)
  join_eq : join (begun ++ [final]) = packet
  count_pos : packet ≠ [] → 0 < packet.length - width.bytes * begun.length
  of_nil : packet = [] → begun = [] ∧ final.keep = 0

section Cutting

variable {width : ChunkWidth} {packet : List UInt8} {begun : List Chunk} {final : Chunk}

theorem cutInto_of_le (h : packet.length ≤ width.bytes) :
    CutInto width packet [] (ofBytes packet true) where
  split_eq := ChunkCursor.split_of_le h
  length_eq := (ChunkCursor.chunksFor_of_le h).symm
  canonical :=
    canonical_nil rfl (carries_ofBytes (Nat.le_trans h width.bytes_le) true) h
  join_eq := by
    rw [List.nil_append, join_cons, join_nil, List.append_nil]
    exact payload_ofBytes (Nat.le_trans h width.bytes_le) true
  count_pos some_byte := List.length_pos_iff.mpr some_byte
  of_nil := by
    rintro rfl
    exact ⟨rfl, rfl⟩

-- The chunks of a packet that is longer than the width, from those of its rest.
theorem CutInto.cons (h : width.bytes < packet.length)
    (rest : CutInto width (packet.drop width.bytes) begun final) :
    CutInto width packet (ofBytes (packet.take width.bytes) false :: begun) final := by
  have front : (packet.take width.bytes).length = width.bytes := by
    rw [List.length_take]
    omega
  have room : (packet.take width.bytes).length ≤ chunkRoom := by
    rw [front]
    exact width.bytes_le
  have carries := carries_ofBytes room false
  rw [front] at carries
  have more : packet.drop width.bytes ≠ [] := by
    rw [ne_eq, List.drop_eq_nil_iff]
    omega
  have left : packet.length - width.bytes * (begun.length + 1) =
      (packet.drop width.bytes).length - width.bytes * begun.length := by
    rw [List.length_drop, Nat.mul_succ]
    omega
  constructor
  · rw [ChunkCursor.split_of_lt h, rest.split_eq, List.cons_append]
  · rw [List.length_cons, rest.length_eq, List.length_drop, ChunkCursor.chunksFor_of_lt h]
  · rw [List.length_cons, left]
    exact rest.canonical.cons (rest.count_pos more) rfl carries
  · rw [List.cons_append, join_cons, rest.join_eq, payload_ofBytes room, List.take_append_drop]
  · intro _
    rw [List.length_cons, left]
    exact rest.count_pos more
  · rintro rfl
    exact absurd h (Nat.not_lt_zero _)

end Cutting

-- By induction on the length of the packet, a full chunk at a time.
theorem exists_cutInto (width : ChunkWidth) (packet : List UInt8) :
    ∃ begun final, CutInto width packet begun final := by
  induction hn : packet.length using Nat.strongRecOn generalizing packet with
  | ind n ih =>
    have pos := width.bytes_pos
    by_cases short : packet.length ≤ width.bytes
    · exact ⟨[], _, cutInto_of_le short⟩
    · have long : width.bytes < packet.length := Nat.lt_of_not_le short
      obtain ⟨begun, final, rest⟩ := ih (packet.length - width.bytes) (by omega)
        (packet.drop width.bytes) List.length_drop
      exact ⟨_, final, rest.cons long⟩

/-! ## 4. Cutting what was joined -/

-- Chunks in canonical form are what their bytes are cut into.  By induction on the full ones.
theorem Canonical.split_join {width : ChunkWidth} {begun : List Chunk} {final : Chunk} {count : Nat}
    (h : Canonical width begun final count) :
    split width (join (begun ++ [final])) = begun ++ [final] := by
  induction begun with
  | nil =>
    have short : final.payload.length ≤ width.bytes := by
      rw [h.carries_final.length_payload]
      exact h.count_le
    rw [List.nil_append, join_cons, join_nil, List.append_nil, ChunkCursor.split_of_le short,
      h.carries_final.ofBytes_payload h.marked]
  | cons chunk begun ih =>
    have mem : chunk ∈ chunk :: begun := List.mem_cons_self
    have front : chunk.payload.length = width.bytes := (h.carries_of_mem mem).length_payload
    have behind : 0 < (join (begun ++ [final])).length := by
      have pos := h.count_pos (List.cons_ne_nil chunk begun)
      have tail := h.carries_final.length_payload
      rw [join_append, join_cons, join_nil, List.append_nil, List.length_append]
      omega
    have long : width.bytes < (chunk.payload ++ join (begun ++ [final])).length := by
      rw [List.length_append]
      omega
    rw [List.cons_append, join_cons, ChunkCursor.split_of_lt long, ← front, List.take_left,
      List.drop_left, ih h.tail, (h.carries_of_mem mem).ofBytes_payload (h.unmarked chunk mem)]

def canonicalRuns (width : ChunkWidth) : Set (List Chunk) :=
  {chunks | ∃ begun final count, chunks = begun ++ [final] ∧ Canonical width begun final count}

/-- **Cutting and joining are inverse.**  Every packet is cut into chunks of canonical form that carry
it, chunks of canonical form are what their bytes are cut into, and so each run of them comes from
just one packet. -/
theorem split_bijOn_canonical (width : ChunkWidth) :
    (∀ packet, join (split width packet) = packet ∧
      ∃ begun final, CutInto width packet begun final) ∧
    (∀ chunks ∈ canonicalRuns width, split width (join chunks) = chunks) ∧
    Set.BijOn (split width) Set.univ (canonicalRuns width) := by
  have back (packet : List UInt8) : join (split width packet) = packet := by
    obtain ⟨begun, final, cut⟩ := exists_cutInto width packet
    rw [cut.split_eq, cut.join_eq]
  have again : ∀ chunks ∈ canonicalRuns width, split width (join chunks) = chunks := by
    rintro chunks ⟨begun, final, count, rfl, canonical⟩
    exact canonical.split_join
  have canonical : Set.MapsTo (split width) Set.univ (canonicalRuns width) := by
    intro packet _
    obtain ⟨begun, final, cut⟩ := exists_cutInto width packet
    exact ⟨begun, final, _, cut.split_eq, cut.canonical⟩
  refine ⟨fun packet => ⟨back packet, exists_cutInto width packet⟩, again, ?_⟩
  exact Set.InvOn.bijOn ⟨fun packet _ => back packet, again⟩ canonical (Set.mapsTo_univ join _)

end Chunk
end UdpGate
