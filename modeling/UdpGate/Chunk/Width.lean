/-!
# Chunk widths

A packet travels as a run of chunks of at most 64 bytes.  The width says how many bytes of the
packet each chunk but the final one carries.  A width is a number from 1 to 64 by its type, so
nothing that divides by it has a case to refuse.
-/

namespace UdpGate

def chunkRoom : Nat := 64

/-- The low `n` bits of a keep mask; all 64 of them from `n = 64` on. -/
def lowMask (n : Nat) : BitVec 64 := BitVec.ofNat 64 (Nat.pow 2 n - 1)

/-- How many bytes of a packet a full chunk carries. -/
structure ChunkWidth where
  bytes : Nat
  bytes_pos : 0 < bytes := by decide
  bytes_le : bytes ≤ 64 := by decide
deriving DecidableEq

namespace ChunkWidth

def widest : ChunkWidth := { bytes := 64 }

instance : Inhabited ChunkWidth := ⟨widest⟩

def ofNat? (bytes : Nat) : Option ChunkWidth :=
  if h : 0 < bytes ∧ bytes ≤ 64 then some ⟨bytes, h.1, h.2⟩ else none

def fullMask (width : ChunkWidth) : BitVec 64 := lowMask width.bytes

/-- Chunks that a packet of `length` bytes is cut into.  The empty packet still takes one. -/
def chunksFor (width : ChunkWidth) (length : Nat) : Nat :=
  max ((length + width.bytes - 1) / width.bytes) 1

theorem ofNat?_eq_some_iff {n : Nat} {width : ChunkWidth} :
    ofNat? n = some width ↔ width.bytes = n := by
  unfold ofNat?
  constructor
  · intro h
    split at h
    · rw [← Option.some.inj h]
    · cases h
  · rintro rfl
    rw [dif_pos ⟨width.bytes_pos, width.bytes_le⟩]

theorem ofNat?_eq_none_iff {n : Nat} : ofNat? n = none ↔ n = 0 ∨ 64 < n := by
  unfold ofNat?
  split
  · simp; omega
  · simp; omega

end ChunkWidth
end UdpGate
