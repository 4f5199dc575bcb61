import UdpGate.Header.Field

/-!
# When header bytes and fields arrive

Byte `b` of a frame travels in chunk `b / width`.  A field is complete with the chunk of its last
byte, and the whole header with the decision chunk.  Chunk indexes are 64-bit numbers: a product
that does not fit stays at the greatest of them, far behind the header.
-/

namespace UdpGate

def maxIndex : Nat := UInt64.size - 1

namespace ChunkWidth

/-- The chunk that brings the last header byte. -/
def decisionChunk (width : ChunkWidth) : Nat := (headerLength - 1) / width.bytes

/-- The first header byte of chunk `index`; the header's length if it brings none. -/
def headerStart (width : ChunkWidth) (index : Nat) : Nat :=
  min (min (index * width.bytes) maxIndex) headerLength

def headerStop (width : ChunkWidth) (index : Nat) : Nat :=
  min (width.headerStart index + width.bytes) headerLength

def headerBytes (width : ChunkWidth) (index : Nat) : List Nat :=
  List.range' (width.headerStart index) (width.headerStop index - width.headerStart index)

/-- The chunk that brings the last byte of a field. -/
def owner (width : ChunkWidth) (field : Field) : Nat := (field.stop - 1) / width.bytes

def completedIn (width : ChunkWidth) (index : Nat) : List Field :=
  Field.all.filter fun field => width.owner field == index

theorem headerStart_eq (width : ChunkWidth) (index : Nat) :
    width.headerStart index = min (index * width.bytes) headerLength := by
  unfold headerStart maxIndex headerLength UInt64.size
  omega

theorem owner_le_decisionChunk (width : ChunkWidth) (field : Field) :
    width.owner field ≤ width.decisionChunk :=
  Nat.div_le_div_right (Nat.sub_le_sub_right field.stop_le 1)

theorem mem_completedIn {width : ChunkWidth} {index : Nat} {field : Field} :
    field ∈ width.completedIn index ↔ width.owner field = index := by
  simp [completedIn, field.mem_all]

end ChunkWidth
end UdpGate
