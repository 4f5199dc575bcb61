import UdpGate.Chunk.Width

/-!
# Chunks

A chunk has room for 64 data bytes, a keep mask that says which of them count, and a mark on the
final chunk of a packet.  Masks with holes are legal: the payload then ends at the first hole,
while `byte?` still sees the bytes behind it.
-/

namespace UdpGate

structure Chunk where
  data : Vector UInt8 64
  keep : BitVec 64
  last : Bool
deriving DecidableEq

namespace Chunk

/-- A chunk that holds the first 64 of `bytes`, padded with zeros. -/
def ofBytes (bytes : List UInt8) (last : Bool) : Chunk where
  data := Vector.ofFn fun i => bytes.getD i 0
  keep := lowMask (min bytes.length chunkRoom)
  last := last

def isValid (chunk : Chunk) (offset : Nat) : Bool := chunk.keep.getLsbD offset

def byte? (chunk : Chunk) (offset : Nat) : Option UInt8 :=
  if chunk.isValid offset then chunk.data[offset]? else none

/-- The number of bytes in front of the first one that does not count. -/
def validLength (chunk : Chunk) : Nat :=
  ((List.range chunkRoom).takeWhile chunk.isValid).length

def payload (chunk : Chunk) : List UInt8 := chunk.data.toList.take chunk.validLength

def join (chunks : List Chunk) : List UInt8 := chunks.flatMap payload

theorem isSome_byte? (chunk : Chunk) (offset : Nat) :
    (chunk.byte? offset).isSome = chunk.isValid offset := by
  rw [byte?]
  cases valid : chunk.isValid offset with
  | false => rfl
  | true =>
    have room : offset < 64 := BitVec.lt_of_getLsbD valid
    rw [if_pos rfl, Vector.getElem?_eq_getElem room]
    rfl

@[simp] theorem join_nil : join [] = [] := rfl

@[simp] theorem join_cons (chunk : Chunk) (rest : List Chunk) :
    join (chunk :: rest) = chunk.payload ++ join rest := rfl

theorem join_append (a b : List Chunk) : join (a ++ b) = join a ++ join b := by
  simp [join]

end Chunk
end UdpGate
