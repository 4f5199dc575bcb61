import UdpGate.Chunk.Basic
import UdpGate.Header.Basic
import UdpGate.Header.Schedule

/-!
# Assembling a header while the chunks pass

An assembly keeps the header bytes of the current packet as they arrive and stores each field with
the chunk that completes it.  A byte that its chunk does not vouch for never arrives, and a field
with a missing byte stays unset.  What the last packet left stays readable until the next one
begins.
-/

namespace UdpGate

/-- What is known of the header of the current packet. -/
structure Assembly where
  width : ChunkWidth
  nextIndex : Nat := 0
  betweenPackets : Bool := true
  arrived : Vector (Option UInt8) 42 := Vector.replicate 42 none
  header : Header := {}

namespace Assembly

def start (width : ChunkWidth) : Assembly := { width := width }

def reset (assembly : Assembly) : Assembly := start assembly.width

def byte? (assembly : Assembly) (offset : Nat) : Option UInt8 := assembly.arrived[offset]?.join

def arrivedMask (assembly : Assembly) : BitVec 64 :=
  (BitVec.ofBoolListLE (assembly.arrived.toList.map Option.isSome)).setWidth 64

def receive (assembly : Assembly) (index : Nat) (chunk : Chunk) : Assembly :=
  let start := assembly.width.headerStart index
  let stop := assembly.width.headerStop index
  { assembly with
    arrived := assembly.arrived.mapIdx fun offset known =>
      if start ≤ offset ∧ offset < stop then (chunk.byte? (offset - start)).or known else known }

def storeCompleted (assembly : Assembly) (index : Nat) : Assembly :=
  { assembly with
    header := (assembly.width.completedIn index).foldl
      (fun header field => header.fill assembly.byte? field) assembly.header }

/-- Takes over what chunk `index` says about the header; nothing if it lies behind it. -/
def fill (assembly : Assembly) (index : Nat) (chunk : Chunk) : Assembly :=
  if assembly.width.headerStart index < assembly.width.headerStop index then
    (assembly.receive index chunk).storeCompleted index
  else assembly

def opened (assembly : Assembly) : Assembly :=
  if assembly.betweenPackets then { assembly.reset with betweenPackets := false } else assembly

def incomingIndex (assembly : Assembly) : Nat := assembly.opened.nextIndex

/-- Takes the next chunk.  After the last chunk of a packet the count starts again. -/
def consume (assembly : Assembly) (chunk : Chunk) : Assembly :=
  let filled := assembly.opened.fill assembly.incomingIndex chunk
  if chunk.last then { filled with nextIndex := 0, betweenPackets := true }
  else { filled with nextIndex := min (assembly.incomingIndex + 1) maxIndex }

def consumeAll (assembly : Assembly) (chunks : List Chunk) : Assembly :=
  chunks.foldl consume assembly

end Assembly
end UdpGate
