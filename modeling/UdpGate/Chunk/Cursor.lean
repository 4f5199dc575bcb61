import UdpGate.Chunk.Basic

/-!
# Cutting a packet into chunks

A cursor stands between two chunks of a packet and yields one chunk at a time.  `Chunk.split`
collects all of them.  The packet may be empty: it yields a single empty chunk, marked as last.
-/

namespace UdpGate

/-- A packet that is being cut into chunks. -/
structure ChunkCursor where
  width : ChunkWidth
  rest : List UInt8
  finished : Bool
deriving DecidableEq

namespace ChunkCursor

def ofPacket (width : ChunkWidth) (packet : List UInt8) : ChunkCursor where
  width := width
  rest := packet
  finished := false

/-- The next chunk and the cursor behind it.  It is the last one when no byte is left behind it. -/
def next? (cursor : ChunkCursor) : Option (Chunk × ChunkCursor) :=
  if cursor.finished then none
  else
    let behind := cursor.rest.drop cursor.width.bytes
    let last := behind.isEmpty
    some (Chunk.ofBytes (cursor.rest.take cursor.width.bytes) last,
      { cursor with rest := behind, finished := last })

def remaining (cursor : ChunkCursor) : Nat :=
  if cursor.finished then 0 else cursor.width.chunksFor cursor.rest.length

def sizeHint (cursor : ChunkCursor) : Nat × Option Nat :=
  (cursor.remaining, some cursor.remaining)

def size? (cursor : ChunkCursor) : Option Nat :=
  if cursor.sizeHint.2 = some cursor.sizeHint.1 then some cursor.sizeHint.1 else none

/-- Asks for a chunk.  Behind the last one there is none, and the cursor stays where it is. -/
def poll (cursor : ChunkCursor) : Option Chunk × ChunkCursor :=
  match cursor.next? with
  | some (chunk, after) => (some chunk, after)
  | none => (none, cursor)

def measure (cursor : ChunkCursor) : Nat :=
  if cursor.finished then 0 else cursor.rest.length + 1

theorem measure_lt_of_next? {cursor after : ChunkCursor} {chunk : Chunk}
    (h : cursor.next? = some (chunk, after)) : after.measure < cursor.measure := by
  unfold next? at h
  split at h
  · cases h
  · rename_i open_
    have := cursor.width.bytes_pos
    simp only [Option.some.injEq, Prod.mk.injEq] at h
    obtain ⟨-, rfl⟩ := h
    simp only [measure, open_, List.isEmpty_iff, List.length_drop]
    split
    · simp
    · rename_i more
      have : cursor.width.bytes < cursor.rest.length := by
        simpa [List.drop_eq_nil_iff] using more
      simp; omega

def foldl (f : σ → Chunk → σ) (start : σ) (cursor : ChunkCursor) : σ :=
  match _step : cursor.next? with
  | none => start
  | some (chunk, after) => foldl f (f start chunk) after
termination_by cursor.measure
decreasing_by exact measure_lt_of_next? (by assumption)

def toList (cursor : ChunkCursor) : List Chunk :=
  (cursor.foldl Array.push #[]).toList

end ChunkCursor

def Chunk.split (width : ChunkWidth) (packet : List UInt8) : List Chunk :=
  (ChunkCursor.ofPacket width packet).toList

end UdpGate
