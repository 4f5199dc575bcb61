/-!
# Packet counts

Four 64-bit counters.  They wrap: a counter at its greatest value goes on at zero.
-/

namespace UdpGate

structure Tally where
  packetsIn : UInt64 := 0
  chunksIn : UInt64 := 0
  packetsForwarded : UInt64 := 0
  packetsDropped : UInt64 := 0
deriving DecidableEq, Inhabited

namespace Tally

def record (tally : Tally) (chunks : UInt64) (forwarded : Bool) : Tally where
  packetsIn := tally.packetsIn + 1
  chunksIn := tally.chunksIn + chunks
  packetsForwarded := tally.packetsForwarded + if forwarded then 1 else 0
  packetsDropped := tally.packetsDropped + if forwarded then 0 else 1

/-- How far a counter grew; zero if it fell. -/
def growth (now earlier : UInt64) : UInt64 := if earlier ≤ now then now - earlier else 0

def since (now earlier : Tally) : Tally where
  packetsIn := growth now.packetsIn earlier.packetsIn
  chunksIn := growth now.chunksIn earlier.chunksIn
  packetsForwarded := growth now.packetsForwarded earlier.packetsForwarded
  packetsDropped := growth now.packetsDropped earlier.packetsDropped

theorem toNat_growth (now earlier : UInt64) :
    (growth now earlier).toNat = now.toNat - earlier.toNat := by
  unfold growth
  split
  · rename_i le
    exact UInt64.toNat_sub_of_le _ _ le
  · rename_i lt
    have := UInt64.lt_iff_toNat_lt.mp (UInt64.not_le.mp lt)
    simp
    omega

end Tally

inductive Counter where
  | packetsIn | chunksIn | packetsForwarded | packetsDropped
deriving DecidableEq

namespace Counter

def all : List Counter := [packetsIn, chunksIn, packetsForwarded, packetsDropped]

def read (counter : Counter) (tally : Tally) : UInt64 :=
  match counter with
  | packetsIn => tally.packetsIn
  | chunksIn => tally.chunksIn
  | packetsForwarded => tally.packetsForwarded
  | packetsDropped => tally.packetsDropped

def name : Counter → String
  | packetsIn => "packets_in"
  | chunksIn => "chunks_in"
  | packetsForwarded => "packets_forwarded"
  | packetsDropped => "packets_dropped"

end Counter
end UdpGate
