import UdpGate.Header.Basic

/-!
# The Internet checksum

The checksum of an IPv4 header is the complement of the one's-complement sum of its 16-bit words:
carries out of the word are added back at its low end.
-/

namespace UdpGate

namespace Checksum

/-- The sum of the words of a run of bytes; a last single byte is the high half of a word. -/
def wordSum : List UInt8 → Nat
  | a :: b :: rest => a.toNat * 256 + b.toNat + wordSum rest
  | [a] => a.toNat * 256
  | [] => 0

def foldCarries (sum : Nat) : Nat :=
  if sum ≤ 0xFFFF then sum else foldCarries (sum % 0x10000 + sum / 0x10000)
termination_by sum

def ofSum (sum : Nat) : UInt16 := ~~~ UInt16.ofNat (foldCarries sum)

def ofBytes (bytes : List UInt8) : UInt16 := ofSum (wordSum bytes)

def accumulate (sum : UInt32) : List UInt8 → Option UInt32
  | a :: b :: rest =>
    match addWord sum (a.toNat * 256 + b.toNat) with
    | some sum => accumulate sum rest
    | none => none
  | [a] => addWord sum (a.toNat * 256)
  | [] => some sum
where
  addWord (sum : UInt32) (word : Nat) : Option UInt32 :=
    if sum.toNat + word < UInt32.size then some (UInt32.ofNat (sum.toNat + word)) else none

/-- The checksum of a run of bytes by an accumulator of 32 bits; none if it overflows. -/
def ofBytes? (bytes : List UInt8) : Option UInt16 :=
  (accumulate 0 bytes).map fun sum => ofSum sum.toNat

end Checksum
end UdpGate
