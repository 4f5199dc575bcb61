import UdpGate.Rule.Key

/-!
# Toeplitz hashing of rule keys

A key of ten 32-bit words gives each input bit a window: the 32 bits of the key that begin at the
bit's own offset, counted from the low end of the first word.  The hash of an endpoint is the
exclusive or of the windows of its set bits; so it is linear in the 48 bits of the input.
-/

namespace UdpGate

/-- A hash key: ten words, lowest first. -/
structure ToeplitzKey where
  words : Vector (BitVec 32) 10
deriving DecidableEq

namespace ToeplitzKey

def standard : ToeplitzKey :=
  ⟨#v[0xD6E31417#32, 0x376CC87E#32, 0x011BA7A6#32, 0xDC1B91BB#32, 0x7872E224#32,
      0xBFD0404B#32, 0x260374B8#32, 0xD9270F6F#32, 0x18DC4386#32, 0x7C9C37DE#32]⟩

instance : Inhabited ToeplitzKey := ⟨standard⟩

def word (key : ToeplitzKey) (i : Nat) : BitVec 32 := key.words[i]?.getD 0

/-- The 32 key bits that begin at bit `offset`, put together from two neighbouring words. -/
def window (key : ToeplitzKey) (offset : Nat) : BitVec 32 :=
  key.word (offset / 32) >>> (offset % 32) |||
    key.word (offset / 32 + 1) <<< (32 - offset % 32)

def lastOffset : Nat := 320 - 32

def window? (key : ToeplitzKey) (offset : Nat) : Option (BitVec 32) :=
  if offset ≤ lastOffset then some (key.window offset) else none

def inputBits : Nat := 48

/-- The hash input of an endpoint: the address in the low 32 bits and the port above them. -/
def input (endpoint : RuleKey) : BitVec 48 :=
  endpoint.port.toBitVec ++ endpoint.address.value.toBitVec

def windowOfBit? (key : ToeplitzKey) (bit : Nat) : Option (BitVec 32) :=
  if bit < inputBits then some (key.window bit) else none

/-- The exclusive or of the windows of the set bits of `bits`. -/
def fold (key : ToeplitzKey) (bits : BitVec 48) : BitVec 32 :=
  ((List.range inputBits).filter bits.getLsbD).foldl (fun sum bit => sum ^^^ key.window bit) 0

def hash (key : ToeplitzKey) (endpoint : RuleKey) : BitVec 32 := key.fold (input endpoint)

end ToeplitzKey
end UdpGate
