import UdpGate.Mailbox
import UdpGate.Tally

/-!
# The register words

The control side reaches the mailbox and the counters through 32-bit words at fixed byte offsets.
The three rule registers can be written and read back; each counter shows its low and its high
word, which cannot be written; every other offset reads as zero and ignores writes.
-/

namespace UdpGate

def addressOffset : UInt32 := 0x10

def portOffset : UInt32 := 0x18

def actionOffset : UInt32 := 0x20

namespace Counter

/-- The offset of the low word of a counter; the high word follows four bytes behind it. -/
def offset : Counter → UInt32
  | packetsIn => 0x28
  | chunksIn => 0x40
  | packetsForwarded => 0x58
  | packetsDropped => 0x70

def at? (offset : UInt32) : Option Counter := all.find? fun counter => counter.offset == offset

end Counter

def lowWord (value : UInt64) : UInt32 := value.toUInt32

def highWord (value : UInt64) : UInt32 := (value >>> 32).toUInt32

def joinWords (low high : UInt32) : UInt64 := high.toUInt64 <<< 32 ||| low.toUInt64

theorem toNat_lowWord (value : UInt64) : (lowWord value).toNat = value.toNat % UInt32.size :=
  UInt64.toNat_toUInt32 value

theorem toNat_highWord (value : UInt64) : (highWord value).toNat = value.toNat / UInt32.size := by
  have := value.toNat_lt
  unfold highWord
  rw [UInt64.toNat_toUInt32, UInt64.toNat_shiftRight]
  show value.toNat >>> 32 % 4294967296 = value.toNat / 4294967296
  rw [Nat.shiftRight_eq_div_pow]
  omega

theorem toNat_joinWords (low high : UInt32) :
    (joinWords low high).toNat = high.toNat * UInt32.size + low.toNat := by
  have low_lt := low.toNat_lt
  have high_lt := high.toNat_lt
  have shifted : (high.toUInt64 <<< 32).toNat = high.toNat <<< 32 := by
    rw [UInt64.toNat_shiftLeft, UInt32.toNat_toUInt64]
    show high.toNat <<< 32 % 18446744073709551616 = high.toNat <<< 32
    rw [Nat.shiftLeft_eq]
    omega
  unfold joinWords
  rw [UInt64.toNat_or, shifted, UInt32.toNat_toUInt64, ← Nat.shiftLeft_add_eq_or_of_lt low_lt,
    Nat.shiftLeft_eq]

-- The words of a number that stays as it is make it up again.
@[simp] theorem joinWords_lowWord_highWord (value : UInt64) :
    joinWords (lowWord value) (highWord value) = value := by
  apply UInt64.toNat_inj.mp
  rw [toNat_joinWords, toNat_highWord, toNat_lowWord]
  show value.toNat / 4294967296 * 4294967296 + value.toNat % 4294967296 = value.toNat
  omega

structure Console where
  mailbox : Mailbox := {}
  tally : Tally := {}
deriving DecidableEq

namespace Console

/-- Writes a word.  The port register keeps 16 bits and the action register 8; writing the action
commits the rule. -/
def write (console : Console) (offset value : UInt32) : Console :=
  if offset = addressOffset then
    { console with mailbox := console.mailbox.stageAddress value }
  else if offset = portOffset then
    { console with mailbox := console.mailbox.stagePort value.toUInt16 }
  else if offset = actionOffset then
    { console with mailbox := console.mailbox.commitCode value.toUInt8 }
  else console

/-- Reads a word.  A counter takes eight bytes: an offset in the lower four shows its low word,
one in the upper four its high word. -/
def read (console : Console) (offset : UInt32) : UInt32 :=
  if offset = addressOffset then console.mailbox.staged.address
  else if offset = portOffset then console.mailbox.staged.port.toUInt32
  else if offset = actionOffset then console.mailbox.staged.code.toUInt32
  else
    match Counter.at? (offset &&& 0xFFFFFFF8) with
    | some counter =>
      let value := counter.read console.tally
      if offset &&& 4 = 0 then lowWord value else highWord value
    | none => 0

/-- Reads a word and the one four bytes behind it, low word first.  There is none behind the last
four offsets. -/
def readPair? (console : Console) (offset : UInt32) : Option UInt64 :=
  if offset.toNat + 4 < UInt32.size then
    some (joinWords (console.read offset) (console.read (offset + 4)))
  else none

def counter (console : Console) (counter : Counter) : UInt64 :=
  joinWords (console.read counter.offset) (console.read (counter.offset + 4))

def counters (console : Console) : Tally where
  packetsIn := console.counter .packetsIn
  chunksIn := console.counter .chunksIn
  packetsForwarded := console.counter .packetsForwarded
  packetsDropped := console.counter .packetsDropped

theorem read_low (console : Console) (counter : Counter) :
    console.read counter.offset = lowWord (counter.read console.tally) := by
  cases counter <;> rfl

theorem read_high (console : Console) (counter : Counter) :
    console.read (counter.offset + 4) = highWord (counter.read console.tally) := by
  cases counter <;> rfl

theorem counters_eq (console : Console) : console.counters = console.tally := by
  have counter_eq (counter : Counter) : console.counter counter = counter.read console.tally := by
    unfold Console.counter
    rw [read_low, read_high, joinWords_lowWord_highWord]
  unfold counters
  simp only [counter_eq]
  rfl

end Console
end UdpGate
