import UdpGate.Chunk.Width

/-!
# Header fields

The gate reads the first 42 bytes of a frame: an Ethernet header, an IPv4 header without options
and a UDP header.  They hold 17 fields that follow each other without a gap, so a field is given by
its offset and its length.
-/

namespace UdpGate

def headerLength : Nat := 42

def ethernetLength : Nat := 14

inductive Field where
  | ethDst | ethSrc | ethType
  | ipVersionIhl | ipDscpEcn | ipTotalLength | ipIdentification | ipFlagsFragment
  | ipTtl | ipProtocol | ipChecksum | ipSrc | ipDst
  | udpSrcPort | udpDstPort | udpLength | udpChecksum
deriving DecidableEq

namespace Field

def all : List Field :=
  [ethDst, ethSrc, ethType,
    ipVersionIhl, ipDscpEcn, ipTotalLength, ipIdentification, ipFlagsFragment,
    ipTtl, ipProtocol, ipChecksum, ipSrc, ipDst,
    udpSrcPort, udpDstPort, udpLength, udpChecksum]

def index : Field → Nat
  | ethDst => 0 | ethSrc => 1 | ethType => 2
  | ipVersionIhl => 3 | ipDscpEcn => 4 | ipTotalLength => 5 | ipIdentification => 6
  | ipFlagsFragment => 7 | ipTtl => 8 | ipProtocol => 9 | ipChecksum => 10
  | ipSrc => 11 | ipDst => 12
  | udpSrcPort => 13 | udpDstPort => 14 | udpLength => 15 | udpChecksum => 16

def offset : Field → Nat
  | ethDst => 0 | ethSrc => 6 | ethType => 12
  | ipVersionIhl => 14 | ipDscpEcn => 15 | ipTotalLength => 16 | ipIdentification => 18
  | ipFlagsFragment => 20 | ipTtl => 22 | ipProtocol => 23 | ipChecksum => 24
  | ipSrc => 26 | ipDst => 30
  | udpSrcPort => 34 | udpDstPort => 36 | udpLength => 38 | udpChecksum => 40

def length : Field → Nat
  | ethDst | ethSrc => 6
  | ipVersionIhl | ipDscpEcn | ipTtl | ipProtocol => 1
  | ipSrc | ipDst => 4
  | ethType | ipTotalLength | ipIdentification | ipFlagsFragment | ipChecksum
  | udpSrcPort | udpDstPort | udpLength | udpChecksum => 2

def stop (field : Field) : Nat := field.offset + field.length

def positions (field : Field) : List Nat := List.range' field.offset field.length

/-- The field's bytes in a set of header bytes that has a bit for each offset. -/
def byteMask (field : Field) : BitVec 64 := lowMask field.length <<< field.offset

/-- The bytes of a field as `bytes` shows them, if it shows all of them. -/
def read? (field : Field) (bytes : Nat → Option UInt8) : Option (List UInt8) :=
  field.positions.mapM bytes

theorem mem_all (field : Field) : field ∈ all := by
  cases field <;> decide

theorem length_pos (field : Field) : 0 < field.length := by
  cases field <;> decide

theorem stop_le (field : Field) : field.stop ≤ headerLength := by
  cases field <;> decide

theorem index_lt (field : Field) : field.index < 17 := by
  cases field <;> decide

theorem getElem?_all_index (field : Field) : all[field.index]? = some field := by
  cases field <;> rfl

theorem index_inj {a b : Field} (h : a.index = b.index) : a = b := by
  have hab := getElem?_all_index a
  rw [h, getElem?_all_index b] at hab
  exact (Option.some.inj hab).symm

end Field

/-! ## Sets of fields -/

/-- A set of fields, one bit for each. -/
structure FieldSet where
  bits : BitVec 17 := 0
deriving DecidableEq

namespace FieldSet

def none : FieldSet := {}

def contains (set : FieldSet) (field : Field) : Bool := set.bits.getLsbD field.index

def insert (set : FieldSet) (field : Field) : FieldSet :=
  ⟨set.bits ||| BitVec.twoPow 17 field.index⟩

def toList (set : FieldSet) : List Field := Field.all.filter set.contains

def isFull (set : FieldSet) : Bool := Field.all.all set.contains

@[simp] theorem contains_none (field : Field) : none.contains field = false := by
  simp [none, contains]

@[simp] theorem contains_insert (set : FieldSet) (field other : Field) :
    (set.insert field).contains other = (set.contains other || decide (field = other)) := by
  have inside := other.index_lt
  have same : other.index = field.index ↔ field = other :=
    ⟨fun h => (Field.index_inj h).symm, fun h => h ▸ rfl⟩
  simp [insert, contains, inside, same]

end FieldSet
end UdpGate
