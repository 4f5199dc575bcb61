import UdpGate.Header.Field
import UdpGate.Rule.Key

/-!
# Header values

A header holds the values of the 17 fields and the set of those that were read from a frame.
Storing bytes into a field reads them in network order and marks the field; `toBytes` writes all
fields, marked or not.  Two fields share their bytes between two values: the IP version with the
header length, four bits each, and the flags with the fragment offset, three bits and thirteen.
-/

namespace UdpGate

/-! ## 1. Values in network order -/

abbrev Mac := Vector UInt8 6

def Mac.ofBytes? (bytes : List UInt8) : Option Mac :=
  if h : bytes.length = 6 then some ⟨bytes.toArray, by simp [h]⟩ else none

def leadingByte? : List UInt8 → Option UInt8
  | a :: _ => some a
  | [] => none

def leadingWord? : List UInt8 → Option UInt16
  | a :: b :: _ => some (UInt16.ofNat (a.toNat * 256 + b.toNat))
  | _ => none

def leadingAddress? : List UInt8 → Option Address
  | a :: b :: c :: d :: _ => some (Address.ofParts a b c d)
  | _ => none

def wordBytes (word : UInt16) : List UInt8 :=
  [UInt8.ofNat (word.toNat / 256), UInt8.ofNat word.toNat]

/-! ## 2. Headers -/

structure EthernetHeader where
  dst : Mac := Vector.replicate 6 0
  src : Mac := Vector.replicate 6 0
  etherType : UInt16 := 0
deriving DecidableEq

structure Ipv4Header where
  version : UInt8 := 0
  ihl : UInt8 := 0
  dscpEcn : UInt8 := 0
  totalLength : UInt16 := 0
  identification : UInt16 := 0
  flags : UInt8 := 0
  fragmentOffset : UInt16 := 0
  ttl : UInt8 := 0
  protocol : UInt8 := 0
  checksum : UInt16 := 0
  src : Address := ⟨0⟩
  dst : Address := ⟨0⟩
deriving DecidableEq

structure UdpHeader where
  srcPort : UInt16 := 0
  dstPort : UInt16 := 0
  length : UInt16 := 0
  checksum : UInt16 := 0
deriving DecidableEq

/-- The values of the three headers, and which of them are known. -/
structure Header where
  ethernet : EthernetHeader := {}
  ipv4 : Ipv4Header := {}
  udp : UdpHeader := {}
  populated : FieldSet := .none
deriving DecidableEq

def etherTypeIpv4 : UInt16 := 0x0800

def protocolUdp : UInt8 := 17

inductive Endpoint where
  | destination
  | source
deriving DecidableEq, Inhabited

namespace Endpoint

def addressField : Endpoint → Field
  | destination => .ipDst
  | source => .ipSrc

def portField : Endpoint → Field
  | destination => .udpDstPort
  | source => .udpSrcPort

def name : Endpoint → String
  | destination => "dst"
  | source => "src"

end Endpoint

namespace Header

/-! ## 3. Questions the gate asks -/

def isComplete (header : Header) : Bool := header.populated.isFull

def isIpv4? (header : Header) : Option Bool :=
  if header.populated.contains .ethType then some (header.ethernet.etherType == etherTypeIpv4)
  else none

def isUdp? (header : Header) : Option Bool :=
  if header.populated.contains .ipProtocol then some (header.ipv4.protocol == protocolUdp)
  else none

def key? (header : Header) (endpoint : Endpoint) : Option RuleKey :=
  if header.populated.contains endpoint.addressField
      && header.populated.contains endpoint.portField then
    match endpoint with
    | .destination => some ⟨header.ipv4.dst, header.udp.dstPort⟩
    | .source => some ⟨header.ipv4.src, header.udp.srcPort⟩
  else none

/-! ## 4. From bytes -/

/-- Gives a field the value that the bytes stand for, without marking it.  The bytes behind those
that the field needs are ignored, but an Ethernet address takes exactly six. -/
def assign? (header : Header) (field : Field) (bytes : List UInt8) : Option Header :=
  let eth := header.ethernet
  let ip := header.ipv4
  let udp := header.udp
  match field with
  | .ethDst => (Mac.ofBytes? bytes).map fun v => { header with ethernet := { eth with dst := v } }
  | .ethSrc => (Mac.ofBytes? bytes).map fun v => { header with ethernet := { eth with src := v } }
  | .ethType =>
    (leadingWord? bytes).map fun v => { header with ethernet := { eth with etherType := v } }
  | .ipVersionIhl =>
    (leadingByte? bytes).map fun (v : UInt8) =>
      { header with ipv4 := { ip with version := v >>> 4, ihl := v &&& 0x0F } }
  | .ipDscpEcn => (leadingByte? bytes).map fun v => { header with ipv4 := { ip with dscpEcn := v } }
  | .ipTotalLength =>
    (leadingWord? bytes).map fun v => { header with ipv4 := { ip with totalLength := v } }
  | .ipIdentification =>
    (leadingWord? bytes).map fun v => { header with ipv4 := { ip with identification := v } }
  | .ipFlagsFragment =>
    (leadingWord? bytes).map fun (v : UInt16) =>
      { header with ipv4 := { ip with flags := (v >>> 13).toUInt8, fragmentOffset := v &&& 0x1FFF } }
  | .ipTtl => (leadingByte? bytes).map fun v => { header with ipv4 := { ip with ttl := v } }
  | .ipProtocol =>
    (leadingByte? bytes).map fun v => { header with ipv4 := { ip with protocol := v } }
  | .ipChecksum =>
    (leadingWord? bytes).map fun v => { header with ipv4 := { ip with checksum := v } }
  | .ipSrc => (leadingAddress? bytes).map fun v => { header with ipv4 := { ip with src := v } }
  | .ipDst => (leadingAddress? bytes).map fun v => { header with ipv4 := { ip with dst := v } }
  | .udpSrcPort => (leadingWord? bytes).map fun v => { header with udp := { udp with srcPort := v } }
  | .udpDstPort => (leadingWord? bytes).map fun v => { header with udp := { udp with dstPort := v } }
  | .udpLength => (leadingWord? bytes).map fun v => { header with udp := { udp with length := v } }
  | .udpChecksum =>
    (leadingWord? bytes).map fun v => { header with udp := { udp with checksum := v } }

def mark (header : Header) (field : Field) : Header :=
  { header with populated := header.populated.insert field }

def store? (header : Header) (field : Field) (bytes : List UInt8) : Option Header :=
  (header.assign? field bytes).map (mark · field)

def fill (header : Header) (bytes : Nat → Option UInt8) (field : Field) : Header :=
  ((field.read? bytes).bind (header.store? field)).getD header

/-- The header that a partly known frame shows: `bytes` gives the byte at an offset, if known. -/
def ofView (bytes : Nat → Option UInt8) : Header :=
  Field.all.foldl (fun header field => header.fill bytes field) {}

def ofBytes (frame : List UInt8) : Header := ofView (frame[·]?)

/-! ## 5. To bytes -/

def fieldBytes (header : Header) : Field → List UInt8
  | .ethDst => header.ethernet.dst.toList
  | .ethSrc => header.ethernet.src.toList
  | .ethType => wordBytes header.ethernet.etherType
  | .ipVersionIhl => [header.ipv4.version <<< 4 ||| header.ipv4.ihl &&& 0x0F]
  | .ipDscpEcn => [header.ipv4.dscpEcn]
  | .ipTotalLength => wordBytes header.ipv4.totalLength
  | .ipIdentification => wordBytes header.ipv4.identification
  | .ipFlagsFragment =>
    wordBytes (header.ipv4.flags.toUInt16 <<< 13 ||| header.ipv4.fragmentOffset &&& 0x1FFF)
  | .ipTtl => [header.ipv4.ttl]
  | .ipProtocol => [header.ipv4.protocol]
  | .ipChecksum => wordBytes header.ipv4.checksum
  | .ipSrc => header.ipv4.src.parts
  | .ipDst => header.ipv4.dst.parts
  | .udpSrcPort => wordBytes header.udp.srcPort
  | .udpDstPort => wordBytes header.udp.dstPort
  | .udpLength => wordBytes header.udp.length
  | .udpChecksum => wordBytes header.udp.checksum

/-- Writes a field over a buffer.  A field of one byte is written to the front of any buffer that
has a byte; a longer one needs a buffer of its own length. -/
def writeOver? (header : Header) (field : Field) (buffer : List UInt8) : Option (List UInt8) :=
  if field.length = 1 then
    if buffer.isEmpty then none else some (header.fieldBytes field ++ buffer.drop 1)
  else if buffer.length = field.length then some (header.fieldBytes field)
  else none

def toBytes (header : Header) : List UInt8 := Field.all.flatMap header.fieldBytes

theorem length_fieldBytes (header : Header) (field : Field) :
    (header.fieldBytes field).length = field.length := by
  cases field <;> simp [fieldBytes, Field.length, wordBytes, Address.parts]

theorem length_toBytes (header : Header) : header.toBytes.length = headerLength := by
  simp [toBytes, length_fieldBytes, Field.all, Field.length, headerLength]

end Header
end UdpGate
