import UdpGate.Proofs.HeaderCodec
import UdpGate.Proofs.OnesComplement
import UdpGate.Proofs.PoolRun

/-!
# Frames that were built

A built frame is the front of a written header with a body behind it, so the gate reads the header
back from it (`Header.ofBytes_toBytes_append`).  Its checksum is the one of its IPv4 header with zeros
in the place of the checksum, and verifies.
-/

namespace UdpGate
namespace Header

variable (header : Header)

/-! ## 1. The checksum of a header -/

def fieldsBeforeChecksum : List Field :=
  [.ipVersionIhl, .ipDscpEcn, .ipTotalLength, .ipIdentification, .ipFlagsFragment, .ipTtl,
    .ipProtocol]

def ethernetFields : List Field := [.ethDst, .ethSrc, .ethType]

theorem take_toBytes :
    header.toBytes.take ethernetLength = ethernetFields.flatMap header.fieldBytes := by
  have front : (ethernetFields.flatMap header.fieldBytes).length = ethernetLength := by
    simp [ethernetFields, length_fieldBytes, Field.length, ethernetLength]
  have cut : header.toBytes = ethernetFields.flatMap header.fieldBytes ++
      (Field.all.drop 3).flatMap header.fieldBytes := by
    rw [← List.flatMap_append]
    rfl
  rw [cut, List.take_left' front]

theorem ipv4Bytes_eq :
    header.ipv4Bytes = fieldsBeforeChecksum.flatMap header.fieldBytes ++
      wordBytes header.ipv4.checksum ++ (header.ipv4.src.parts ++ header.ipv4.dst.parts) := by
  have length_eq : (fieldsBeforeChecksum.flatMap header.fieldBytes ++
      wordBytes header.ipv4.checksum ++
        (header.ipv4.src.parts ++ header.ipv4.dst.parts)).length = ipv4Length := by
    simp [fieldsBeforeChecksum, length_fieldBytes, Field.length, wordBytes, Address.parts,
      ipv4Length]
  have onwards : header.toBytes.drop ethernetLength =
      (fieldsBeforeChecksum.flatMap header.fieldBytes ++ wordBytes header.ipv4.checksum ++
        (header.ipv4.src.parts ++ header.ipv4.dst.parts)) ++
          (Field.all.drop 13).flatMap header.fieldBytes := by
    rw [show ethernetLength = Field.offset .ipVersionIhl from rfl, drop_toBytes]
    simp [fieldsBeforeChecksum, Field.all, Field.index, fieldBytes]
  rw [ipv4Bytes, onwards, List.take_left' length_eq]

-- A header without a checksum gets one that makes the sum of its words vanish.
theorem ofBytes_ipv4Bytes_withChecksum {header : Header} (blank : header.ipv4.checksum = 0) :
    Checksum.ofBytes header.withChecksum.ipv4Bytes = 0 := by
  have before : header.ipv4Bytes = fieldsBeforeChecksum.flatMap header.fieldBytes ++
      0 :: 0 :: (header.ipv4.src.parts ++ header.ipv4.dst.parts) := by
    rw [ipv4Bytes_eq, blank, List.append_assoc]
    rfl
  have even : (fieldsBeforeChecksum.flatMap header.fieldBytes).length % 2 = 0 := by
    simp [fieldsBeforeChecksum, length_fieldBytes, Field.length]
  rw [ipv4Bytes_eq]
  show Checksum.ofBytes (fieldsBeforeChecksum.flatMap header.fieldBytes ++
    wordBytes (Checksum.ofBytes header.ipv4Bytes) ++
      (header.ipv4.src.parts ++ header.ipv4.dst.parts)) = 0
  rw [before, Checksum.ofBytes_insert even]

/-! ## 2. Headers read off the front of a frame -/

theorem read?_take_toBytes_append {field : Field} {count : Nat} (inside : field.stop ≤ count)
    (rest : List UInt8) :
    field.read? ((header.toBytes.take count ++ rest)[·]?) = some (header.fieldBytes field) := by
  rw [← read?_toBytes header field]
  apply Field.read?_congr
  intro position _ upper
  have reached : position < count := Nat.lt_of_lt_of_le upper inside
  have written : position < (header.toBytes.take count).length := by
    rw [List.length_take, length_toBytes]
    exact Nat.lt_min.mpr ⟨reached, Nat.lt_of_lt_of_le upper field.stop_le⟩
  rw [List.getElem?_append_left written, List.getElem?_take_of_lt reached]

theorem ofBytes_toBytes_append (rest : List UInt8) :
    ofBytes (header.toBytes ++ rest) = ofBytes header.toBytes := by
  have whole : header.toBytes.take headerLength = header.toBytes :=
    List.take_of_length_le (Nat.le_of_eq header.length_toBytes)
  rw [ofBytes_toBytes_eq_ofFields, ofBytes, ofView_eq_ofFields]
  congr 1
  funext field
  rw [← header.read?_take_toBytes_append field.stop_le rest, whole]

-- The first 34 bytes are enough for the fields of Ethernet and IPv4.
theorem ofBytes_take_toBytes_append (rest : List UInt8) :
    (ofBytes (header.toBytes.take 34 ++ rest)).ethernet = (ofBytes header.toBytes).ethernet ∧
      (ofBytes (header.toBytes.take 34 ++ rest)).ipv4 = (ofBytes header.toBytes).ipv4 := by
  have known (field : Field) (inside : field.stop ≤ 34) :=
    header.read?_take_toBytes_append inside rest
  rw [ofBytes_toBytes_eq_ofFields, ofBytes, ofView_eq_ofFields]
  constructor
  · simp (disch := decide) only [ofFields, known]
  · simp (disch := decide) only [ofFields, known]

end Header

/-! ## 3. Built frames -/

variable (protocol : UInt8) (src dst : Address) (body : List UInt8)

/-- A frame that carries a body in an IPv4 packet: what it is made of, and what the gate reads. -/
structure CarriesIpv4 (frame : List UInt8) : Prop where
  length_eq : frame.length = 34 + body.length
  drop_eq : frame.drop 34 = body
  checksum_eq : Checksum.ofBytes? (frame.extract 14 34) = some 0
  known : ∀ field : Field, field.stop ≤ 34 → (Header.ofBytes frame).populated.contains field
  ethernet_eq : (Header.ofBytes frame).ethernet =
    { dst := Vector.replicate 6 0, src := Vector.replicate 6 0, etherType := 0x0800 }
  ipv4_eq : ∃ totalLength checksum : UInt16, totalLength.toNat = (20 + body.length) % 65536 ∧
    (Header.ofBytes frame).ipv4 =
      { version := 4, ihl := 5, totalLength := totalLength, flags := 2, ttl := 64,
        protocol := protocol, checksum := checksum, src := src, dst := dst }
  encapsulate_eq : encapsulate (frame.drop 14) = frame

structure CarriesUdp (src dst : RuleKey) (payload frame : List UInt8) : Prop where
  complete : (Header.ofBytes frame).isComplete = true
  isIpv4?_eq : (Header.ofBytes frame).isIpv4? = some true
  isUdp?_eq : (Header.ofBytes frame).isUdp? = some true
  source : (Header.ofBytes frame).key? .source = some src
  destination : (Header.ofBytes frame).key? .destination = some dst
  length_eq : (Header.ofBytes frame).udp.length.toNat = (8 + payload.length) % 65536
  drop_eq : frame.drop 42 = payload
  carried : CarriesIpv4 protocolUdp src.address dst.address (frame.drop 34) frame

section Ipv4

theorem ipv4Frame_eq :
    ipv4Frame protocol src dst body =
      (List.replicate 12 0 ++ [0x08, 0x00]) ++
        ((ipv4FrameHeader protocol src dst body.length).withChecksum.ipv4Bytes ++ body) := by
  have ethernet : Header.ethernetFields.flatMap
      (ipv4FrameHeader protocol src dst body.length).withChecksum.fieldBytes =
        List.replicate 12 0 ++ [0x08, 0x00] := by
    show (Vector.replicate 6 0).toList ++ ((Vector.replicate 6 0).toList ++
      (wordBytes etherTypeIpv4 ++ [])) = _
    decide
  rw [ipv4Frame, List.take_add, Header.take_toBytes, ethernet, List.append_assoc]
  rfl

theorem drop_ipv4Frame :
    (ipv4Frame protocol src dst body).drop 14 =
      (ipv4FrameHeader protocol src dst body.length).withChecksum.ipv4Bytes ++ body := by
  rw [ipv4Frame_eq]
  exact List.drop_left' rfl

theorem length_ipv4Bytes (header : Header) : header.ipv4Bytes.length = 20 := by
  rw [Header.ipv4Bytes, List.length_take, List.length_drop, header.length_toBytes]
  rfl

theorem encapsulate_drop_ipv4Frame :
    encapsulate ((ipv4Frame protocol src dst body).drop 14) = ipv4Frame protocol src dst body := by
  have version : ∃ first ∈ ((ipv4Frame protocol src dst body).drop 14).head?, first >>> 4 = 4 := by
    rw [drop_ipv4Frame, Header.ipv4Bytes_eq]
    exact ⟨_, rfl, Header.version_of_versionIhl 4 5⟩
  rw [encapsulate_of_version4 version, drop_ipv4Frame, ipv4Frame_eq]
  rfl

theorem carriesIpv4_ipv4Frame :
    CarriesIpv4 protocol src dst body (ipv4Frame protocol src dst body) := by
  have twenty := length_ipv4Bytes (ipv4FrameHeader protocol src dst body.length).withChecksum
  have length_eq : (ipv4Frame protocol src dst body).length = 34 + body.length := by
    rw [ipv4Frame_eq, List.length_append, List.length_append, List.length_append, twenty]
    show 14 + (20 + body.length) = _
    omega
  have parsed := Header.ofBytes_take_toBytes_append
    (ipv4FrameHeader protocol src dst body.length).withChecksum body
  have again := Header.rereads_ofBytes_toBytes
    (ipv4FrameHeader protocol src dst body.length).withChecksum
  constructor
  case length_eq => exact length_eq
  case drop_eq =>
    rw [show 34 = 14 + 20 from rfl, ← List.drop_drop, drop_ipv4Frame, List.drop_left' twenty]
  case checksum_eq =>
    rw [List.extract_eq_take_drop, drop_ipv4Frame, List.take_left' twenty,
      Checksum.ofBytes?_eq_some (by rw [twenty]; decide), Header.ofBytes_ipv4Bytes_withChecksum rfl]
  case known =>
    intro field inside
    rw [Header.contains_populated_ofBytes, length_eq]
    omega
  case ethernet_eq => exact parsed.1.trans again.ethernet_eq
  case ipv4_eq =>
    refine ⟨UInt16.ofNat (20 + body.length), _, ?_, parsed.2.trans again.ipv4_eq⟩
    rw [UInt16.toNat_ofNat']
  case encapsulate_eq => exact encapsulate_drop_ipv4Frame protocol src dst body

end Ipv4

section Udp

variable (src dst : RuleKey) (payload : List UInt8)

def udpFrameHeader (payloadLength : Nat) : Header :=
  { (ipv4FrameHeader protocolUdp src.address dst.address (udpLength + payloadLength)).withChecksum with
    udp :=
      { srcPort := src.port
        dstPort := dst.port
        length := UInt16.ofNat (udpLength + payloadLength) } }

theorem length_udpDatagram : (udpDatagram src dst payload).length = udpLength + payload.length := by
  simp [udpDatagram, wordBytes, udpLength]
  omega

theorem udpFrame_eq :
    udpFrame src dst payload = (udpFrameHeader src dst payload.length).toBytes ++ payload := by
  have front : (ipv4FrameHeader protocolUdp src.address dst.address
      (udpLength + payload.length)).withChecksum.toBytes.take (ethernetLength + ipv4Length) =
        (udpFrameHeader src dst payload.length).toBytes.take (ethernetLength + ipv4Length) := by
    rw [List.take_add, List.take_add, Header.take_toBytes, Header.take_toBytes]
    show _ ++ Header.ipv4Bytes _ = _ ++ Header.ipv4Bytes _
    rw [Header.ipv4Bytes_eq, Header.ipv4Bytes_eq]
    rfl
  have back : (udpFrameHeader src dst payload.length).toBytes.drop (ethernetLength + ipv4Length) =
      wordBytes src.port ++ wordBytes dst.port ++
        wordBytes (UInt16.ofNat (udpLength + payload.length)) ++ wordBytes 0 := by
    rw [show ethernetLength + ipv4Length = Field.offset .udpSrcPort from rfl, Header.drop_toBytes]
    simp [Field.all, Field.index, Header.fieldBytes, udpFrameHeader]
  rw [udpFrame, ipv4Frame, length_udpDatagram, front, udpDatagram, ← back, ← List.append_assoc,
    List.take_append_drop]

theorem carriesUdp_udpFrame : CarriesUdp src dst payload (udpFrame src dst payload) := by
  have parsed : Header.ofBytes (udpFrame src dst payload) =
      Header.ofBytes (udpFrameHeader src dst payload.length).toBytes := by
    rw [udpFrame_eq, Header.ofBytes_toBytes_append]
  have again := Header.rereads_ofBytes_toBytes (udpFrameHeader src dst payload.length)
  have known (field : Field) :
      (Header.ofBytes (udpFrame src dst payload)).populated.contains field := by
    rw [parsed, Header.contains_populated_ofBytes, Header.length_toBytes]
    exact field.stop_le
  constructor
  case complete =>
    rw [parsed]
    exact again.complete
  case isIpv4?_eq =>
    rw [Header.isIpv4?, if_pos (known _), parsed, again.ethernet_eq]
    rfl
  case isUdp?_eq =>
    rw [Header.isUdp?, if_pos (known _), parsed, again.ipv4_eq]
    rfl
  case source =>
    rw [Header.key?, known, known, parsed, again.ipv4_eq, again.udp_eq]
    rfl
  case destination =>
    rw [Header.key?, known, known, parsed, again.ipv4_eq, again.udp_eq]
    rfl
  case length_eq =>
    rw [parsed, again.udp_eq]
    show (UInt16.ofNat (8 + payload.length)).toNat = _
    rw [UInt16.toNat_ofNat']
  case drop_eq =>
    rw [udpFrame_eq]
    exact List.drop_left' (Header.length_toBytes _)
  case carried =>
    have carried := carriesIpv4_ipv4Frame protocolUdp src.address dst.address
      (udpDatagram src dst payload)
    have datagram : (udpFrame src dst payload).drop 34 = udpDatagram src dst payload :=
      carried.drop_eq
    rw [datagram]
    exact carried

end Udp

/-- **Built frames.**  A frame built around a body carries it in an IPv4 packet with a checksum that
verifies, and one built around a payload reads back as complete UDP between its two endpoints; each
is what encapsulating its IP packet gives. -/
theorem frames_carry :
    (∀ (protocol : UInt8) (src dst : Address) (body : List UInt8),
      CarriesIpv4 protocol src dst body (ipv4Frame protocol src dst body)) ∧
    ∀ (src dst : RuleKey) (payload : List UInt8),
      CarriesUdp src dst payload (udpFrame src dst payload) :=
  ⟨carriesIpv4_ipv4Frame, carriesUdp_udpFrame⟩

end UdpGate
