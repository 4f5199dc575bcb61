import UdpGate.Checksum

/-!
# Building frames

The frames built here are those that the gate reads: an Ethernet header with zero addresses, an
IPv4 header without options and, for UDP, a header without a checksum.
-/

namespace UdpGate

def ipv4Length : Nat := 20

def udpLength : Nat := 8

/-- The ethertype to announce for an IP packet: that of IPv4 if the packet says version 4, and
zero otherwise. -/
def etherTypeOf (packet : List UInt8) : UInt16 :=
  match packet with
  | first :: _ => if first >>> 4 = 4 then etherTypeIpv4 else 0
  | [] => 0

def encapsulate (packet : List UInt8) : List UInt8 :=
  List.replicate 12 0 ++ wordBytes (etherTypeOf packet) ++ packet

def ipv4FrameHeader (protocol : UInt8) (src dst : Address) (bodyLength : Nat) : Header where
  ethernet := { etherType := etherTypeIpv4 }
  ipv4 :=
    { version := 4
      ihl := 5
      totalLength := UInt16.ofNat (ipv4Length + bodyLength)
      flags := 2
      ttl := 64
      protocol := protocol
      src := src
      dst := dst }

def Header.ipv4Bytes (header : Header) : List UInt8 :=
  (header.toBytes.drop ethernetLength).take ipv4Length

def Header.withChecksum (header : Header) : Header :=
  { header with
    ipv4 := { header.ipv4 with checksum := Checksum.ofBytes header.ipv4Bytes } }

/-- Ethernet and IPv4 around a body.  A length that does not fit its field keeps its low bits. -/
def ipv4Frame (protocol : UInt8) (src dst : Address) (body : List UInt8) : List UInt8 :=
  (ipv4FrameHeader protocol src dst body.length).withChecksum.toBytes.take
    (ethernetLength + ipv4Length) ++ body

def udpDatagram (src dst : RuleKey) (payload : List UInt8) : List UInt8 :=
  wordBytes src.port ++ wordBytes dst.port
    ++ wordBytes (UInt16.ofNat (udpLength + payload.length)) ++ wordBytes 0 ++ payload

def udpFrame (src dst : RuleKey) (payload : List UInt8) : List UInt8 :=
  ipv4Frame protocolUdp src.address dst.address (udpDatagram src dst payload)

end UdpGate
