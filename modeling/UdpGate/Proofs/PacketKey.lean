import UdpGate.Gate
import UdpGate.Proofs.FieldBytes

/-!
# The key that a packet names

A packet in chunks is a partly known run of bytes: byte `b` travels in chunk `b / width`, and it is
known if that chunk is there and vouches for it.  A view gives the known bytes by their offset.
What the gate reads off its header is what the view says at fixed offsets: the ethertype in bytes 12
and 13, the protocol in byte 23, and an address and a port at the end that the rules are about.
-/

namespace UdpGate

/-! ## 1. Views -/

def packetByte? (width : ChunkWidth) (packet : List Chunk) (b : Nat) : Option UInt8 :=
  packet[b / width.bytes]?.bind (·.byte? (b % width.bytes))

/-- The bytes of a view from `start` up to `stop`, if it shows all of them. -/
def slice? (view : Nat → Option UInt8) (start stop : Nat) : Option (List UInt8) :=
  (List.range' start (stop - start)).mapM view

def networkValue (bytes : List UInt8) : Nat :=
  bytes.foldl (fun value byte => value * 256 + byte.toNat) 0

/-- The endpoint whose address begins at byte `address` and whose port begins at byte `port`. -/
def endpointAt? (view : Nat → Option UInt8) (address port : Nat) : Option RuleKey :=
  match slice? view address (address + 4), slice? view port (port + 2) with
  | some address, some port =>
    some ⟨⟨UInt32.ofNat (networkValue address)⟩, UInt16.ofNat (networkValue port)⟩
  | _, _ => none

/-- The key of a UDP packet over IPv4 at one of its ends; none if the view does not show that it is
one, or not all of the key. -/
def namedKey? (view : Nat → Option UInt8) (endpoint : Endpoint) : Option RuleKey :=
  if slice? view 12 14 = some [0x08, 0x00] ∧ slice? view 23 24 = some [17] then
    match endpoint with
    | .destination => endpointAt? view 30 36
    | .source => endpointAt? view 26 34
  else none

theorem packetByte?_append_of_lt {width : ChunkWidth} {packet : List Chunk} (rest : List Chunk)
    {b : Nat} (h : b / width.bytes < packet.length) :
    packetByte? width (packet ++ rest) b = packetByte? width packet b := by
  rw [packetByte?, packetByte?, List.getElem?_append_left h]

theorem packetByte?_eq_none {width : ChunkWidth} {packet : List Chunk} {b : Nat}
    (h : packet.length ≤ b / width.bytes) : packetByte? width packet b = none := by
  rw [packetByte?, List.getElem?_eq_none h, Option.bind_none]

theorem packetByte?_append_chunk (width : ChunkWidth) (packet : List Chunk) (chunk : Chunk)
    (b : Nat) :
    packetByte? width (packet ++ [chunk]) b =
      if b / width.bytes = packet.length then chunk.byte? (b % width.bytes)
      else packetByte? width packet b := by
  rcases Nat.lt_trichotomy (b / width.bytes) packet.length with before | now | later
  · rw [if_neg (by omega), packetByte?_append_of_lt [chunk] before]
  · rw [if_pos now, packetByte?, now, List.getElem?_concat_length, Option.bind_some]
  · rw [if_neg (by omega), packetByte?_eq_none (Nat.le_of_lt later),
      packetByte?_eq_none (by rw [List.length_append, List.length_singleton]; exact later)]

@[simp] theorem packetByte?_nil (width : ChunkWidth) : packetByte? width [] = fun _ => none := by
  funext b
  exact packetByte?_eq_none (Nat.zero_le _)

theorem slice?_congr {a b : Nat → Option UInt8} {start stop : Nat}
    (h : ∀ position < stop, a position = b position) : slice? a start stop = slice? b start stop := by
  apply mapM_congr_of_mem
  intro position inside
  rw [List.mem_range'_1] at inside
  exact h position (by omega)

-- The key is named by header bytes.
theorem namedKey?_congr {a b : Nat → Option UInt8} (endpoint : Endpoint)
    (h : ∀ position < headerLength, a position = b position) :
    namedKey? a endpoint = namedKey? b endpoint := by
  have slices {start stop : Nat} (inside : stop ≤ headerLength) :
      slice? a start stop = slice? b start stop :=
    slice?_congr fun position below => h position (by omega)
  unfold namedKey? endpointAt?
  rw [slices (by decide : 14 ≤ headerLength), slices (by decide : 24 ≤ headerLength),
    slices (by decide : 30 + 4 ≤ headerLength), slices (by decide : 36 + 2 ≤ headerLength),
    slices (by decide : 26 + 4 ≤ headerLength), slices (by decide : 34 + 2 ≤ headerLength)]

/-! ## 2. The gate reads the same key -/

theorem read?_eq_slice? (field : Field) (view : Nat → Option UInt8) :
    field.read? view = slice? view field.offset field.stop := by
  rw [Field.read?, Field.positions, slice?, Field.stop, Nat.add_sub_cancel_left]

theorem length_of_slice? {view : Nat → Option UInt8} {start stop : Nat} {bytes : List UInt8}
    (h : slice? view start stop = some bytes) : bytes.length = stop - start := by
  rw [length_of_mapM_eq_some h, List.length_range']

theorem leadingWord?_eq_networkValue {bytes : List UInt8} (h : bytes.length = 2) :
    leadingWord? bytes = some (UInt16.ofNat (networkValue bytes)) := by
  match bytes, h with
  | [a, b], _ => simp [leadingWord?, networkValue]

theorem leadingAddress?_eq_networkValue {bytes : List UInt8} (h : bytes.length = 4) :
    leadingAddress? bytes = some ⟨UInt32.ofNat (networkValue bytes)⟩ := by
  match bytes, h with
  | [a, b, c, d], _ => simp [leadingAddress?, Address.ofParts, networkValue]

-- Two bytes stand for 0x0800 in network order only if they are 08 and 00.
theorem networkValue_eq_etherTypeIpv4_iff {bytes : List UInt8} (h : bytes.length = 2) :
    UInt16.ofNat (networkValue bytes) = etherTypeIpv4 ↔ bytes = [0x08, 0x00] := by
  match bytes, h with
  | [a, b], _ =>
    have ha := a.toNat_lt
    have hb := b.toNat_lt
    have value : networkValue [a, b] = a.toNat * 256 + b.toNat := by simp [networkValue]
    rw [value, ← UInt16.toNat_inj, UInt16.toNat_ofNat_of_lt' (by simp [UInt16.size]; omega)]
    simp only [List.cons.injEq, and_true, ← UInt8.toNat_inj]
    show a.toNat * 256 + b.toNat = 2048 ↔ a.toNat = 8 ∧ b.toNat = 0
    omega

theorem isIpv4?_ofView (view : Nat → Option UInt8) :
    (Header.ofView view).isIpv4? = (slice? view 12 14).map (· == [0x08, 0x00]) := by
  have read : Field.read? .ethType view = slice? view 12 14 := read?_eq_slice? _ _
  rw [Header.ofView_eq_ofFields, Header.isIpv4?]
  simp only [Header.ofFields, FieldSet.contains_ofKnown, read]
  cases h : slice? view 12 14 with
  | none => rfl
  | some bytes =>
    have two := length_of_slice? h
    rw [Option.isSome_some, if_pos rfl, Option.bind_some, leadingWord?_eq_networkValue two,
      Option.getD_some, Option.map_some, Option.some.injEq, Bool.eq_iff_iff, beq_iff_eq, beq_iff_eq]
    exact networkValue_eq_etherTypeIpv4_iff two

theorem isUdp?_ofView (view : Nat → Option UInt8) :
    (Header.ofView view).isUdp? = (slice? view 23 24).map (· == [17]) := by
  have read : Field.read? .ipProtocol view = slice? view 23 24 := read?_eq_slice? _ _
  rw [Header.ofView_eq_ofFields, Header.isUdp?]
  simp only [Header.ofFields, FieldSet.contains_ofKnown, read]
  cases h : slice? view 23 24 with
  | none => rfl
  | some bytes =>
    obtain ⟨protocol, rfl⟩ := List.length_eq_one_iff.mp (length_of_slice? h)
    simp [leadingByte?, protocolUdp]

theorem key?_ofView (view : Nat → Option UInt8) (endpoint : Endpoint) :
    (Header.ofView view).key? endpoint =
      match endpoint with
      | .destination => endpointAt? view 30 36
      | .source => endpointAt? view 26 34 := by
  unfold Header.key?
  rw [Header.ofView_eq_ofFields]
  cases endpoint with
  | destination =>
    have address : Field.read? .ipDst view = slice? view 30 34 := read?_eq_slice? _ _
    have port : Field.read? .udpDstPort view = slice? view 36 38 := read?_eq_slice? _ _
    simp only [Header.ofFields, FieldSet.contains_ofKnown, Endpoint.addressField,
      Endpoint.portField, address, port, endpointAt?]
    cases ha : slice? view 30 34 with
    | none => rfl
    | some addressBytes =>
      cases hp : slice? view 36 38 with
      | none => rfl
      | some portBytes =>
        simp [leadingAddress?_eq_networkValue (length_of_slice? ha),
          leadingWord?_eq_networkValue (length_of_slice? hp)]
  | source =>
    have address : Field.read? .ipSrc view = slice? view 26 30 := read?_eq_slice? _ _
    have port : Field.read? .udpSrcPort view = slice? view 34 36 := read?_eq_slice? _ _
    simp only [Header.ofFields, FieldSet.contains_ofKnown, Endpoint.addressField,
      Endpoint.portField, address, port, endpointAt?]
    cases ha : slice? view 26 30 with
    | none => rfl
    | some addressBytes =>
      cases hp : slice? view 34 36 with
      | none => rfl
      | some portBytes =>
        simp [leadingAddress?_eq_networkValue (length_of_slice? ha),
          leadingWord?_eq_networkValue (length_of_slice? hp)]

-- The gate looks a packet up under the key that its known bytes name.
theorem gate_key?_ofView (settings : GateSettings) (view : Nat → Option UInt8) :
    Gate.key? settings (Header.ofView view) = namedKey? view settings.endpoint := by
  unfold Gate.key? namedKey?
  rw [isIpv4?_ofView, isUdp?_ofView, key?_ofView]
  cases hi : slice? view 12 14 with
  | none => simp
  | some etherType =>
    cases hu : slice? view 23 24 with
    | none => simp
    | some protocol =>
      by_cases ipv4 : etherType = [0x08, 0x00]
      · by_cases udp : protocol = [17]
        · simp [ipv4, udp]
        · simp [ipv4, udp]
      · simp [ipv4]

end UdpGate
