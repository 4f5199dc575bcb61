import Mathlib.Data.List.Induction
import UdpGate.Proofs.AssemblyRun
import UdpGate.Proofs.FrameChunks

/-!
# A header after each chunk of its packet

An assembly that waits for a packet knows after each chunk what the packet so far shows: the fields
all of whose bytes came, with the numbers that these bytes stand for, and nothing of the others
(`Header.Tells`).  Whatever came before the packet makes no difference.  For a frame that is cut into
chunks this is the header that is read at once off the bytes that the chunks have brought.
-/

namespace UdpGate

/-! ## 1. The numbers in a header -/

/-- The numbers that a header holds in a field: the bytes of an Ethernet address, both values of a
field that is shared by two, and a single number otherwise. -/
def Header.numbers (header : Header) : Field → List Nat
  | .ethDst => header.ethernet.dst.toList.map UInt8.toNat
  | .ethSrc => header.ethernet.src.toList.map UInt8.toNat
  | .ethType => [header.ethernet.etherType.toNat]
  | .ipVersionIhl => [header.ipv4.version.toNat, header.ipv4.ihl.toNat]
  | .ipDscpEcn => [header.ipv4.dscpEcn.toNat]
  | .ipTotalLength => [header.ipv4.totalLength.toNat]
  | .ipIdentification => [header.ipv4.identification.toNat]
  | .ipFlagsFragment => [header.ipv4.flags.toNat, header.ipv4.fragmentOffset.toNat]
  | .ipTtl => [header.ipv4.ttl.toNat]
  | .ipProtocol => [header.ipv4.protocol.toNat]
  | .ipChecksum => [header.ipv4.checksum.toNat]
  | .ipSrc => [header.ipv4.src.value.toNat]
  | .ipDst => [header.ipv4.dst.value.toNat]
  | .udpSrcPort => [header.udp.srcPort.toNat]
  | .udpDstPort => [header.udp.dstPort.toNat]
  | .udpLength => [header.udp.length.toNat]
  | .udpChecksum => [header.udp.checksum.toNat]

/-- The numbers that the bytes of a field stand for.  Version and header length share a byte, four
bits each; the flags are the upper three of sixteen bits, the fragment offset the thirteen below. -/
def Field.decode (field : Field) (bytes : List UInt8) : List Nat :=
  match field with
  | .ethDst | .ethSrc => bytes.map UInt8.toNat
  | .ipVersionIhl => [networkValue bytes / 16, networkValue bytes % 16]
  | .ipFlagsFragment => [networkValue bytes / 8192, networkValue bytes % 8192]
  | _ => [networkValue bytes]

theorem toNat_shiftRight_four (byte : UInt8) : (byte >>> 4).toNat = byte.toNat / 16 := by
  rw [UInt8.toNat_shiftRight, Nat.shiftRight_eq_div_pow]
  rfl

theorem toNat_and_lowNibble (byte : UInt8) : (byte &&& 0x0F).toNat = byte.toNat % 16 := by
  rw [UInt8.toNat_and]
  exact Nat.and_two_pow_sub_one_eq_mod byte.toNat 4

theorem toNat_flags (word : UInt16) : (word >>> 13).toUInt8.toNat = word.toNat / 8192 := by
  have small : word.toNat / 8192 < 256 := by
    have := word.toNat_lt
    omega
  rw [UInt16.toNat_toUInt8, UInt16.toNat_shiftRight, Nat.shiftRight_eq_div_pow]
  exact Nat.mod_eq_of_lt small

theorem toNat_fragmentOffset (word : UInt16) : (word &&& 0x1FFF).toNat = word.toNat % 8192 := by
  rw [UInt16.toNat_and]
  exact Nat.and_two_pow_sub_one_eq_mod word.toNat 13

theorem networkValue_concat (bytes : List UInt8) (byte : UInt8) :
    networkValue (bytes ++ [byte]) = networkValue bytes * 256 + byte.toNat := by
  rw [networkValue, List.foldl_append]
  rfl

theorem networkValue_lt (bytes : List UInt8) : networkValue bytes < Nat.pow 256 bytes.length := by
  induction bytes using List.reverseRecOn with
  | nil => decide
  | append_singleton bytes byte ih =>
    have small := byte.toNat_lt
    have more : Nat.pow 256 (bytes.length + 1) = Nat.pow 256 bytes.length * 256 := rfl
    rw [networkValue_concat, List.length_append, List.length_singleton, more]
    omega

theorem toNat_word_networkValue {bytes : List UInt8} (h : bytes.length = 2) :
    (UInt16.ofNat (networkValue bytes)).toNat = networkValue bytes := by
  have small := networkValue_lt bytes
  rw [h] at small
  exact UInt16.toNat_ofNat_of_lt' small

theorem toNat_address_networkValue {bytes : List UInt8} (h : bytes.length = 4) :
    (UInt32.ofNat (networkValue bytes)).toNat = networkValue bytes := by
  have small := networkValue_lt bytes
  rw [h] at small
  exact UInt32.toNat_ofNat_of_lt' small

theorem leadingByte?_eq_networkValue {bytes : List UInt8} (h : bytes.length = 1) :
    ∃ byte, leadingByte? bytes = some byte ∧ byte.toNat = networkValue bytes := by
  obtain ⟨byte, rfl⟩ := List.length_eq_one_iff.mp h
  exact ⟨byte, rfl, by simp [networkValue]⟩

theorem Mac.toList_of_ofBytes? {bytes : List UInt8} {mac : Mac} (h : Mac.ofBytes? bytes = some mac) :
    mac.toList = bytes := by
  unfold Mac.ofBytes? at h
  split at h
  · rw [← Option.some.inj h]
    rfl
  · cases h

namespace Header

-- A field whose bytes are known holds the numbers that they stand for.
theorem numbers_ofFields {bytes? : Field → Option (List UInt8)} {field : Field}
    {bytes : List UInt8} (known : bytes? field = some bytes) (h : bytes.length = field.length) :
    (ofFields bytes?).numbers field = field.decode bytes := by
  cases field with
  | ethDst | ethSrc =>
    obtain ⟨mac, made⟩ := mac_ofBytes?_of_length h
    simp [numbers, ofFields, Field.decode, known, made, Mac.toList_of_ofBytes? made]
  | ipVersionIhl =>
    obtain ⟨byte, made, value⟩ := leadingByte?_eq_networkValue h
    simp only [numbers, ofFields, Field.decode, known, Option.bind_some, made, Option.elim_some,
      toNat_shiftRight_four, toNat_and_lowNibble, value]
  | ipFlagsFragment =>
    simp only [numbers, ofFields, Field.decode, known, Option.bind_some,
      leadingWord?_eq_networkValue h, Option.elim_some, toNat_flags, toNat_fragmentOffset,
      toNat_word_networkValue h]
  | ipDscpEcn | ipTtl | ipProtocol =>
    obtain ⟨byte, made, value⟩ := leadingByte?_eq_networkValue h
    simp [numbers, ofFields, Field.decode, known, made, value]
  | ipSrc | ipDst =>
    simp only [numbers, ofFields, Field.decode, known, Option.bind_some,
      leadingAddress?_eq_networkValue h, Option.getD_some, toNat_address_networkValue h]
  | ethType | ipTotalLength | ipIdentification | ipChecksum
  | udpSrcPort | udpDstPort | udpLength | udpChecksum =>
    simp only [numbers, ofFields, Field.decode, known, Option.bind_some,
      leadingWord?_eq_networkValue h, Option.getD_some, toNat_word_networkValue h]

theorem numbers_ofFields_of_none {bytes? : Field → Option (List UInt8)} {field : Field}
    (unknown : bytes? field = none) :
    (ofFields bytes?).numbers field = ({} : Header).numbers field := by
  cases field <;> simp [numbers, ofFields, unknown]

end Header

/-! ## 2. What a packet shows of a header -/

theorem mapM_eq_some_iff_map {α β : Type} {f : α → Option β} {l : List α} {values : List β} :
    l.mapM f = some values ↔ l.map f = values.map some := by
  induction l generalizing values with
  | nil => cases values <;> simp
  | cons first rest ih =>
    rw [List.mapM_cons, List.map_cons]
    cases values with
    | nil => cases f first <;> cases rest.mapM f <;> simp
    | cons value values =>
      rw [List.map_cons, List.cons.injEq, ← ih]
      cases f first <;> cases rest.mapM f <;> simp

theorem isSome_mapM_iff {α β : Type} {f : α → Option β} {l : List α} :
    (l.mapM f).isSome ↔ ∀ a ∈ l, (f a).isSome := by
  induction l with
  | nil => simp
  | cons first rest ih =>
    rw [List.mapM_cons, List.forall_mem_cons, ← ih]
    cases f first <;> cases rest.mapM f <;> simp

-- A byte is known if its chunk came and vouches for it.
theorem isSome_packetByte?_iff {width : ChunkWidth} {packet : List Chunk} {b : Nat} :
    (packetByte? width packet b).isSome ↔
      ∃ chunk ∈ packet[b / width.bytes]?, chunk.isValid (b % width.bytes) := by
  rw [packetByte?]
  cases packet[b / width.bytes]? with
  | none => simp
  | some chunk => simp [Chunk.isSome_byte?]

/-- A header tells what the chunks of a packet say about it, and no more. -/
structure Header.Tells (header : Header) (width : ChunkWidth) (packet : List Chunk) : Prop where
  populated_iff : ∀ field, header.populated.contains field ↔
    ∀ b, field.offset ≤ b → b < field.stop →
      ∃ chunk ∈ packet[b / width.bytes]?, chunk.isValid (b % width.bytes)
  numbers_of_populated : ∀ field, header.populated.contains field →
    ∃ bytes, field.positions.map (packetByte? width packet) = bytes.map some ∧
      header.numbers field = field.decode bytes
  numbers_of_unpopulated : ∀ field, ¬ header.populated.contains field →
    header.numbers field = ({} : Header).numbers field

theorem Header.tells_ofView (width : ChunkWidth) (packet : List Chunk) :
    (ofView (packetByte? width packet)).Tells width packet := by
  have known (field : Field) : (ofView (packetByte? width packet)).populated.contains field =
      (field.read? (packetByte? width packet)).isSome := by
    rw [ofView_eq_ofFields, ofFields, FieldSet.contains_ofKnown]
  constructor
  · intro field
    simp only [known, Field.read?, isSome_mapM_iff, Field.mem_positions, isSome_packetByte?_iff,
      and_imp]
  · intro field populated
    rw [known, Option.isSome_iff_exists] at populated
    obtain ⟨bytes, read⟩ := populated
    refine ⟨bytes, mapM_eq_some_iff_map.mp read, ?_⟩
    rw [ofView_eq_ofFields]
    exact numbers_ofFields read (Field.length_of_read? read)
  · intro field unpopulated
    rw [known, Option.not_isSome_iff_eq_none] at unpopulated
    rw [ofView_eq_ofFields]
    exact numbers_ofFields_of_none unpopulated

/-! ## 3. Packets after any history -/

namespace Assembly

inductive Event where
  | chunk (chunk : Chunk)
  | reset

def Event.endsPacket : Event → Bool
  | .chunk arrived => arrived.last
  | .reset => true

def handle (assembly : Assembly) : Event → Assembly
  | .chunk chunk => assembly.consume chunk
  | .reset => assembly.reset

def run (assembly : Assembly) (events : List Event) : Assembly := events.foldl handle assembly

theorem width_consume (assembly : Assembly) (chunk : Chunk) :
    (assembly.consume chunk).width = assembly.width := by
  rw [consume]
  split <;> exact assembly.width_fill_opened assembly.incomingIndex chunk

theorem betweenPackets_consume (assembly : Assembly) (chunk : Chunk) :
    (assembly.consume chunk).betweenPackets = chunk.last := by
  rw [consume]
  cases chunk.last with
  | true => rfl
  | false => exact assembly.betweenPackets_fill_opened assembly.incomingIndex chunk

theorem width_run (assembly : Assembly) (events : List Event) :
    (assembly.run events).width = assembly.width := by
  induction events generalizing assembly with
  | nil => rfl
  | cons event events ih =>
    have handled : (assembly.handle event).width = assembly.width := by
      cases event with
      | chunk chunk => exact width_consume assembly chunk
      | reset => rfl
    rw [← handled]
    exact ih (assembly.handle event)

-- The latest event decides whether a packet is waited for.
theorem betweenPackets_run (width : ChunkWidth) {events : List Event}
    (ended : ∀ event ∈ events.getLast?, event.endsPacket) :
    ((start width).run events).betweenPackets = true := by
  rcases List.eq_nil_or_concat events with rfl | ⟨earlier, event, rfl⟩
  · rfl
  · have ends := ended event (by simp)
    rw [run, List.concat_eq_append, List.foldl_append, List.foldl_cons, List.foldl_nil]
    cases event with
    | chunk chunk => exact (betweenPackets_consume _ chunk).trans ends
    | reset => rfl

theorem Tracks.consumeAll {assembly : Assembly} {width : ChunkWidth} {packet : List Chunk}
    (h : assembly.Tracks width packet) {chunks : List Chunk}
    (unfinished : ∀ chunk ∈ chunks, chunk.last = false) :
    (assembly.consumeAll chunks).Tracks width (packet ++ chunks) := by
  induction chunks generalizing assembly packet with
  | nil => rwa [List.append_nil]
  | cons chunk chunks ih =>
    have next := (h.consume chunk).2
    rw [unfinished chunk List.mem_cons_self, if_neg Bool.false_ne_true] at next
    have rest := ih next fun later mem => unfinished later (List.mem_cons_of_mem chunk mem)
    rwa [List.append_assoc] at rest

-- After each chunk of a packet the header is the one that the chunks so far show.
theorem header_consumeAll {assembly : Assembly} (waits : assembly.betweenPackets = true)
    {begun : List Chunk} (unfinished : ∀ chunk ∈ begun, chunk.last = false) (chunk : Chunk) :
    (assembly.consumeAll (begun ++ [chunk])).header =
      Header.ofView (packetByte? assembly.width (begun ++ [chunk])) := by
  have tracks := (tracks_nil waits).consumeAll unfinished
  have holds := (tracks.consume chunk).1
  have width_eq : ((assembly.consumeAll begun).consume chunk).width = assembly.width := by
    rw [width_consume, tracks.width_eq]
  rw [Assembly.consumeAll, List.foldl_append]
  exact holds.header_eq.trans (by rw [width_eq]; rfl)

/-! ## 4. Frames in chunks -/

theorem packetByte?_take {width : ChunkWidth} (packet : List Chunk) (k b : Nat) :
    packetByte? width (packet.take k) b =
      if b < k * width.bytes then packetByte? width packet b else none := by
  have place : b / width.bytes < k ↔ b < k * width.bytes := Nat.div_lt_iff_lt_mul width.bytes_pos
  rw [packetByte?, List.getElem?_take]
  by_cases inside : b / width.bytes < k
  · rw [if_pos inside, if_pos (place.mp inside), packetByte?]
  · rw [if_neg inside, if_neg (mt place.mpr inside), Option.bind_none]

-- The first chunks of a frame show the bytes that they were cut from.
theorem packetByte?_take_split (width : ChunkWidth) (frame : List UInt8) (k : Nat) :
    packetByte? width ((Chunk.split width frame).take k) =
      ((frame.take (min (k * width.bytes) frame.length))[·]?) := by
  funext b
  rw [packetByte?_take, packetByte?_split, List.getElem?_take]
  by_cases inside : b < frame.length
  · have both : b < min (k * width.bytes) frame.length ↔ b < k * width.bytes := by omega
    simp only [both]
  · have outside : frame[b]? = none := List.getElem?_eq_none (Nat.le_of_not_lt inside)
    rw [outside]
    split <;> split <;> rfl

-- None of the first chunks of a frame ends it, the latest of them apart.
theorem take_split_eq_concat (width : ChunkWidth) (frame : List UInt8) {k : Nat} (h : 0 < k) :
    ∃ (begun : List Chunk) (chunk : Chunk), (Chunk.split width frame).take k = begun ++ [chunk] ∧
      ∀ earlier ∈ begun, earlier.last = false := by
  obtain ⟨begun, final, cut, unfinished, -⟩ := Chunk.split_eq_concat width frame
  rw [cut]
  by_cases within : k ≤ begun.length
  · have last : k - 1 < begun.length := by omega
    have count : k = k - 1 + 1 := by omega
    refine ⟨begun.take (k - 1), begun[k - 1], ?_, ?_⟩
    · rw [List.take_append_of_le_length within, ← List.take_succ_eq_append_getElem last, ← count]
    · intro earlier mem
      exact unfinished earlier (List.mem_of_mem_take mem)
  · refine ⟨begun, final, List.take_of_length_le ?_, unfinished⟩
    rw [List.length_append, List.length_singleton]
    omega

theorem header_consumeAll_take_split {assembly : Assembly} (waits : assembly.betweenPackets = true)
    (frame : List UInt8) {k : Nat} (h : 0 < k) :
    (assembly.consumeAll ((Chunk.split assembly.width frame).take k)).header =
      Header.ofView (packetByte? assembly.width ((Chunk.split assembly.width frame).take k)) := by
  obtain ⟨begun, chunk, cut, unfinished⟩ := take_split_eq_concat assembly.width frame h
  rw [cut]
  exact header_consumeAll waits unfinished chunk

/-- **Chunk by chunk and at once.**  Behind any history that ends with a packet or with a reset, each
chunk of a new packet leaves the header that tells what the chunks so far say; and of a frame that is
cut into chunks, the first of them leave the header of the bytes that they were cut from. -/
theorem header_of_new_packet (width : ChunkWidth) (history : List Event)
    (ended : ∀ event ∈ history.getLast?, event.endsPacket) :
    (∀ (begun : List Chunk) (chunk : Chunk), (∀ earlier ∈ begun, earlier.last = false) →
      (((start width).run history).consumeAll (begun ++ [chunk])).header.Tells width
        (begun ++ [chunk])) ∧
    (∀ (frame : List UInt8) (k : Nat), 0 < k →
      (((start width).run history).consumeAll ((Chunk.split width frame).take k)).header =
        Header.ofBytes (frame.take (min (k * width.bytes) frame.length))) ∧
    ∀ frame : List UInt8,
      (((start width).run history).consumeAll (Chunk.split width frame)).header =
        Header.ofBytes frame := by
  have waits := betweenPackets_run width ended
  have width_eq : ((start width).run history).width = width := width_run (start width) history
  refine ⟨?_, ?_, ?_⟩
  · intro begun chunk unfinished
    rw [header_consumeAll waits unfinished chunk, width_eq]
    exact Header.tells_ofView width (begun ++ [chunk])
  · intro frame k some_chunk
    have shown := header_consumeAll_take_split waits frame some_chunk
    rw [width_eq, packetByte?_take_split] at shown
    exact shown
  · intro frame
    have some_chunk : 0 < (Chunk.split width frame).length := by
      rw [Chunk.length_split]
      exact Nat.le_max_right _ _
    have shown := header_consumeAll_take_split waits frame some_chunk
    rw [width_eq, List.take_length] at shown
    have bytes : packetByte? width (Chunk.split width frame) = (frame[·]?) := by
      funext b
      exact packetByte?_split width frame b
    rw [shown, bytes]
    rfl

-- A packet that left its bytes behind, and sixteen bytes of a next one, of which the chunk does not
-- vouch for byte 13, the second byte of the ethertype.
def staleChunk : Chunk := .ofBytes (List.replicate 16 0xFF) true

def holedChunk : Chunk :=
  { Chunk.ofBytes ((List.range 16).map UInt8.ofNat) false with keep := 0xDFFF }

theorem header_of_new_packet_hole :
    (∀ event ∈ [Event.chunk staleChunk].getLast?, event.endsPacket) ∧
      (∀ earlier ∈ ([] : List Chunk), earlier.last = false) ∧
      ∃ header : Header,
        header = (((start { bytes := 16 }).run [.chunk staleChunk]).consumeAll [holedChunk]).header ∧
        header.Tells { bytes := 16 } [holedChunk] ∧
        header.populated.toList = [.ethDst, .ethSrc, .ipVersionIhl, .ipDscpEcn] ∧
        header.numbers .ethSrc = [6, 7, 8, 9, 10, 11] ∧ header.numbers .ethType = [0] := by
  have ended : ∀ event ∈ [Event.chunk staleChunk].getLast?, event.endsPacket := by decide
  have unfinished : ∀ earlier ∈ ([] : List Chunk), earlier.last = false := by simp
  have tells := (header_of_new_packet { bytes := 16 } [.chunk staleChunk] ended).1 [] holedChunk
    unfinished
  exact ⟨ended, unfinished, _, rfl, tells, by decide +kernel, by decide +kernel, by decide +kernel⟩

end Assembly
end UdpGate
