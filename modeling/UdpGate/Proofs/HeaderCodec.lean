import UdpGate.Proofs.HeaderPrefix

/-!
# Headers to bytes and back

The header of a frame writes the bytes of the fields that the frame shows in full, and zeros for the
others (`Header.Copies`).  A header that is written and read again is known in full and has its values
back, cut to their bits where two values share bytes (`Header.Rereads`).  Both rest on one fact about
places: the bytes of a field stand at its own offset and nothing else does
(`Header.read?_toBytes`).
-/

namespace UdpGate

/-! ## 1. Values and their bytes -/

theorem or_eq_add_of_lt {low bits : Nat} (high : Nat) (h : low < Nat.pow 2 bits) :
    high <<< bits ||| low = high * Nat.pow 2 bits + low := by
  rw [← Nat.shiftLeft_add_eq_or_of_lt h, Nat.shiftLeft_eq]
  rfl

theorem toNat_versionIhl (version ihl : UInt8) :
    (version <<< 4 ||| ihl &&& 0x0F).toNat = version.toNat % 16 * 16 + ihl.toNat % 16 := by
  have high : (version <<< 4).toNat = (version.toNat % 16) <<< 4 := by
    rw [UInt8.toNat_shiftLeft]
    show version.toNat <<< 4 % 256 = _
    rw [Nat.shiftLeft_eq, Nat.shiftLeft_eq]
    omega
  have low : ihl.toNat % 16 < Nat.pow 2 4 := Nat.mod_lt _ (by decide)
  rw [UInt8.toNat_or, toNat_and_lowNibble, high, or_eq_add_of_lt _ low]

theorem toNat_flagsFragment (flags : UInt8) (fragment : UInt16) :
    (flags.toUInt16 <<< 13 ||| fragment &&& 0x1FFF).toNat =
      flags.toNat % 8 * 8192 + fragment.toNat % 8192 := by
  have high : (flags.toUInt16 <<< 13).toNat = (flags.toNat % 8) <<< 13 := by
    rw [UInt16.toNat_shiftLeft, UInt8.toNat_toUInt16]
    show flags.toNat <<< 13 % 65536 = _
    rw [Nat.shiftLeft_eq, Nat.shiftLeft_eq]
    omega
  have low : fragment.toNat % 8192 < Nat.pow 2 13 := Nat.mod_lt _ (by decide)
  rw [UInt16.toNat_or, toNat_fragmentOffset, high, or_eq_add_of_lt _ low]

theorem leadingWord?_wordBytes (word : UInt16) : leadingWord? (wordBytes word) = some word := by
  have small := word.toNat_lt
  have value : word.toNat / 256 % 256 * 256 + word.toNat % 256 = word.toNat := by omega
  rw [wordBytes, leadingWord?, UInt8.toNat_ofNat', UInt8.toNat_ofNat', value, UInt16.ofNat_toNat]

theorem wordBytes_of_leadingWord? {bytes : List UInt8} {word : UInt16} (h : bytes.length = 2)
    (read : leadingWord? bytes = some word) : wordBytes word = bytes := by
  match bytes, h with
  | [a, b], _ =>
    have ha := a.toNat_lt
    have hb := b.toNat_lt
    have value : word.toNat = a.toNat * 256 + b.toNat := by
      rw [← Option.some.inj read]
      exact UInt16.toNat_ofNat_of_lt' (by show _ < 65536; omega)
    rw [wordBytes, value, List.cons.injEq, List.cons.injEq, ← UInt8.toNat_inj, ← UInt8.toNat_inj,
      UInt8.toNat_ofNat', UInt8.toNat_ofNat']
    exact ⟨by omega, by omega, rfl⟩

theorem parts_eq (address : Address) :
    address.parts = [UInt8.ofNat (address.value.toNat / 16777216),
      UInt8.ofNat (address.value.toNat / 65536), UInt8.ofNat (address.value.toNat / 256),
      UInt8.ofNat address.value.toNat] := by
  simp [Address.parts]

theorem leadingAddress?_parts (address : Address) :
    leadingAddress? address.parts = some address := by
  obtain ⟨a, b, c, d, parts, value⟩ := address.value_parts
  rw [parts, leadingAddress?, Address.ofParts_eq value]

theorem parts_of_leadingAddress? {bytes : List UInt8} {address : Address} (h : bytes.length = 4)
    (read : leadingAddress? bytes = some address) : address.parts = bytes := by
  match bytes, h with
  | [a, b, c, d], _ =>
    have ha := a.toNat_lt
    have hb := b.toNat_lt
    have hc := c.toNat_lt
    have hd := d.toNat_lt
    have value : address.value.toNat =
        ((a.toNat * 256 + b.toNat) * 256 + c.toNat) * 256 + d.toNat := by
      rw [← Option.some.inj read]
      exact Address.toNat_ofParts a b c d
    simp only [parts_eq, value, List.cons.injEq, ← UInt8.toNat_inj, UInt8.toNat_ofNat']
    exact ⟨by omega, by omega, by omega, by omega, trivial⟩

theorem mac_ofBytes?_toList (mac : Mac) : Mac.ofBytes? mac.toList = some mac := by
  rw [Mac.ofBytes?, dif_pos mac.length_toList]
  rfl

-- A byte is made of its upper and its lower four bits again.
theorem versionIhl_of_byte (byte : UInt8) :
    byte >>> 4 <<< 4 ||| byte &&& 0x0F &&& 0x0F = byte := by
  have := byte.toNat_lt
  rw [← UInt8.toNat_inj, toNat_versionIhl, toNat_shiftRight_four, toNat_and_lowNibble]
  omega

-- And so are sixteen bits of the upper three and the other thirteen.
theorem flagsFragment_of_word (word : UInt16) :
    (word >>> 13).toUInt8.toUInt16 <<< 13 ||| word &&& 0x1FFF &&& 0x1FFF = word := by
  have := word.toNat_lt
  rw [← UInt16.toNat_inj, toNat_flagsFragment, toNat_flags, toNat_fragmentOffset]
  omega

namespace Header

/-! ## 2. The bytes of one field -/

-- A field whose bytes are known writes them again.
theorem fieldBytes_ofFields {bytes? : Field → Option (List UInt8)} {field : Field}
    {bytes : List UInt8} (known : bytes? field = some bytes) (h : bytes.length = field.length) :
    (ofFields bytes?).fieldBytes field = bytes := by
  cases field with
  | ethDst | ethSrc =>
    obtain ⟨mac, made⟩ := mac_ofBytes?_of_length h
    simp only [fieldBytes, ofFields, known, Option.bind_some, made, Option.getD_some]
    exact Mac.toList_of_ofBytes? made
  | ipVersionIhl =>
    obtain ⟨byte, rfl⟩ := List.length_eq_one_iff.mp h
    simp only [fieldBytes, ofFields, known, Option.bind_some, leadingByte?, Option.elim_some,
      versionIhl_of_byte]
  | ipFlagsFragment =>
    obtain ⟨word, made⟩ := leadingWord?_of_length h
    simp only [fieldBytes, ofFields, known, Option.bind_some, made, Option.elim_some,
      flagsFragment_of_word]
    exact wordBytes_of_leadingWord? h made
  | ipDscpEcn | ipTtl | ipProtocol =>
    obtain ⟨byte, rfl⟩ := List.length_eq_one_iff.mp h
    simp only [fieldBytes, ofFields, known, Option.bind_some, leadingByte?, Option.getD_some]
  | ipSrc | ipDst =>
    obtain ⟨address, made⟩ := leadingAddress?_of_length h
    simp only [fieldBytes, ofFields, known, Option.bind_some, made, Option.getD_some]
    exact parts_of_leadingAddress? h made
  | ethType | ipTotalLength | ipIdentification | ipChecksum
  | udpSrcPort | udpDstPort | udpLength | udpChecksum =>
    obtain ⟨word, made⟩ := leadingWord?_of_length h
    simp only [fieldBytes, ofFields, known, Option.bind_some, made, Option.getD_some]
    exact wordBytes_of_leadingWord? h made

-- A field without bytes writes zeros.
theorem fieldBytes_ofFields_of_none {bytes? : Field → Option (List UInt8)} {field : Field}
    (unknown : bytes? field = none) :
    (ofFields bytes?).fieldBytes field = List.replicate field.length 0 := by
  cases field <;> simp only [fieldBytes, ofFields, unknown, Option.bind_none] <;> rfl

/-! ## 3. The places of the fields -/

theorem length_flatMap_fieldBytes_before (header : Header) (field : Field) :
    ((Field.all.take field.index).flatMap header.fieldBytes).length = field.offset := by
  cases field <;>
    simp [Field.index, Field.all, Field.offset, length_fieldBytes, Field.length]

theorem drop_toBytes (header : Header) (field : Field) :
    header.toBytes.drop field.offset =
      header.fieldBytes field ++ (Field.all.drop (field.index + 1)).flatMap header.fieldBytes := by
  obtain ⟨inside, here⟩ := List.getElem?_eq_some_iff.mp field.getElem?_all_index
  have onwards : Field.all.drop field.index = field :: Field.all.drop (field.index + 1) := by
    rw [List.drop_eq_getElem_cons inside, here]
  have cut : header.toBytes = (Field.all.take field.index).flatMap header.fieldBytes ++
      (Field.all.drop field.index).flatMap header.fieldBytes := by
    rw [← List.flatMap_append, List.take_append_drop, toBytes]
  rw [cut, onwards, List.flatMap_cons,
    List.drop_left' (length_flatMap_fieldBytes_before header field)]

-- A field reads its own bytes off a header that was written.
theorem read?_toBytes (header : Header) (field : Field) :
    field.read? (header.toBytes[·]?) = some (header.fieldBytes field) := by
  have inside : field.offset + field.length ≤ header.toBytes.length := by
    rw [length_toBytes]
    exact field.stop_le
  rw [Field.read?, Field.positions, mapM_range'_getElem? _ inside, drop_toBytes,
    List.take_left' (length_fieldBytes header field)]

-- Byte by byte: each byte of a field stands at its place.
theorem getElem?_toBytes (header : Header) {field : Field} {b : Nat} (lower : field.offset ≤ b)
    (upper : b < field.stop) :
    header.toBytes[b]? = (header.fieldBytes field)[b - field.offset]? := by
  have inside : b - field.offset < (header.fieldBytes field).length := by
    rw [length_fieldBytes]
    unfold Field.stop at upper
    omega
  have place : field.offset + (b - field.offset) = b := by omega
  rw [← List.getElem?_append_left inside, ← drop_toBytes, List.getElem?_drop, place]

/-! ## 4. From a frame and back -/

theorem read?_frame (field : Field) (frame : List UInt8) :
    field.read? (frame[·]?) =
      if field.stop ≤ frame.length then some (frame.extract field.offset field.stop) else none := by
  rw [read?_eq_slice?]
  exact slice?_frame frame (Nat.lt_of_le_of_lt field.last_mem.1 field.last_mem.2)

theorem contains_populated_ofBytes (field : Field) (frame : List UInt8) :
    (ofBytes frame).populated.contains field ↔ field.stop ≤ frame.length := by
  rw [ofBytes, ofView_eq_ofFields, ofFields, FieldSet.contains_ofKnown, read?_frame]
  split <;> simp [*]

theorem fieldBytes_ofBytes_of_le {field : Field} {frame : List UInt8}
    (h : field.stop ≤ frame.length) :
    (ofBytes frame).fieldBytes field = frame.extract field.offset field.stop := by
  have read := read?_frame field frame
  rw [if_pos h] at read
  rw [ofBytes, ofView_eq_ofFields]
  exact fieldBytes_ofFields read (Field.length_of_read? read)

theorem fieldBytes_ofBytes_of_lt {field : Field} {frame : List UInt8}
    (h : frame.length < field.stop) :
    (ofBytes frame).fieldBytes field = List.replicate field.length 0 := by
  have read := read?_frame field frame
  rw [if_neg (Nat.not_le_of_lt h)] at read
  rw [ofBytes, ofView_eq_ofFields]
  exact fieldBytes_ofFields_of_none read

theorem exists_field_of_lt {b : Nat} (h : b < headerLength) :
    ∃ field : Field, field.offset ≤ b ∧ b < field.stop := by
  have every : ∀ b : Fin headerLength, ∃ field ∈ Field.all, field.offset ≤ b ∧ b < field.stop := by
    decide
  obtain ⟨field, -, inside⟩ := every ⟨b, h⟩
  exact ⟨field, inside⟩

/-- A header copies a frame: it knows the fields that lie inside the frame, and it writes their bytes
and zeros in the other places. -/
structure Copies (header : Header) (frame : List UInt8) : Prop where
  populated_iff : ∀ field, header.populated.contains field ↔ field.stop ≤ frame.length
  length_eq : header.toBytes.length = headerLength
  copied : ∀ (field : Field) (b : Nat), field.stop ≤ frame.length → field.offset ≤ b →
    b < field.stop → header.toBytes[b]? = frame[b]?
  blank : ∀ b < headerLength,
    (∀ field : Field, field.offset ≤ b → b < field.stop → frame.length < field.stop) →
    header.toBytes[b]? = some 0
  whole : headerLength ≤ frame.length → header.toBytes = frame.take headerLength

theorem getElem?_toBytes_ofBytes {field : Field} {frame : List UInt8} {b : Nat}
    (known : field.stop ≤ frame.length) (lower : field.offset ≤ b) (upper : b < field.stop) :
    (ofBytes frame).toBytes[b]? = frame[b]? := by
  have inside : b - field.offset < field.stop - field.offset := by omega
  have place : field.offset + (b - field.offset) = b := by omega
  rw [getElem?_toBytes _ lower upper, fieldBytes_ofBytes_of_le known, List.extract_eq_take_drop,
    List.getElem?_take_of_lt inside, List.getElem?_drop, place]

theorem copies_ofBytes (frame : List UInt8) : (ofBytes frame).Copies frame where
  populated_iff field := contains_populated_ofBytes field frame
  length_eq := length_toBytes _
  copied _ _ known lower upper := getElem?_toBytes_ofBytes known lower upper
  blank := by
    intro b inside cutOff
    obtain ⟨field, lower, upper⟩ := exists_field_of_lt inside
    have here : b - field.offset < field.length := by
      unfold Field.stop at upper
      omega
    rw [getElem?_toBytes _ lower upper, fieldBytes_ofBytes_of_lt (cutOff field lower upper),
      List.getElem?_replicate_of_lt here]
  whole := by
    intro long
    apply List.ext_getElem?
    intro b
    by_cases inside : b < headerLength
    · obtain ⟨field, lower, upper⟩ := exists_field_of_lt inside
      rw [List.getElem?_take_of_lt inside]
      exact getElem?_toBytes_ofBytes (Nat.le_trans field.stop_le long) lower upper
    · have outside := Nat.le_of_not_lt inside
      rw [List.getElem?_eq_none (by rwa [length_toBytes]),
        List.getElem?_eq_none (Nat.le_trans (List.length_take_le _ _) outside)]

/-! ## 5. To bytes and back -/

/-- A header that was read off the bytes of another one: it is known in full and has the values of
the other, each cut to the bits that it travels in. -/
structure Rereads (again header : Header) : Prop where
  complete : again.isComplete = true
  ethernet_eq : again.ethernet = header.ethernet
  ipv4_eq : again.ipv4 = { header.ipv4 with
    version := header.ipv4.version % 16
    ihl := header.ipv4.ihl % 16
    flags := header.ipv4.flags % 8
    fragmentOffset := header.ipv4.fragmentOffset % 8192 }
  udp_eq : again.udp = header.udp

theorem version_of_versionIhl (version ihl : UInt8) :
    (version <<< 4 ||| ihl &&& 0x0F) >>> 4 = version % 16 := by
  rw [← UInt8.toNat_inj, toNat_shiftRight_four, toNat_versionIhl, UInt8.toNat_mod]
  show _ = version.toNat % 16
  omega

theorem ihl_of_versionIhl (version ihl : UInt8) :
    (version <<< 4 ||| ihl &&& 0x0F) &&& 0x0F = ihl % 16 := by
  rw [← UInt8.toNat_inj, toNat_and_lowNibble, toNat_versionIhl, UInt8.toNat_mod]
  show _ = ihl.toNat % 16
  omega

theorem flags_of_flagsFragment (flags : UInt8) (fragment : UInt16) :
    ((flags.toUInt16 <<< 13 ||| fragment &&& 0x1FFF) >>> 13).toUInt8 = flags % 8 := by
  rw [← UInt8.toNat_inj, toNat_flags, toNat_flagsFragment, UInt8.toNat_mod]
  show _ = flags.toNat % 8
  omega

theorem fragment_of_flagsFragment (flags : UInt8) (fragment : UInt16) :
    (flags.toUInt16 <<< 13 ||| fragment &&& 0x1FFF) &&& 0x1FFF = fragment % 8192 := by
  rw [← UInt16.toNat_inj, toNat_fragmentOffset, toNat_flagsFragment, UInt16.toNat_mod]
  show _ = fragment.toNat % 8192
  omega

theorem ofBytes_toBytes_eq_ofFields (header : Header) :
    ofBytes header.toBytes = ofFields fun field => some (header.fieldBytes field) := by
  rw [ofBytes, ofView_eq_ofFields]
  congr 1
  funext field
  exact read?_toBytes header field

theorem rereads_ofBytes_toBytes (header : Header) : (ofBytes header.toBytes).Rereads header := by
  have fields := ofBytes_toBytes_eq_ofFields header
  constructor
  · rw [isComplete, FieldSet.isFull, List.all_eq_true]
    intro field _
    rw [contains_populated_ofBytes, length_toBytes]
    exact field.stop_le
  · simp only [fields, ofFields, fieldBytes, Option.bind_some, mac_ofBytes?_toList,
      leadingWord?_wordBytes, Option.getD_some]
  · simp only [fields, ofFields, fieldBytes, Option.bind_some, leadingByte?, leadingWord?_wordBytes,
      leadingAddress?_parts, Option.getD_some, Option.elim_some, version_of_versionIhl,
      ihl_of_versionIhl, flags_of_flagsFragment, fragment_of_flagsFragment]
  · simp only [fields, ofFields, fieldBytes, Option.bind_some, leadingWord?_wordBytes,
      Option.getD_some]

/-- **The header codec, both ways.**  Reading a frame and writing copies the fields that the frame
shows; writing any header and reading gives its values back, cut to their bits; and so what is read
off written bytes writes the same bytes. -/
theorem codec_round_trips :
    (∀ frame, (ofBytes frame).Copies frame) ∧
    (∀ header, (ofBytes header.toBytes).Rereads header) ∧
    ∀ header : Header, (ofBytes header.toBytes).toBytes = header.toBytes := by
  refine ⟨copies_ofBytes, rereads_ofBytes_toBytes, fun header => ?_⟩
  have long := length_toBytes header
  rw [(copies_ofBytes header.toBytes).whole (Nat.le_of_eq long.symm),
    List.take_of_length_le (Nat.le_of_eq long)]

end Header
end UdpGate
