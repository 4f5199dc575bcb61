import UdpGate.Header.Basic

/-!
# Headers by the bytes of their fields

A header that was read from a frame is a function of the bytes of each field: which fields are
known, and what stands in them.  Filling a field changes the bytes of that field and no other, so
the order in which fields are filled does not matter.
-/

namespace UdpGate

/-! ## Sets of known fields -/

namespace FieldSet

theorem ext_contains {a b : FieldSet} (h : ∀ field, a.contains field = b.contains field) :
    a = b := by
  obtain ⟨a⟩ := a
  obtain ⟨b⟩ := b
  congr 1
  apply BitVec.eq_of_getLsbD_eq
  intro i hi
  have inside : i < Field.all.length := hi
  have place : (Field.all[i]).index = i := by
    have every : ∀ i : Fin Field.all.length, (Field.all.get i).index = i.val := by decide
    exact every ⟨i, inside⟩
  have := h Field.all[i]
  simpa only [contains, place] using this

def ofKnown (known : Field → Bool) : FieldSet :=
  Field.all.foldl (fun set field => if known field then set.insert field else set) none

theorem contains_foldl_insert (known : Field → Bool) (fields : List Field) (set : FieldSet)
    (field : Field) :
    (fields.foldl (fun set field => if known field then set.insert field else set) set).contains
      field = (set.contains field || (decide (field ∈ fields) && known field)) := by
  induction fields generalizing set with
  | nil => simp
  | cons head rest ih =>
    rw [List.foldl_cons, ih]
    by_cases same : head = field
    · subst same
      cases hk : known head <;> simp
    · have other : ¬ field = head := fun h => same h.symm
      cases hk : known head <;> simp [same, other]

theorem contains_ofKnown (known : Field → Bool) (field : Field) :
    (ofKnown known).contains field = known field := by
  simp [ofKnown, contains_foldl_insert, field.mem_all]

end FieldSet

/-! ## Reading several bytes of a view -/

section ListReading

variable {α β : Type} {f g : α → Option β} {l : List α}

theorem length_of_mapM_eq_some {values : List β} (h : l.mapM f = some values) :
    values.length = l.length := by
  induction l generalizing values with
  | nil => simp_all
  | cons first rest ih =>
    simp only [List.mapM_cons, Option.bind_eq_bind, Option.bind_eq_some_iff, Option.pure_def,
      Option.some.injEq] at h
    obtain ⟨value, -, others, hothers, rfl⟩ := h
    rw [List.length_cons, List.length_cons, ih hothers]

theorem mapM_congr_of_mem (h : ∀ a ∈ l, f a = g a) : l.mapM f = l.mapM g := by
  induction l with
  | nil => rfl
  | cons first rest ih =>
    rw [List.mapM_cons, List.mapM_cons, h first List.mem_cons_self,
      ih fun a ha => h a (List.mem_cons_of_mem first ha)]

theorem mapM_eq_none_of_mem {a : α} (ha : a ∈ l) (h : f a = none) : l.mapM f = none := by
  induction l with
  | nil => cases ha
  | cons first rest ih =>
    rw [List.mapM_cons]
    rcases List.mem_cons.mp ha with rfl | later
    · rw [h]; rfl
    · rw [ih later]; cases f first <;> rfl

end ListReading

namespace Field

theorem mem_positions {field : Field} {position : Nat} :
    position ∈ field.positions ↔ field.offset ≤ position ∧ position < field.stop := by
  rw [positions, List.mem_range'_1, stop]

theorem last_mem (field : Field) : field.offset ≤ field.stop - 1 ∧ field.stop - 1 < field.stop := by
  have := field.length_pos
  unfold stop
  omega

theorem last_lt_headerLength (field : Field) : field.stop - 1 < headerLength :=
  Nat.lt_of_lt_of_le field.last_mem.2 field.stop_le

theorem length_of_read? {field : Field} {view : Nat → Option UInt8} {bytes : List UInt8}
    (h : field.read? view = some bytes) : bytes.length = field.length := by
  rw [length_of_mapM_eq_some h, positions, List.length_range']

-- A field reads the same from two views that agree on its bytes.
theorem read?_congr {field : Field} {a b : Nat → Option UInt8}
    (h : ∀ position, field.offset ≤ position → position < field.stop → a position = b position) :
    field.read? a = field.read? b :=
  mapM_congr_of_mem fun position inside =>
    h position (mem_positions.mp inside).1 (mem_positions.mp inside).2

-- A field cannot be read while one of its bytes is unknown.
theorem read?_eq_none {field : Field} {view : Nat → Option UInt8} {position : Nat}
    (lower : field.offset ≤ position) (upper : position < field.stop) (h : view position = none) :
    field.read? view = none :=
  mapM_eq_none_of_mem (mem_positions.mpr ⟨lower, upper⟩) h

end Field

/-! ## Headers -/

namespace Header

/-- The header whose fields hold the given bytes; a field without bytes stays at its default. -/
def ofFields (bytes? : Field → Option (List UInt8)) : Header where
  ethernet :=
    { dst := ((bytes? .ethDst).bind Mac.ofBytes?).getD (Vector.replicate 6 0)
      src := ((bytes? .ethSrc).bind Mac.ofBytes?).getD (Vector.replicate 6 0)
      etherType := ((bytes? .ethType).bind leadingWord?).getD 0 }
  ipv4 :=
    { version := ((bytes? .ipVersionIhl).bind leadingByte?).elim 0 (· >>> 4)
      ihl := ((bytes? .ipVersionIhl).bind leadingByte?).elim 0 (· &&& 0x0F)
      dscpEcn := ((bytes? .ipDscpEcn).bind leadingByte?).getD 0
      totalLength := ((bytes? .ipTotalLength).bind leadingWord?).getD 0
      identification := ((bytes? .ipIdentification).bind leadingWord?).getD 0
      flags := ((bytes? .ipFlagsFragment).bind leadingWord?).elim 0 fun v => (v >>> 13).toUInt8
      fragmentOffset := ((bytes? .ipFlagsFragment).bind leadingWord?).elim 0 (· &&& 0x1FFF)
      ttl := ((bytes? .ipTtl).bind leadingByte?).getD 0
      protocol := ((bytes? .ipProtocol).bind leadingByte?).getD 0
      checksum := ((bytes? .ipChecksum).bind leadingWord?).getD 0
      src := ((bytes? .ipSrc).bind leadingAddress?).getD ⟨0⟩
      dst := ((bytes? .ipDst).bind leadingAddress?).getD ⟨0⟩ }
  udp :=
    { srcPort := ((bytes? .udpSrcPort).bind leadingWord?).getD 0
      dstPort := ((bytes? .udpDstPort).bind leadingWord?).getD 0
      length := ((bytes? .udpLength).bind leadingWord?).getD 0
      checksum := ((bytes? .udpChecksum).bind leadingWord?).getD 0 }
  populated := .ofKnown fun field => (bytes? field).isSome

theorem leadingByte?_of_length {bytes : List UInt8} (h : bytes.length = 1) :
    ∃ value, leadingByte? bytes = some value := by
  obtain ⟨a, rfl⟩ := List.length_eq_one_iff.mp h
  exact ⟨a, rfl⟩

theorem leadingWord?_of_length {bytes : List UInt8} (h : bytes.length = 2) :
    ∃ value, leadingWord? bytes = some value := by
  match bytes, h with
  | [_, _], _ => exact ⟨_, rfl⟩

theorem leadingAddress?_of_length {bytes : List UInt8} (h : bytes.length = 4) :
    ∃ value, leadingAddress? bytes = some value := by
  match bytes, h with
  | [_, _, _, _], _ => exact ⟨_, rfl⟩

theorem mac_ofBytes?_of_length {bytes : List UInt8} (h : bytes.length = 6) :
    ∃ value, Mac.ofBytes? bytes = some value :=
  ⟨_, dif_pos h⟩

theorem assign?_ofFields (bytes? : Field → Option (List UInt8)) {field : Field}
    {bytes : List UInt8} (h : bytes.length = field.length) :
    (ofFields bytes?).assign? field bytes =
      some { ofFields (fun other => if other = field then some bytes else bytes? other) with
        populated := (ofFields bytes?).populated } := by
  cases field with
  | ethDst | ethSrc =>
    obtain ⟨value, hv⟩ := mac_ofBytes?_of_length h
    simp [assign?, ofFields, hv]
  | ipVersionIhl | ipDscpEcn | ipTtl | ipProtocol =>
    obtain ⟨value, hv⟩ := leadingByte?_of_length h
    simp [assign?, ofFields, hv]
  | ipSrc | ipDst =>
    obtain ⟨value, hv⟩ := leadingAddress?_of_length h
    simp [assign?, ofFields, hv]
  | ethType | ipTotalLength | ipIdentification | ipFlagsFragment | ipChecksum
  | udpSrcPort | udpDstPort | udpLength | udpChecksum =>
    obtain ⟨value, hv⟩ := leadingWord?_of_length h
    simp [assign?, ofFields, hv]

-- Storing a field of a header given by its fields gives the field these bytes.
theorem store?_ofFields (bytes? : Field → Option (List UInt8)) {field : Field}
    {bytes : List UInt8} (h : bytes.length = field.length) :
    (ofFields bytes?).store? field bytes =
      some (ofFields fun other => if other = field then some bytes else bytes? other) := by
  rw [store?, assign?_ofFields bytes? h, Option.map_some, mark]
  congr 2
  apply FieldSet.ext_contains
  intro other
  rw [FieldSet.contains_insert]
  simp only [ofFields, FieldSet.contains_ofKnown]
  by_cases same : other = field
  · simp [same]
  · have different : ¬ field = other := fun h => same h.symm
    simp [same, different]

-- Filling a field of a header given by its fields, from a view of the frame.
theorem fill_ofFields (bytes? : Field → Option (List UInt8)) (view : Nat → Option UInt8)
    (field : Field) :
    (ofFields bytes?).fill view field =
      ofFields fun other =>
        if other = field then (field.read? view).or (bytes? field) else bytes? other := by
  rw [fill]
  cases h : field.read? view with
  | none =>
    rw [Option.bind_none, Option.getD_none]
    congr 1
    funext other
    by_cases same : other = field
    · simp [same]
    · simp [same]
  | some bytes =>
    rw [Option.bind_some, store?_ofFields bytes? (Field.length_of_read? h), Option.getD_some]
    rfl

-- Filling several fields: the fields that the view shows take its bytes.
theorem foldl_fill_ofFields (view : Nat → Option UInt8) (fields : List Field)
    (bytes? : Field → Option (List UInt8)) :
    fields.foldl (fun header field => header.fill view field) (ofFields bytes?) =
      ofFields fun field =>
        if field ∈ fields then (field.read? view).or (bytes? field) else bytes? field := by
  induction fields generalizing bytes? with
  | nil => simp
  | cons first rest ih =>
    rw [List.foldl_cons, fill_ofFields, ih]
    congr 1
    funext field
    by_cases same : field = first
    · subst same
      cases field.read? view <;> simp
    · simp [same]

-- The header that a view shows is given by the fields that it shows.
theorem ofView_eq_ofFields (view : Nat → Option UInt8) :
    ofView view = ofFields fun field => field.read? view := by
  have unread : ({} : Header) = ofFields fun _ => none := rfl
  rw [ofView, unread, foldl_fill_ofFields]
  congr 1
  funext field
  simp [field.mem_all]

end Header
end UdpGate
