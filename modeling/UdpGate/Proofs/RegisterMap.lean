import Mathlib.Data.Nat.Bitwise
import UdpGate.Console

/-!
# Where the registers are

A rule register answers at its own offset alone, a half of a counter at all four of its bytes.  So
an offset at which no word begins still shows a counter if it lies inside one of its halves, and it
reads as zero everywhere else (`Console.read_unmapped`).  A pair of words is read from every offset
but the last four.
-/

namespace UdpGate

/-! ## 1. Halves of counters -/

inductive Half where
  | low | high
deriving DecidableEq

namespace Half

def word : Half → UInt64 → UInt32
  | low => lowWord
  | high => highWord

def start : Half → UInt32
  | low => 0
  | high => 4

def offset (half : Half) (counter : Counter) : UInt32 := counter.offset + half.start

def Covers (half : Half) (counter : Counter) (offset : UInt32) : Prop :=
  (half.offset counter).toNat ≤ offset.toNat ∧ offset.toNat < (half.offset counter).toNat + 4

instance (half : Half) (counter : Counter) (offset : UInt32) :
    Decidable (half.Covers counter offset) := inferInstanceAs (Decidable (_ ∧ _))

end Half

def ruleOffsets : List UInt32 := [addressOffset, portOffset, actionOffset]

/-- An offset at which no register and no half of a counter begins. -/
structure Unmapped (offset : UInt32) : Prop where
  rule : offset ∉ ruleOffsets
  counter : ∀ half counter, offset ≠ Half.offset half counter

/-! ## 2. Offsets inside a counter -/

-- The mask goes down to the eight bytes in which an offset lies: bit by bit, it clears the three
-- lowest and keeps the others.
theorem toNat_and_blockMask (offset : UInt32) :
    (offset &&& 0xFFFFFFF8).toNat = offset.toNat / 8 * 8 := by
  have back : offset.toNat / 8 * 8 = offset.toNat >>> 3 <<< 3 := by
    rw [Nat.shiftRight_eq_div_pow, Nat.shiftLeft_eq]
  rw [UInt32.toNat_and, back]
  show offset.toNat &&& (2 ^ 29 - 1) <<< 3 = _
  apply Nat.eq_of_testBit_eq
  intro i
  rw [Nat.testBit_and, Nat.testBit_shiftLeft, Nat.testBit_shiftLeft, Nat.testBit_shiftRight,
    Nat.testBit_two_pow_sub_one]
  by_cases kept : 3 ≤ i
  · have same : 3 + (i - 3) = i := by omega
    by_cases inside : i < 32
    · have inMask : i - 3 < 29 := by omega
      simp [kept, inMask, same]
    · have ended : offset.toNat.testBit i = false := by
        apply Nat.testBit_lt_two_pow
        calc offset.toNat < 2 ^ 32 := offset.toNat_lt
          _ ≤ 2 ^ i := Nat.pow_le_pow_right (by decide) (by omega)
      simp [ended, same]
  · simp [kept]

theorem and_four_eq_zero_iff (offset : UInt32) : offset &&& 4 = 0 ↔ offset.toNat % 8 < 4 := by
  rw [← UInt32.toNat_inj, UInt32.toNat_and]
  show offset.toNat &&& 2 ^ 2 = 0 ↔ _
  rw [Nat.and_two_pow, Nat.testBit_eq_decide_div_mod_eq]
  by_cases set : offset.toNat / 2 ^ 2 % 2 = 1
  · simp only [set, decide_true, Bool.toNat_true]
    omega
  · simp only [set, decide_false, Bool.toNat_false]
    omega

namespace Counter

theorem at?_eq_some_iff {offset : UInt32} {counter : Counter} :
    at? offset = some counter ↔ counter.offset = offset := by
  constructor
  · intro found
    have same := List.find?_some found
    exact beq_iff_eq.mp same
  · rintro rfl
    cases counter <;> rfl

-- Every counter begins at a multiple of eight, so the eight bytes that an offset lies in are those
-- of a counter or of none.
theorem at?_and_blockMask_eq_some_iff {offset : UInt32} {counter : Counter} :
    at? (offset &&& 0xFFFFFFF8) = some counter ↔
      counter.offset.toNat ≤ offset.toNat ∧ offset.toNat < counter.offset.toNat + 8 := by
  have aligned : counter.offset.toNat % 8 = 0 := by cases counter <;> rfl
  rw [at?_eq_some_iff, ← UInt32.toNat_inj, toNat_and_blockMask]
  omega

end Counter

theorem Half.toNat_offset (half : Half) (counter : Counter) :
    (half.offset counter).toNat = counter.offset.toNat + half.start.toNat := by
  cases half <;> cases counter <;> rfl

/-! ## 3. What an offset reads as -/

namespace Console

variable {console : Console} {offset : UInt32}

theorem read_of_notMem_ruleOffsets (h : offset ∉ ruleOffsets) :
    console.read offset = (Counter.at? (offset &&& 0xFFFFFFF8)).elim 0 fun counter =>
      if offset &&& 4 = 0 then lowWord (counter.read console.tally)
      else highWord (counter.read console.tally) := by
  simp only [ruleOffsets, List.mem_cons, List.not_mem_nil, or_false, not_or] at h
  rw [read, if_neg h.1, if_neg h.2.1, if_neg h.2.2]
  cases Counter.at? (offset &&& 0xFFFFFFF8) <;> rfl

theorem read_of_covers (h : offset ∉ ruleOffsets) {half : Half} {counter : Counter}
    (covers : half.Covers counter offset) :
    console.read offset = half.word (counter.read console.tally) := by
  have aligned : counter.offset.toNat % 8 = 0 := by cases counter <;> rfl
  have begins : half.start.toNat = 0 ∨ half.start.toNat = 4 := by cases half <;> decide
  obtain ⟨least, most⟩ := covers
  rw [Half.toNat_offset] at least most
  have found : Counter.at? (offset &&& 0xFFFFFFF8) = some counter := by
    rw [Counter.at?_and_blockMask_eq_some_iff]
    omega
  rw [read_of_notMem_ruleOffsets h, found, Option.elim_some]
  cases half with
  | low =>
    have zero : Half.low.start.toNat = 0 := rfl
    exact if_pos ((and_four_eq_zero_iff offset).mpr (by omega))
  | high =>
    have four : Half.high.start.toNat = 4 := rfl
    exact if_neg (mt (and_four_eq_zero_iff offset).mp (by omega))

theorem read_of_not_covers (h : offset ∉ ruleOffsets)
    (outside : ∀ half counter, ¬ Half.Covers half counter offset) : console.read offset = 0 := by
  have missing : Counter.at? (offset &&& 0xFFFFFFF8) = none := by
    rw [Option.eq_none_iff_forall_ne_some]
    intro counter found
    obtain ⟨least, most⟩ := Counter.at?_and_blockMask_eq_some_iff.mp found
    have low := outside .low counter
    have high := outside .high counter
    unfold Half.Covers at low high
    rw [Half.toNat_offset] at low high
    have zero : Half.low.start.toNat = 0 := rfl
    have four : Half.high.start.toNat = 4 := rfl
    omega
  rw [read_of_notMem_ruleOffsets h, missing, Option.elim_none]

theorem isSome_readPair?_iff : (console.readPair? offset).isSome ↔ offset.toNat + 4 < UInt32.size := by
  unfold readPair?
  split
  · rename_i fits
    exact iff_of_true rfl fits
  · rename_i large
    exact iff_of_false nofun large

/-- **Offsets between the registers.**  Where no word begins, an offset reads as the half of a
counter that it lies in, and as zero if it lies in none.  A pair is read wherever a second word
follows. -/
theorem read_unmapped (console : Console) (offset : UInt32) :
    (Unmapped offset →
      ((∀ half counter, Half.Covers half counter offset →
          console.read offset = half.word (counter.read console.tally)) ∧
        (console.read offset = 0 ↔ ∀ half counter, Half.Covers half counter offset →
          half.word (counter.read console.tally) = 0))) ∧
    ((console.readPair? offset).isSome ↔ offset.toNat + 4 < UInt32.size) := by
  refine ⟨fun unmapped => ?_, isSome_readPair?_iff⟩
  have covered (half : Half) (counter : Counter) (covers : half.Covers counter offset) :
      console.read offset = half.word (counter.read console.tally) :=
    read_of_covers unmapped.rule covers
  refine ⟨covered, fun zero half counter covers => ?_, fun zero => ?_⟩
  · rw [← covered half counter covers, zero]
  · by_cases inside : ∃ half counter, Half.Covers half counter offset
    · obtain ⟨half, counter, covers⟩ := inside
      rw [covered half counter covers, zero half counter covers]
    · refine read_of_not_covers unmapped.rule fun half counter covers => ?_
      exact inside ⟨half, counter, covers⟩

-- The last byte of a high half: no word begins there, and the counter shows all the same.
theorem read_unmapped_last_byte :
    Unmapped 0x47 ∧ Half.high.Covers .chunksIn 0x47 ∧
      Console.read { tally := { chunksIn := 0x100000002 } } 0x47 = 1 ∧
      (Console.readPair? { tally := { chunksIn := 0x100000002 } } 0x47).isSome := by
  have unmapped : Unmapped 0x47 :=
    ⟨by decide, fun half counter => by cases half <;> cases counter <;> decide⟩
  have covers : Half.high.Covers .chunksIn 0x47 := by decide
  have shown := read_unmapped { tally := { chunksIn := 0x100000002 } } 0x47
  exact ⟨unmapped, covers, (shown.1 unmapped).1 .high .chunksIn covers, shown.2.mpr (by decide)⟩

theorem unmapped_shows_counter :
    Unmapped 0x29 ∧ Console.read { tally := Tally.record {} 1 true } 0x29 = 1 ∧
      Console.readPair? { tally := Tally.record {} 1 true } 0xFFFFFFFC = none := by
  refine ⟨⟨by decide, fun half counter => ?_⟩, by decide, by decide⟩
  cases half <;> cases counter <;> decide

end Console
end UdpGate
