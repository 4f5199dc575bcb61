import Mathlib.Data.Nat.ModEq
import UdpGate.Checksum

/-!
# The checksum as one's-complement arithmetic

Adding the carries back changes a sum by a multiple of 65535, and never to or from zero.  So the
carry loop ends at the word that stands for the sum (`Checksum.Represents`), and a run of bytes that
holds its own checksum in place of two zero bytes sums to a positive multiple of 65535, whose
checksum is zero.  The accumulator of 32 bits holds the sums of 131074 bytes and fewer: that many
bytes `0xFF` sum to its greatest value.
-/

namespace UdpGate.Checksum

/-! ## 1. The carry loop -/

def addCarries (sum : Nat) : Nat := sum % 0x10000 + sum / 0x10000

/-- The carry loop: from `sum` it ends with `word` after so many rounds.  A round is made only
while the sum does not fit a word. -/
inductive Loops : Nat → Nat → Nat → Prop where
  | done {sum : Nat} : sum ≤ 0xFFFF → Loops sum 0 sum
  | round {sum rounds word : Nat} : 0xFFFF < sum → Loops (addCarries sum) rounds word →
      Loops sum (rounds + 1) word

/-- The word that stands for a sum modulo 65535: zero for zero only, and 65535 for the other
multiples. -/
structure Represents (word sum : Nat) : Prop where
  zero_iff : word = 0 ↔ sum = 0
  le : word ≤ 65535
  modEq : word ≡ sum [MOD 65535]

theorem foldCarries_of_le {sum : Nat} (h : sum ≤ 0xFFFF) : foldCarries sum = sum := by
  unfold foldCarries
  exact if_pos h

theorem foldCarries_of_lt {sum : Nat} (h : 0xFFFF < sum) :
    foldCarries sum = foldCarries (addCarries sum) := by
  rw [foldCarries]
  exact if_neg (Nat.not_le_of_lt h)

theorem addCarries_modEq (sum : Nat) : addCarries sum ≡ sum [MOD 65535] := by
  show addCarries sum % 65535 = sum % 65535
  unfold addCarries
  omega

theorem addCarries_ne_zero {sum : Nat} (h : 0xFFFF < sum) : addCarries sum ≠ 0 := by
  unfold addCarries
  omega

-- By the recursion of the loop: the sum's residue is the invariant, and so is being positive.
theorem represents_foldCarries (sum : Nat) : Represents (foldCarries sum) sum := by
  fun_induction foldCarries sum with
  | case1 sum small => exact ⟨Iff.rfl, small, Nat.ModEq.rfl⟩
  | case2 sum large ih =>
    have above : 0xFFFF < sum := Nat.lt_of_not_le large
    refine ⟨?_, ih.le, ih.modEq.trans (addCarries_modEq sum)⟩
    rw [ih.zero_iff]
    exact iff_of_false (addCarries_ne_zero above) (by omega)

-- The carries of a sum of 32 bits fit a word, so adding them makes one more carry at most.
theorem exists_loops {sum : Nat} (h : sum < UInt32.size) :
    ∃ rounds ≤ 2, Loops sum rounds (foldCarries sum) := by
  have bound : sum < 4294967296 := h
  by_cases first : sum ≤ 0xFFFF
  · rw [foldCarries_of_le first]
    exact ⟨0, by decide, .done first⟩
  have once : 0xFFFF < sum := by omega
  rw [foldCarries_of_lt once]
  by_cases second : addCarries sum ≤ 0xFFFF
  · rw [foldCarries_of_le second]
    exact ⟨1, by decide, .round once (.done second)⟩
  have twice : 0xFFFF < addCarries sum := by omega
  have third : addCarries (addCarries sum) ≤ 0xFFFF := by
    unfold addCarries
    omega
  rw [foldCarries_of_lt twice, foldCarries_of_le third]
  exact ⟨2, by decide, .round once (.round twice (.done third))⟩

/-! ## 2. The sum of the words -/

theorem wordSum_le (bytes : List UInt8) : wordSum bytes ≤ 65535 * ((bytes.length + 1) / 2) := by
  fun_induction wordSum bytes with
  | case1 a b rest ih =>
    have := a.toNat_lt
    have := b.toNat_lt
    have half : ((a :: b :: rest).length + 1) / 2 = (rest.length + 1) / 2 + 1 := by
      simp only [List.length_cons]
      omega
    rw [half]
    omega
  | case2 a =>
    have := a.toNat_lt
    rw [List.length_singleton]
    omega
  | case3 => exact Nat.zero_le _

theorem wordSum_lt {bytes : List UInt8} (h : bytes.length ≤ 131074) :
    wordSum bytes < UInt32.size := by
  have words : (bytes.length + 1) / 2 ≤ 65537 := by omega
  calc wordSum bytes ≤ 65535 * ((bytes.length + 1) / 2) := wordSum_le bytes
    _ ≤ 65535 * 65537 := Nat.mul_le_mul_left _ words
    _ < UInt32.size := by decide

-- Words are cut from the front, two bytes at a time, so only an even front leaves them in step.
theorem wordSum_append {front : List UInt8} (even : front.length % 2 = 0) (back : List UInt8) :
    wordSum (front ++ back) = wordSum front + wordSum back := by
  fun_induction wordSum front with
  | case1 a b rest ih =>
    have shorter : rest.length % 2 = 0 := by
      simp only [List.length_cons] at even
      omega
    show a.toNat * 256 + b.toNat + wordSum (rest ++ back) = _
    rw [ih shorter]
    omega
  | case2 a => cases even
  | case3 => exact (Nat.zero_add _).symm

theorem wordSum_wordBytes_append (word : UInt16) (back : List UInt8) :
    wordSum (wordBytes word ++ back) = word.toNat + wordSum back := by
  have small := word.toNat_lt
  show (UInt8.ofNat (word.toNat / 256)).toNat * 256 + (UInt8.ofNat word.toNat).toNat +
    wordSum back = _
  rw [UInt8.toNat_ofNat', UInt8.toNat_ofNat']
  omega

/-! ## 3. The accumulator -/

-- By the recursion of the sum: each word is added to a sum that has room for all that follow.
theorem accumulate_eq_some {start : UInt32} {bytes : List UInt8}
    (room : start.toNat + wordSum bytes < UInt32.size) :
    accumulate start bytes = some (UInt32.ofNat (start.toNat + wordSum bytes)) := by
  fun_induction wordSum bytes generalizing start with
  | case1 a b rest ih =>
    rw [← Nat.add_assoc] at room
    have now : start.toNat + (a.toNat * 256 + b.toNat) < UInt32.size :=
      Nat.lt_of_le_of_lt (Nat.le_add_right _ _) room
    have next : (UInt32.ofNat (start.toNat + (a.toNat * 256 + b.toNat))).toNat =
        start.toNat + (a.toNat * 256 + b.toNat) := UInt32.toNat_ofNat_of_lt' now
    rw [accumulate, accumulate.addWord, if_pos now]
    show accumulate _ rest = _
    rw [ih (by rwa [next]), next, Nat.add_assoc]
  | case2 a => rw [accumulate, accumulate.addWord, if_pos room]
  | case3 => rw [accumulate, Nat.add_zero, UInt32.ofNat_toNat]

theorem accumulate_zero {bytes : List UInt8} (h : bytes.length ≤ 131074) :
    accumulate 0 bytes = some (UInt32.ofNat (wordSum bytes)) := by
  have room : (0 : UInt32).toNat + wordSum bytes < UInt32.size := by
    rw [UInt32.toNat_zero, Nat.zero_add]
    exact wordSum_lt h
  rw [accumulate_eq_some room, UInt32.toNat_zero, Nat.zero_add]

theorem ofBytes?_eq_some {bytes : List UInt8} (h : bytes.length ≤ 131074) :
    ofBytes? bytes = some (ofBytes bytes) := by
  rw [ofBytes?, accumulate_zero h, Option.map_some, UInt32.toNat_ofNat_of_lt' (wordSum_lt h)]
  rfl

/-! ## 4. Checksums -/

theorem toNat_ofBytes (bytes : List UInt8) :
    (ofBytes bytes).toNat = 65535 - foldCarries (wordSum bytes) := by
  have fits : foldCarries (wordSum bytes) < UInt16.size :=
    Nat.lt_succ_of_le (represents_foldCarries (wordSum bytes)).le
  rw [ofBytes, ofSum, UInt16.toNat_not, UInt16.toNat_ofNat_of_lt' fits]
  rfl

-- The greatest word is the only one that stands for a positive multiple of 65535.
theorem foldCarries_eq_of_dvd {sum : Nat} (positive : sum ≠ 0) (multiple : 65535 ∣ sum) :
    foldCarries sum = 65535 := by
  have stands := represents_foldCarries sum
  have nonzero : foldCarries sum ≠ 0 := mt stands.zero_iff.mp positive
  have divides : 65535 ∣ foldCarries sum := (stands.modEq.dvd_iff (dvd_refl _)).mpr multiple
  exact Nat.le_antisymm stands.le (Nat.le_of_dvd (Nat.pos_of_ne_zero nonzero) divides)

-- What the checksum lacks of 65535 stands for the sum of the rest.
theorem ofBytes_insert {front : List UInt8} (even : front.length % 2 = 0) (back : List UInt8) :
    ofBytes (front ++ wordBytes (ofBytes (front ++ 0 :: 0 :: back)) ++ back) = 0 := by
  have blank : wordSum (front ++ 0 :: 0 :: back) = wordSum front + wordSum back := by
    rw [wordSum_append even]
    show wordSum front + (0 + wordSum back) = _
    rw [Nat.zero_add]
  have stands := represents_foldCarries (wordSum front + wordSum back)
  have filled : wordSum (front ++ wordBytes (ofBytes (front ++ 0 :: 0 :: back)) ++ back) =
      wordSum front + wordSum back + (65535 - foldCarries (wordSum front + wordSum back)) := by
    rw [List.append_assoc, wordSum_append even, wordSum_wordBytes_append, toNat_ofBytes, blank]
    omega
  have sum_fold : foldCarries (wordSum front + wordSum back) +
      (65535 - foldCarries (wordSum front + wordSum back)) = 65535 :=
    Nat.add_sub_cancel' stands.le
  have positive : wordSum front + wordSum back +
      (65535 - foldCarries (wordSum front + wordSum back)) ≠ 0 := by
    have := stands.zero_iff
    omega
  have multiple : 65535 ∣ wordSum front + wordSum back +
      (65535 - foldCarries (wordSum front + wordSum back)) := by
    rw [← (stands.modEq.add_right _).dvd_iff (dvd_refl _), sum_fold]
  rw [← UInt16.toNat_inj, toNat_ofBytes, filled, foldCarries_eq_of_dvd positive multiple]
  rfl

/-- **One's-complement checksums.**  Of at most 131074 bytes the accumulator takes the exact sum,
the carry loop ends within two rounds at the word that stands for it, and the checksum is what this
word lacks of 65535.  Stored in place of two zero bytes at an even offset, it makes the checksum
zero. -/
theorem ofBytes?_onesComplement :
    (∀ bytes : List UInt8, bytes.length ≤ 131074 →
      ∃ (sum : UInt32) (rounds word : Nat) (checksum : UInt16),
        accumulate 0 bytes = some sum ∧ sum.toNat = wordSum bytes ∧
        rounds ≤ 2 ∧ Loops (wordSum bytes) rounds word ∧ Represents word (wordSum bytes) ∧
        ofBytes? bytes = some checksum ∧ checksum.toNat = 65535 - word) ∧
    ∀ front back : List UInt8, front.length % 2 = 0 →
      (front ++ 0 :: 0 :: back).length ≤ 131074 →
      ∃ checksum : UInt16, ofBytes? (front ++ 0 :: 0 :: back) = some checksum ∧
        ofBytes? (front ++ wordBytes checksum ++ back) = some 0 := by
  constructor
  · intro bytes short
    obtain ⟨rounds, few, loops⟩ := exists_loops (wordSum_lt short)
    refine ⟨UInt32.ofNat (wordSum bytes), rounds, foldCarries (wordSum bytes), ofBytes bytes, ?_⟩
    exact ⟨accumulate_zero short, UInt32.toNat_ofNat_of_lt' (wordSum_lt short), few, loops,
      represents_foldCarries _, ofBytes?_eq_some short, toNat_ofBytes bytes⟩
  · intro front back even short
    have same : (front ++ wordBytes (ofBytes (front ++ 0 :: 0 :: back)) ++ back).length =
        (front ++ 0 :: 0 :: back).length := by
      simp [wordBytes]
    refine ⟨_, ofBytes?_eq_some short, ?_⟩
    rw [ofBytes?_eq_some (same ▸ short), ofBytes_insert even]

-- The words add up to 262142, which takes two rounds; the last byte is the high half of a word.
theorem ofBytes?_onesComplement_odd :
    ([0xFF, 0xFF, 0xFF, 0xFF] : List UInt8).length % 2 = 0 ∧
      ([0xFF, 0xFF, 0xFF, 0xFF, 0, 0, 0xFF, 0xFF, 0xFF, 0x01, 0x01] : List UInt8).length ≤ 131074 ∧
      ofBytes? [0xFF, 0xFF, 0xFF, 0xFF, 0, 0, 0xFF, 0xFF, 0xFF, 0x01, 0x01] = some 65533 ∧
      ofBytes? [0xFF, 0xFF, 0xFF, 0xFF, 0xFF, 0xFD, 0xFF, 0xFF, 0xFF, 0x01, 0x01] = some 0 := by
  have short : ([0xFF, 0xFF, 0xFF, 0xFF, 0, 0, 0xFF, 0xFF, 0xFF, 0x01, 0x01] : List UInt8).length ≤
      131074 := by decide
  obtain ⟨_, _, word, checksum, -, -, -, -, stands, made, value⟩ :=
    ofBytes?_onesComplement.1 _ short
  have total : wordSum [0xFF, 0xFF, 0xFF, 0xFF, 0, 0, 0xFF, 0xFF, 0xFF, 0x01, 0x01] = 262142 := by
    decide
  have word_eq : word = 2 := by
    have residue : word % 65535 = 262142 % 65535 := total ▸ stands.modEq
    have nonzero : word ≠ 0 := fun zero => by simpa [total] using stands.zero_iff.mp zero
    have := stands.le
    omega
  have checksum_eq : checksum = 65533 := UInt16.toNat_inj.mp (by rw [value, word_eq]; rfl)
  rw [checksum_eq] at made
  have even : ([0xFF, 0xFF, 0xFF, 0xFF] : List UInt8).length % 2 = 0 := by decide
  obtain ⟨stored, again, cleared⟩ :=
    ofBytes?_onesComplement.2 [0xFF, 0xFF, 0xFF, 0xFF] [0xFF, 0xFF, 0xFF, 0x01, 0x01] even short
  have stored_eq : stored = 65533 := Option.some.inj (again.symm.trans made)
  rw [stored_eq] at cleared
  exact ⟨even, short, made, cleared⟩

end UdpGate.Checksum
