import Mathlib
import UdpGate.Proofs.SlotStore
import UdpGate.Proofs.ToeplitzLinear

/-!
# Every slot gets the same share of the keys

Adding a fixed key by exclusive or moves the keys of one slot onto those of another, so if the hash
reaches every word, the slots of a table share all keys evenly (`RuleTable.card_slotOf`).  The hash
under the standard key reaches every word because it reaches each word of a single bit; there is an
address for each of them in `ToeplitzKey.unitAddresses`.
-/

namespace UdpGate

/-! ## 1. Counting keys -/

namespace RuleKey

theorem xor_xor_cancel (a b : RuleKey) : (a.xor b).xor b = a := by
  show RuleKey.mk ⟨a.address.value ^^^ b.address.value ^^^ b.address.value⟩
    (a.port ^^^ b.port ^^^ b.port) = a
  rw [UInt32.xor_assoc, UInt32.xor_self, UInt32.xor_zero, UInt16.xor_assoc, UInt16.xor_self,
    UInt16.xor_zero]

def equivFin : RuleKey ≃ Fin (2 ^ 32) × Fin (2 ^ 16) where
  toFun key := (key.address.value.toFin, key.port.toFin)
  invFun pair := ⟨⟨⟨⟨pair.1⟩⟩⟩, ⟨⟨pair.2⟩⟩⟩
  left_inv _ := rfl
  right_inv _ := rfl

theorem card_ruleKey : Nat.card RuleKey = 2 ^ 48 := by
  rw [Nat.card_congr equivFin, Nat.card_prod, Nat.card_fin, Nat.card_fin]
  norm_num

end RuleKey

instance : Finite RuleKey := Finite.of_equiv _ RuleKey.equivFin.symm

namespace RuleTable

section Shares

variable {hashKey : ToeplitzKey} {indexBits : Fin 32}

/-- Adding a key moves the keys of the first slot onto those of its own slot. -/
def slotEquiv (hashKey : ToeplitzKey) (indexBits : Fin 32) (shift : RuleKey) :
    {key : RuleKey // slotOf hashKey indexBits key = 0} ≃
      {key : RuleKey // slotOf hashKey indexBits key = slotOf hashKey indexBits shift} :=
  Equiv.subtypeEquiv
    (Function.Involutive.toPerm (RuleKey.xor · shift) fun key => key.xor_xor_cancel shift)
    fun key => by
      show _ ↔ slotOf hashKey indexBits (key.xor shift) = _
      rw [slotOf_xor, xor_right_eq_self_iff]

theorem exists_slotOf_eq (onto : Function.Surjective hashKey.hash) {slot : Nat}
    (inside : slot < Nat.pow 2 indexBits.val) : ∃ key, slotOf hashKey indexBits key = slot := by
  obtain ⟨key, hashed⟩ := onto (BitVec.ofNat 32 slot)
  have small : slot < 2 ^ 32 :=
    Nat.lt_of_lt_of_le inside (Nat.pow_le_pow_right (by decide) (Nat.le_of_lt indexBits.isLt))
  refine ⟨key, ?_⟩
  rw [slotOf, hashed, BitVec.toNat_ofNat, Nat.mod_eq_of_lt small, Nat.mod_eq_of_lt inside]

theorem card_slotOf_eq_card_first (onto : Function.Surjective hashKey.hash) {slot : Nat}
    (inside : slot < Nat.pow 2 indexBits.val) :
    Nat.card {key // slotOf hashKey indexBits key = slot} =
      Nat.card {key // slotOf hashKey indexBits key = 0} := by
  obtain ⟨shift, rfl⟩ := exists_slotOf_eq onto inside
  exact (Nat.card_congr (slotEquiv hashKey indexBits shift)).symm

-- If the hash reaches every word, all slots get the same share of the keys.
theorem card_slotOf (onto : Function.Surjective hashKey.hash) {slot : Nat}
    (inside : slot < Nat.pow 2 indexBits.val) :
    Nat.card {key // slotOf hashKey indexBits key = slot} = 2 ^ 48 / Nat.pow 2 indexBits.val := by
  have pos : 0 < Nat.pow 2 indexBits.val := Nat.two_pow_pos _
  let place (key : RuleKey) : Fin (Nat.pow 2 indexBits.val) :=
    ⟨slotOf hashKey indexBits key, Nat.mod_lt _ pos⟩
  have whole : 2 ^ 48 =
      Nat.pow 2 indexBits.val * Nat.card {key // slotOf hashKey indexBits key = 0} := by
    calc 2 ^ 48
        = Nat.card RuleKey := RuleKey.card_ruleKey.symm
      _ = Nat.card (Σ slot, {key // place key = slot}) :=
          Nat.card_congr (Equiv.sigmaFiberEquiv place).symm
      _ = ∑ slot, Nat.card {key // place key = slot} := Nat.card_sigma
      _ = ∑ _slot : Fin (Nat.pow 2 indexBits.val),
            Nat.card {key // slotOf hashKey indexBits key = 0} := by
          refine Finset.sum_congr rfl fun slot _ => ?_
          rw [← card_slotOf_eq_card_first onto slot.isLt]
          exact Nat.card_congr (Equiv.subtypeEquivRight fun key => Fin.ext_iff)
      _ = Nat.pow 2 indexBits.val * Nat.card {key // slotOf hashKey indexBits key = 0} := by
          rw [Finset.sum_const, Finset.card_univ, Fintype.card_fin, smul_eq_mul]
  rw [card_slotOf_eq_card_first onto inside, whole, Nat.mul_div_cancel_left _ pos]

end Shares
end RuleTable

/-! ## 2. The words that the hash reaches -/

namespace ToeplitzKey

-- A hash that reaches the words of a single bit reaches every word.  By induction on the number of
-- low bits that the word may use.
theorem hash_surjective_of_units {key : ToeplitzKey}
    (units : ∀ i < 32, ∃ endpoint, key.hash endpoint = BitVec.twoPow 32 i) :
    Function.Surjective key.hash := by
  have reach : ∀ n ≤ 32, ∀ word : BitVec 32, (∀ i, n ≤ i → word.getLsbD i = false) →
      ∃ endpoint, key.hash endpoint = word := by
    intro n
    induction n with
    | zero =>
      intro _ word clear
      have zero : word = 0 := by
        apply BitVec.eq_of_getLsbD_eq
        intro i _
        rw [clear i (Nat.zero_le i)]
        simp
      obtain ⟨endpoint, -⟩ := units 0 (by decide)
      exact ⟨endpoint.xor endpoint, by rw [hash_xor, BitVec.xor_self, zero]; rfl⟩
    | succ n ih =>
      intro inside word clear
      cases top : word.getLsbD n with
      | false =>
        refine ih (Nat.le_of_succ_le inside) word fun i above => ?_
        rcases Nat.eq_or_lt_of_le above with rfl | higher
        · exact top
        · exact clear i higher
      | true =>
        -- Without its top bit the word is reached, and the top bit is added to it.
        have lower : ∀ i, n ≤ i → (word ^^^ BitVec.twoPow 32 n).getLsbD i = false := by
          intro i above
          rw [BitVec.getLsbD_xor, BitVec.getLsbD_twoPow]
          rcases Nat.eq_or_lt_of_le above with rfl | higher
          · simp [top, Nat.lt_of_succ_le inside]
          · simp [clear i higher, Nat.ne_of_lt higher]
        obtain ⟨rest, reached⟩ := ih (Nat.le_of_succ_le inside) _ lower
        obtain ⟨unit, single⟩ := units n inside
        refine ⟨rest.xor unit, ?_⟩
        rw [hash_xor, reached, single, BitVec.xor_assoc, BitVec.xor_self, BitVec.xor_zero]
  intro word
  exact reach 32 (Nat.le_refl 32) word fun i beyond => BitVec.getLsbD_of_ge word i beyond

/-- For each bit of a word, the address that with port 0 hashes to it under the standard key. -/
def unitAddresses : Vector UInt32 32 :=
  #v[0x5216C5BA, 0x7B1DA767, 0xE04D408E, 0x223065FD, 0x9ECD6479, 0xC0B3E4BB, 0xEF8CA4DA, 0x77C6526D,
    0xE620BA0B, 0xFCC50B82, 0x2C74407B, 0xCBF9B300, 0x65FCD980, 0x60E8A97A, 0x307454BD, 0xC5F9B963,
    0xED298A36, 0x248200A1, 0x9D9456D7, 0x9309B856, 0x4984DC2B, 0xF901FD28, 0x7C80FE94, 0x6C56BAF0,
    0x643D98C2, 0x600809DB, 0xEDC797D0, 0x24F50E52, 0x406C4293, 0xAFE377CE, 0x57F1BBE7, 0xA42D8B74]

theorem hash_unitAddresses : ∀ i : Fin 32,
    standard.hash ⟨⟨unitAddresses[i]⟩, 0⟩ = BitVec.twoPow 32 i := by
  decide +kernel

theorem hash_standard_surjective : Function.Surjective standard.hash :=
  hash_surjective_of_units fun i inside => ⟨_, hash_unitAddresses ⟨i, inside⟩⟩

end ToeplitzKey
namespace RuleTable

/-- **Even shares under the standard key.**  In a table of any size that is accepted, each slot has the
same number of keys, and so at least one. -/
theorem card_slot_of_standard {capacity : Nat} {table : RuleTable}
    (accepted : ofCapacity? capacity .standard = some table) {slot : Nat} (inside : slot < capacity) :
    Nat.card {key : RuleKey // table.index key = slot} = 2 ^ 48 / capacity ∧
      ∃ key, table.index key = slot := by
  obtain ⟨indexBits, size, rfl⟩ := Option.map_eq_some_iff.mp accepted
  obtain rfl := indexBits?_eq_some_iff.mp size
  exact ⟨card_slotOf ToeplitzKey.hash_standard_surjective inside,
    exists_slotOf_eq ToeplitzKey.hash_standard_surjective inside⟩

-- The last slot of a table of the greatest size.
theorem card_slot_of_standard_greatest :
    ∃ table, ofCapacity? (2 ^ 31) .standard = some table ∧ 2147483647 < 2 ^ 31 ∧
      Nat.card {key : RuleKey // table.index key = 2147483647} = 131072 ∧
      ∃ key, table.index key = 2147483647 := by
  have power : (2 ^ 31 : Nat).isPowerOfTwo := ⟨31, rfl⟩
  have fits : 2 ^ 31 < UInt32.size := by decide
  obtain ⟨table, accepted, -⟩ := ofCapacity?_of_power power fits .standard
  have inside : 2147483647 < 2 ^ 31 := by decide
  obtain ⟨share, reached⟩ := card_slot_of_standard accepted inside
  have count : 2 ^ 48 / 2 ^ 31 = 131072 := by decide
  exact ⟨table, accepted, inside, share.trans count, reached⟩

end RuleTable
end UdpGate
