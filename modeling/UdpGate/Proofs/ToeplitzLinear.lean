import Mathlib
import UdpGate.Rule.Table

/-!
# The hash is linear

A hash key is one number of 320 bits (`ToeplitzKey.number`), and the window at an offset is that number
shifted down by the offset and cut to 32 bits.  The hash of an endpoint is the exclusive or of the
windows at its set bits, so it takes the exclusive or of two endpoints to the exclusive or of their
hashes, and two endpoints share a slot if their difference hashes to a multiple of the capacity
(`ToeplitzKey.hash_linear`).
-/

namespace UdpGate

/-! ## 1. Words as one number -/

def wordsNumber (words : List (BitVec 32)) : Nat :=
  words.foldr (fun word above => 2 ^ 32 * above + word.toNat) 0

theorem testBit_wordsNumber (words : List (BitVec 32)) (i : Nat) :
    (wordsNumber words).testBit i = (words[i / 32]?.getD 0).getLsbD (i % 32) := by
  induction words generalizing i with
  | nil => simp [wordsNumber]
  | cons word words ih =>
    have step : wordsNumber (word :: words) = 2 ^ 32 * wordsNumber words + word.toNat := rfl
    rw [step, Nat.testBit_two_pow_mul_add _ word.isLt]
    by_cases first : i < 32
    · rw [if_pos first, Nat.div_eq_of_lt first, Nat.mod_eq_of_lt first]
      rfl
    · have later : i / 32 = (i - 32) / 32 + 1 := by omega
      have place : i % 32 = (i - 32) % 32 := by omega
      rw [if_neg first, ih, later, place, List.getElem?_cons_succ]

namespace ToeplitzKey

/-- The key as one number of 320 bits: bit 0 is the low bit of word 0. -/
def number (key : ToeplitzKey) : Nat := wordsNumber key.words.toList

theorem getLsbD_word (key : ToeplitzKey) (i : Nat) :
    (key.word (i / 32)).getLsbD (i % 32) = key.number.testBit i := by
  rw [number, testBit_wordsNumber, word, Vector.getElem?_toList]

theorem getLsbD_window (key : ToeplitzKey) (offset : Nat) {i : Nat} (h : i < 32) :
    (key.window offset).getLsbD i = key.number.testBit (offset + i) := by
  rw [← getLsbD_word, window, BitVec.getLsbD_or, BitVec.getLsbD_ushiftRight,
    BitVec.getLsbD_shiftLeft]
  by_cases first : offset % 32 + i < 32
  · have here : (offset + i) / 32 = offset / 32 := by omega
    have place : (offset + i) % 32 = offset % 32 + i := by omega
    have before : i < 32 - offset % 32 := by omega
    simp [here, place, before]
  · have next : (offset + i) / 32 = offset / 32 + 1 := by omega
    have place : (offset + i) % 32 = i - (32 - offset % 32) := by omega
    have behind : ¬ i < 32 - offset % 32 := by omega
    have ended : (key.word (offset / 32)).getLsbD (offset % 32 + i) = false :=
      BitVec.getLsbD_of_ge _ _ (Nat.le_of_not_lt first)
    simp [next, place, behind, ended, h]

theorem toNat_window (key : ToeplitzKey) (offset : Nat) :
    (key.window offset).toNat = (key.number >>> offset) % 2 ^ 32 := by
  apply Nat.eq_of_testBit_eq
  intro i
  rw [Nat.testBit_mod_two_pow, Nat.testBit_shiftRight]
  by_cases inside : i < 32
  · rw [decide_eq_true inside, Bool.true_and]
    exact getLsbD_window key offset inside
  · rw [decide_eq_false inside, Bool.false_and]
    exact BitVec.getLsbD_of_ge _ _ (Nat.le_of_not_lt inside)

/-! ## 2. The hash as a sum of windows -/

theorem toNat_input (endpoint : RuleKey) :
    (input endpoint).toNat = endpoint.address.value.toNat + 2 ^ 32 * endpoint.port.toNat := by
  show (endpoint.port.toBitVec ++ endpoint.address.value.toBitVec).toNat = _
  rw [BitVec.toNat_append, ← Nat.shiftLeft_add_eq_or_of_lt endpoint.address.value.toBitVec.isLt,
    Nat.shiftLeft_eq, Nat.mul_comm, Nat.add_comm]
  rfl

theorem bitIndices_eq_filter {n bits : Nat} (h : n < 2 ^ bits) :
    n.bitIndices = (List.range bits).filter n.testBit := by
  have sorted : n.bitIndices.Pairwise (· < ·) := Nat.bitIndices_sorted.pairwise
  have listed : ((List.range bits).filter n.testBit).Pairwise (· < ·) :=
    List.pairwise_lt_range.filter _
  apply List.Pairwise.eq_of_mem_iff sorted listed
  intro i
  rw [Nat.mem_bitIndices, List.mem_filter, List.mem_range, iff_and_self]
  intro set
  have small : 2 ^ i < 2 ^ bits := Nat.lt_of_le_of_lt (Nat.ge_two_pow_of_testBit set) h
  exact (Nat.pow_lt_pow_iff_right (by decide)).mp small

theorem toNat_fold (key : ToeplitzKey) (bits : BitVec 48) :
    (key.fold bits).toNat =
      (bits.toNat.bitIndices.map fun i => (key.number >>> i) % 2 ^ 32).foldl (· ^^^ ·) 0 := by
  have chosen : (List.range inputBits).filter bits.getLsbD = bits.toNat.bitIndices :=
    (bitIndices_eq_filter bits.isLt).symm
  have numbers (l : List Nat) : (l.foldl (fun sum i => sum ^^^ key.window i) 0).toNat =
      l.foldl (fun sum i => sum ^^^ (key.window i).toNat) 0 :=
    (List.foldl_hom BitVec.toNat fun sum i => (BitVec.toNat_xor sum (key.window i)).symm).symm
  rw [fold, chosen, numbers, List.foldl_map]
  simp only [toNat_window]

/-! ## 3. Exclusive or of endpoints -/

-- Summing over the places where two choices differ sums over both.
theorem foldl_filter_xor (key : ToeplitzKey) (p q : Nat → Bool) (l : List Nat) (s t : BitVec 32) :
    (l.filter fun i => p i ^^ q i).foldl (fun sum i => sum ^^^ key.window i) (s ^^^ t) =
      (l.filter p).foldl (fun sum i => sum ^^^ key.window i) s ^^^
        (l.filter q).foldl (fun sum i => sum ^^^ key.window i) t := by
  induction l generalizing s t with
  | nil => rfl
  | cons i l ih =>
    have left : s ^^^ t ^^^ key.window i = (s ^^^ key.window i) ^^^ t := by ac_rfl
    have right : s ^^^ t ^^^ key.window i = s ^^^ (t ^^^ key.window i) := by ac_rfl
    have both : (s ^^^ key.window i) ^^^ (t ^^^ key.window i) = s ^^^ t := by
      calc (s ^^^ key.window i) ^^^ (t ^^^ key.window i)
          = s ^^^ t ^^^ (key.window i ^^^ key.window i) := by ac_rfl
        _ = s ^^^ t := by rw [BitVec.xor_self, BitVec.xor_zero]
    cases hp : p i with
    | false =>
      cases hq : q i with
      | false => simp [hp, hq, ih]
      | true => simp [hp, hq, ← ih, right]
    | true =>
      cases hq : q i with
      | false => simp [hp, hq, ← ih, left]
      | true => simp [hp, hq, ← ih, both]

theorem fold_xor (key : ToeplitzKey) (a b : BitVec 48) :
    key.fold (a ^^^ b) = key.fold a ^^^ key.fold b := by
  have differ : (a ^^^ b).getLsbD = fun i => a.getLsbD i ^^ b.getLsbD i := by
    funext i
    exact BitVec.getLsbD_xor
  rw [fold, differ]
  exact key.foldl_filter_xor a.getLsbD b.getLsbD _ 0 0

end ToeplitzKey

def RuleKey.xor (a b : RuleKey) : RuleKey :=
  ⟨⟨a.address.value ^^^ b.address.value⟩, a.port ^^^ b.port⟩

namespace ToeplitzKey

theorem input_xor (a b : RuleKey) : input (a.xor b) = input a ^^^ input b := by
  show (a.port ^^^ b.port).toBitVec ++ (a.address.value ^^^ b.address.value).toBitVec = _
  rw [UInt16.toBitVec_xor, UInt32.toBitVec_xor]
  exact BitVec.xor_append.symm

theorem hash_xor (key : ToeplitzKey) (a b : RuleKey) :
    key.hash (a.xor b) = key.hash a ^^^ key.hash b := by
  rw [hash, hash, hash, input_xor, fold_xor]

end ToeplitzKey

/-! ## 4. Slots -/

namespace RuleTable

theorem slotOf_xor (hashKey : ToeplitzKey) (indexBits : Fin 32) (a b : RuleKey) :
    slotOf hashKey indexBits (a.xor b) =
      slotOf hashKey indexBits a ^^^ slotOf hashKey indexBits b := by
  rw [slotOf, ToeplitzKey.hash_xor, BitVec.toNat_xor]
  exact Nat.xor_mod_two_pow

-- Two keys share a slot if their difference goes to the first one.
theorem slotOf_eq_iff {hashKey : ToeplitzKey} {indexBits : Fin 32} {a b : RuleKey} :
    slotOf hashKey indexBits a = slotOf hashKey indexBits b ↔
      Nat.pow 2 indexBits.val ∣ (hashKey.hash (a.xor b)).toNat := by
  rw [Nat.dvd_iff_mod_eq_zero]
  show _ ↔ slotOf hashKey indexBits (a.xor b) = 0
  rw [slotOf_xor, Nat.xor_eq_zero_iff]

end RuleTable
/-- **The hash is the linear map of its key.**  Each window that the key covers is the key's number cut
to 32 bits from the offset on; the hash of an endpoint is the exclusive or of the windows at the set
bits of its number, the address below the port; so hashing goes through exclusive or, and a table of
any size puts two endpoints into one slot if and only if its capacity divides the hash of their
difference. -/
theorem ToeplitzKey.hash_linear (key : ToeplitzKey) :
    (∀ offset ≤ 288, (key.window? offset).map BitVec.toNat =
      some ((key.number >>> offset) % 2 ^ 32)) ∧
    (∀ endpoint : RuleKey, (key.hash endpoint).toNat =
      ((endpoint.address.value.toNat + 2 ^ 32 * endpoint.port.toNat).bitIndices.map
        fun i => (key.number >>> i) % 2 ^ 32).foldl (· ^^^ ·) 0) ∧
    (∀ a b : RuleKey, key.hash (a.xor b) = key.hash a ^^^ key.hash b) ∧
    ∀ table : RuleTable, table.hashKey = key → ∀ a b : RuleKey,
      table.index a = table.index b ↔ table.capacity ∣ (key.hash (a.xor b)).toNat := by
  refine ⟨?_, ?_, key.hash_xor, ?_⟩
  · intro offset inside
    have covered : offset ≤ lastOffset := inside
    rw [window?, if_pos covered, Option.map_some, toNat_window]
  · intro endpoint
    rw [hash, toNat_fold, toNat_input]
  · rintro table rfl a b
    exact RuleTable.slotOf_eq_iff

end UdpGate
