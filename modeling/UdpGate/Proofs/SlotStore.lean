import Mathlib.Data.List.Nodup
import UdpGate.Proofs.TableHistory

/-!
# A table is a store of latest writes

Look-ups, owners, displaced keys and the listing of a table are four views of one history: each slot
shows the rule that was written to it last.  `RuleTable.Shows` puts the views together, and
`RuleTable.shows_foldl_insert` says that every table that began empty has them.  The listing goes
through the written slots in increasing order, once each.
-/

namespace UdpGate
namespace RuleTable

/-! ## 1. Sizes -/

-- The sizes that a table can have: the powers of two that a 32-bit mask reaches.
theorem indexBits?_eq_some_iff {capacity : Nat} {indexBits : Fin 32} :
    indexBits? capacity = some indexBits ↔ capacity = Nat.pow 2 indexBits.val := by
  unfold indexBits?
  constructor
  · intro h
    split at h
    · split at h
      · rename_i power
        rw [← Option.some.inj h]
        exact power.symm
      · cases h
    · cases h
  · rintro rfl
    have log : (Nat.pow 2 indexBits.val).log2 = indexBits.val := Nat.log2_two_pow
    have small : (Nat.pow 2 indexBits.val).log2 < 32 := by rw [log]; exact indexBits.isLt
    have back : Nat.pow 2 (Nat.pow 2 indexBits.val).log2 = Nat.pow 2 indexBits.val := by rw [log]
    rw [dif_pos small, if_pos back, Option.some.injEq]
    exact Fin.ext log

theorem ofCapacity?_of_power {capacity : Nat} (power : capacity.isPowerOfTwo)
    (fits : capacity < UInt32.size) (hashKey : ToeplitzKey) :
    ∃ table, ofCapacity? capacity hashKey = some table ∧ table.capacity = capacity := by
  obtain ⟨bits, rfl⟩ := power
  have small : bits < 32 := (Nat.pow_lt_pow_iff_right (by decide)).mp fits
  have found : indexBits? (2 ^ bits) = some ⟨bits, small⟩ := indexBits?_eq_some_iff.mpr rfl
  exact ⟨empty hashKey ⟨bits, small⟩, by rw [ofCapacity?, found, Option.map_some], rfl⟩

/-! ## 2. The views of a table -/

-- The listing goes through both arrays side by side, in increasing order, and leaves out the slots
-- that nobody owns.
theorem rules_eq_filterMap (table : RuleTable) :
    table.rules = (List.range table.capacity).filterMap table.rule? := by
  have slots : (table.owners.toList.zip table.actions.toList).map
      (fun slot => slot.1.map fun key => Rule.mk key slot.2) =
        (List.range table.capacity).map table.rule? := by
    apply List.ext_getElem
    · simp [capacity]
    · intro slot inside _
      have here : slot < Nat.pow 2 table.indexBits.val := by simpa using inside
      rw [List.getElem_map, List.getElem_map, List.getElem_range, List.getElem_zip,
        Vector.getElem_toList, Vector.getElem_toList, table.rule?_of_lt here]
  have listed := congrArg (List.filterMap id) slots
  rwa [List.filterMap_map, List.filterMap_map] at listed

theorem displacedBy?_eq_some_iff {table : RuleTable} {key previous : RuleKey} :
    table.displacedBy? key = some previous ↔
      table.owner? (table.index key) = some previous ∧ previous ≠ key := by
  rw [displacedBy?, Option.filter_eq_some_iff, decide_eq_true_iff]

@[simp] theorem capacity_foldl_insert (table : RuleTable) (rules : List Rule) :
    (rules.foldl insert table).capacity = table.capacity := by
  induction rules generalizing table with
  | nil => rfl
  | cons rule rules ih => rw [List.foldl_cons, ih, capacity_insert]

theorem hash_foldl_insert (table : RuleTable) (rules : List Rule) (key : RuleKey) :
    (rules.foldl insert table).hash key = table.hash key := by
  induction rules generalizing table with
  | nil => rfl
  | cons rule rules ih => rw [List.foldl_cons, ih, hash, hashKey_insert, hash]

/-! ## 3. Slots that were written -/

section Written

variable {fresh : RuleTable} {history : List Rule} {slot : Nat}

theorem latest?_isSome_iff :
    (fresh.latest? history slot).isSome ↔ ∃ rule ∈ history, fresh.index rule.key = slot := by
  rw [← Option.ne_none_iff_isSome, ne_eq, latest?_eq_none_iff]
  simp

-- The slots of the rules that are listed are those that were written, in increasing order.
theorem map_index_filterMap_latest? (slots : List Nat) :
    (slots.filterMap (fresh.latest? history)).map (fun rule => fresh.index rule.key) =
      slots.filter fun slot => (fresh.latest? history slot).isSome := by
  induction slots with
  | nil => rfl
  | cons slot slots ih =>
    cases found : fresh.latest? history slot with
    | none => rw [List.filterMap_cons_none found, List.filter_cons_of_neg (by simp [found]), ih]
    | some rule =>
      rw [List.filterMap_cons_some found, List.filter_cons_of_pos (by simp [found]), List.map_cons,
        (mem_of_latest? found).2, ih]

end Written

/-! ## 4. What a history comes to -/

/-- A table shows a history of writes to an empty table: each of its views tells of the latest write
to a slot, and what a view depends on besides is as it was. -/
structure Shows (table fresh : RuleTable) (history : List Rule) : Prop where
  lookup_eq : ∀ key, table.lookup key =
    ((fresh.latest? history (fresh.index key)).map Rule.action).getD .drop
  owner_eq : ∀ slot, table.owner? slot = (fresh.latest? history slot).map Rule.key
  owner_outside : ∀ slot, fresh.capacity ≤ slot → table.owner? slot = none
  displaced_iff : ∀ key previous, table.displacedBy? key = some previous ↔
    (∃ rule, fresh.latest? history (fresh.index key) = some rule ∧ rule.key = previous) ∧
      previous ≠ key
  rules_eq : table.rules = (List.range fresh.capacity).filterMap (fresh.latest? history)
  listed_slots : ∀ slot, slot ∈ table.rules.map (fun rule => table.index rule.key) ↔
    ∃ rule ∈ history, fresh.index rule.key = slot
  slots_increase : (table.rules.map fun rule => table.index rule.key).Pairwise (· < ·)
  lookup_listed : ∀ rule ∈ table.rules, table.lookup rule.key = rule.action
  keys_distinct : (table.rules.map Rule.key).Nodup
  capacity_eq : table.capacity = fresh.capacity
  hash_eq : ∀ key, table.hash key = fresh.hash key
  index_eq : ∀ key, table.index key = fresh.index key

section History

variable {capacity : Nat} {hashKey : ToeplitzKey} {fresh : RuleTable}

theorem rules_foldl_insert (h : ofCapacity? capacity hashKey = some fresh) (history : List Rule) :
    (history.foldl insert fresh).rules =
      (List.range fresh.capacity).filterMap (fresh.latest? history) := by
  rw [rules_eq_filterMap, capacity_foldl_insert]
  congr 1
  funext slot
  rw [rule?_foldl_insert, rule?_of_ofCapacity? h, Option.or_none]

theorem owner?_foldl_insert (h : ofCapacity? capacity hashKey = some fresh) (history : List Rule)
    (slot : Nat) :
    (history.foldl insert fresh).owner? slot = (fresh.latest? history slot).map Rule.key := by
  rw [owner?_eq, rule?_foldl_insert, rule?_of_ofCapacity? h, Option.or_none]

theorem map_index_rules (h : ofCapacity? capacity hashKey = some fresh) (history : List Rule) :
    ((history.foldl insert fresh).rules.map fun rule =>
        (history.foldl insert fresh).index rule.key) =
      (List.range fresh.capacity).filter fun slot => (fresh.latest? history slot).isSome := by
  simp only [index_foldl_insert]
  rw [rules_foldl_insert h, map_index_filterMap_latest?]

-- A rule is listed if it is the latest one in its slot, so a look-up of its key comes to it again.
theorem lookup_of_mem_rules (h : ofCapacity? capacity hashKey = some fresh) {history : List Rule}
    {rule : Rule} (listed : rule ∈ (history.foldl insert fresh).rules) :
    (history.foldl insert fresh).lookup rule.key = rule.action := by
  rw [rules_foldl_insert h] at listed
  obtain ⟨slot, -, latest⟩ := List.mem_filterMap.mp listed
  have here : fresh.latest? history (fresh.index rule.key) = some rule := by
    rw [(mem_of_latest? latest).2]
    exact latest
  rw [lookup_foldl_insert h, here]
  rfl

-- Keys that are listed at different slots are different.
theorem nodup_keys_rules (h : ofCapacity? capacity hashKey = some fresh) (history : List Rule) :
    ((history.foldl insert fresh).rules.map Rule.key).Nodup := by
  have slots : ((history.foldl insert fresh).rules.map fun rule =>
      (history.foldl insert fresh).index rule.key).Nodup := by
    rw [map_index_rules h]
    exact List.nodup_range.filter _
  have through : (history.foldl insert fresh).rules.map
      (fun rule => (history.foldl insert fresh).index rule.key) =
      ((history.foldl insert fresh).rules.map Rule.key).map
        (history.foldl insert fresh).index := by
    rw [List.map_map]
    rfl
  rw [through] at slots
  exact slots.of_map _

end History

/-- **The latest write to a slot is what a table shows.**  There is a table of every size that is a
power of two below 2 ^ 32, and under every hash key and after any history of writes all its views
agree on the latest write to each slot. -/
theorem shows_foldl_insert {capacity : Nat} (power : capacity.isPowerOfTwo)
    (fits : capacity < UInt32.size) (hashKey : ToeplitzKey) :
    ∃ fresh, ofCapacity? capacity hashKey = some fresh ∧ fresh.capacity = capacity ∧
      ∀ history : List Rule, (history.foldl insert fresh).Shows fresh history := by
  obtain ⟨fresh, made, size⟩ := ofCapacity?_of_power power fits hashKey
  refine ⟨fresh, made, size, fun history => ?_⟩
  exact {
    lookup_eq := lookup_foldl_insert made history
    owner_eq := owner?_foldl_insert made history
    owner_outside := by
      intro slot outside
      have size_eq := capacity_foldl_insert fresh history
      rw [owner?_eq, rule?_of_le _ (Nat.le_trans (Nat.le_of_eq size_eq) outside), Option.map_none]
    displaced_iff := by
      intro key previous
      rw [displacedBy?_eq_some_iff, index_foldl_insert, owner?_foldl_insert made,
        Option.map_eq_some_iff]
    rules_eq := rules_foldl_insert made history
    listed_slots := by
      intro slot
      rw [map_index_rules made, List.mem_filter, latest?_isSome_iff, List.mem_range,
        and_iff_right_iff_imp]
      rintro ⟨rule, -, rfl⟩
      exact fresh.index_lt rule.key
    slots_increase := by
      rw [map_index_rules made]
      exact List.pairwise_lt_range.filter _
    lookup_listed := fun _ listed => lookup_of_mem_rules made listed
    keys_distinct := nodup_keys_rules made history
    capacity_eq := capacity_foldl_insert fresh history
    hash_eq := hash_foldl_insert fresh history
    index_eq := index_foldl_insert fresh history }

-- The sample key and its neighbour share a slot: the neighbour's rule replaces the first one, and
-- would be replaced by the next write about the sample key.
def sampleHistory : List Rule :=
  [⟨Lane.sampleKey, .forward⟩, ⟨neighbourKey, .drop⟩, ⟨⟨⟨0x0A000006⟩, 9000⟩, .forward⟩]

theorem shows_foldl_insert_neighbour :
    (32 : Nat).isPowerOfTwo ∧ 32 < UInt32.size ∧
      ∃ fresh, ofCapacity? 32 .standard = some fresh ∧
        (sampleHistory.foldl insert fresh).rules = sampleHistory.tail ∧
        (sampleHistory.foldl insert fresh).lookup Lane.sampleKey = .drop ∧
        (sampleHistory.foldl insert fresh).displacedBy? Lane.sampleKey = some neighbourKey := by
  have power : (32 : Nat).isPowerOfTwo := ⟨5, rfl⟩
  have fits : 32 < UInt32.size := by decide
  obtain ⟨fresh, made, -, shows_of⟩ := shows_foldl_insert power fits .standard
  have shown := shows_of sampleHistory
  have standard_eq : standard = fresh := Option.some.inj made
  subst standard_eq
  refine ⟨power, fits, standard, made, ?_, ?_, ?_⟩
  · rw [shown.rules_eq]
    decide +kernel
  · rw [shown.lookup_eq]
    decide +kernel
  · rw [shown.displaced_iff]
    exact ⟨⟨⟨neighbourKey, .drop⟩, by decide +kernel, rfl⟩, by decide⟩

end RuleTable
end UdpGate
