import UdpGate.Proofs.PoolRun

/-!
# What a history of writes leaves in a table

A slot holds the rule that was written to it last (`RuleTable.rule?_foldl_insert`), so a look-up in
a table that began empty answers with the latest rule among those whose keys share the slot of the
key (`RuleTable.lookup_foldl_insert`).  The table compares no keys: a key that no rule names is
dropped if no rule was written to its slot, and shares the fate of its slot otherwise.
-/

namespace UdpGate
namespace RuleTable

/-! ## 1. Slots and look-ups -/

def latest? (table : RuleTable) (rules : List Rule) (slot : Nat) : Option Rule :=
  rules.reverse.find? fun rule => table.index rule.key = slot

-- A slot holds the rule that was written to it last, or what it held before.  By induction on the
-- writes, which change neither the hash key nor the size.
theorem rule?_foldl_insert (table : RuleTable) (rules : List Rule) (slot : Nat) :
    (rules.foldl insert table).rule? slot =
      (table.latest? rules slot).or (table.rule? slot) := by
  induction rules generalizing table with
  | nil => rfl
  | cons rule rules ih =>
    have later : (table.insert rule).latest? rules slot = table.latest? rules slot := rfl
    rw [List.foldl_cons, ih, later, rule?_insert, latest?, latest?, List.reverse_cons,
      List.find?_append, Option.or_assoc]
    by_cases here : table.index rule.key = slot
    · simp [here]
    · simp [here, Ne.symm here]

theorem index_foldl_insert (table : RuleTable) (rules : List Rule) (key : RuleKey) :
    (rules.foldl insert table).index key = table.index key := by
  induction rules generalizing table with
  | nil => rfl
  | cons rule rules ih => rw [List.foldl_cons, ih, index_insert]

theorem rule?_of_ofCapacity? {capacity : Nat} {hashKey : ToeplitzKey} {table : RuleTable}
    (h : ofCapacity? capacity hashKey = some table) (slot : Nat) : table.rule? slot = none := by
  obtain ⟨indexBits, -, rfl⟩ := Option.map_eq_some_iff.mp h
  exact rule?_empty hashKey indexBits slot

-- A table that began empty answers with the latest rule in the slot of a key, and drops if there
-- is none.
theorem lookup_foldl_insert {capacity : Nat} {hashKey : ToeplitzKey} {table : RuleTable}
    (h : ofCapacity? capacity hashKey = some table) (rules : List Rule) (key : RuleKey) :
    (rules.foldl insert table).lookup key =
      ((table.latest? rules (table.index key)).map Rule.action).getD .drop := by
  rw [lookup_eq, index_foldl_insert, rule?_foldl_insert, rule?_of_ofCapacity? h, Option.or_none]

theorem latest?_eq_none_iff {table : RuleTable} {rules : List Rule} {slot : Nat} :
    table.latest? rules slot = none ↔ ∀ rule ∈ rules, table.index rule.key ≠ slot := by
  simp [latest?]

theorem mem_of_latest? {table : RuleTable} {rules : List Rule} {slot : Nat} {rule : Rule}
    (h : table.latest? rules slot = some rule) : rule ∈ rules ∧ table.index rule.key = slot :=
  ⟨List.mem_reverse.mp (List.mem_of_find?_eq_some h), by simpa using List.find?_some h⟩

/-! ## 2. Default deny -/

/-- **Default deny.**  In a table that began empty, a key whose slot no rule was written to is
dropped.  A pool with such a table lets only those frames through whose key shares its slot with the
key of a rule that forwards. -/
theorem default_deny_of_slot {capacity : Nat} {hashKey : ToeplitzKey} {table : RuleTable}
    (h : ofCapacity? capacity hashKey = some table) (rules : List Rule) :
    (∀ key, (∀ rule ∈ rules, table.index rule.key ≠ table.index key) →
      (rules.foldl insert table).lookup key = .drop) ∧
    ∀ {pool after : Pool} {settings : GateSettings} {owners : List Bool},
      pool.Reached settings owners → pool.table.snapshot = rules.foldl insert table →
      ∀ (i : Fin owners.length) (frame : List UInt8),
      pool.filterFrame i frame = some (true, after) →
      SaysUdp frame ∧ ∃ rule ∈ rules, rule.action = .forward ∧
        table.index rule.key = table.index (settings.endpoint.keyOf frame) := by
  constructor
  · intro key untouched
    rw [lookup_foldl_insert h, latest?_eq_none_iff.mpr untouched]
    rfl
  · intro pool after settings owners reached holds i frame accepted
    obtain ⟨_, filtered⟩ := reached.verdict i frame
    rw [filtered, Option.some.injEq, Prod.mk.injEq, decide_eq_true_eq, holds] at accepted
    obtain ⟨-, -, udp, forwards⟩ := accepted.1
    rw [lookup_foldl_insert h] at forwards
    cases found : table.latest? rules (table.index (settings.endpoint.keyOf frame)) with
    | none =>
      rw [found] at forwards
      cases forwards
    | some rule =>
      rw [found] at forwards
      obtain ⟨written, shares⟩ := mem_of_latest? found
      exact ⟨udp, rule, written, forwards, shares⟩

-- A key in the slot of the sample key, and the standard table with a rule about it only.
def neighbourKey : RuleKey := ⟨⟨0x0A000025⟩, 9000⟩

def neighbourTable : RuleTable := [⟨neighbourKey, .forward⟩].foldl insert standard

theorem default_deny_of_slot_neighbour :
    ofCapacity? 32 .standard = some standard ∧
      (∀ rule ∈ [Rule.mk neighbourKey .forward],
        standard.index rule.key ≠ standard.index ⟨⟨0x0A000006⟩, 9000⟩) ∧
      neighbourTable.lookup ⟨⟨0x0A000006⟩, 9000⟩ = .drop ∧
      ∃ after, (Pool.start {} neighbourTable [true]).filterFrame 0 Lane.sampleFrame =
          some (true, after) ∧
        standard.index neighbourKey = standard.index Lane.sampleKey := by
  have fits : ofCapacity? 32 .standard = some standard := rfl
  have untouched : ∀ rule ∈ [Rule.mk neighbourKey .forward],
      standard.index rule.key ≠ standard.index ⟨⟨0x0A000006⟩, 9000⟩ := by decide +kernel
  have deny := default_deny_of_slot fits [⟨neighbourKey, .forward⟩]
  have reached := Pool.reached_start {} neighbourTable [true]
  have admits : GateSettings.AdmitsFrame {} neighbourTable Lane.sampleFrame := by decide +kernel
  obtain ⟨after, filtered⟩ := reached.verdict 0 Lane.sampleFrame
  have accepted : (Pool.start {} neighbourTable [true]).filterFrame 0 Lane.sampleFrame =
      some (true, after) := filtered.trans (by rw [decide_eq_true]; exact admits)
  obtain ⟨-, rule, written, -, shares⟩ := deny.2 reached rfl 0 Lane.sampleFrame accepted
  rw [List.mem_singleton.mp written] at shares
  have key : Endpoint.keyOf .destination Lane.sampleFrame = Lane.sampleKey := by decide
  exact ⟨fits, untouched, deny.1 _ untouched, after, accepted, shares.trans (congrArg _ key)⟩

-- A key that no rule names may be forwarded, namely by a rule about another key in its slot.
theorem lookup_of_unnamed_key_forwards :
    ¬ ∀ (capacity : Nat) (table : RuleTable) (rules : List Rule) (key : RuleKey),
      ofCapacity? capacity .standard = some table →
        (∀ rule ∈ rules, rule.key ≠ key) → (rules.foldl insert table).lookup key = .drop := by
  intro deny
  have dropped := deny 32 standard [⟨neighbourKey, .forward⟩] Lane.sampleKey rfl (by decide)
  revert dropped
  decide +kernel

end RuleTable
end UdpGate
