import UdpGate.Toeplitz

/-!
# Rule tables

A table has a power of two of slots, and the low bits of an endpoint's hash choose its slot.  A
slot holds the action that was written to it last; its owner, the key of that write, is kept beside
it and not compared on a look-up, so endpoints that share a slot share its action.  A slot that was
never written drops.
-/

namespace UdpGate

/-- A hash key, and an action and an owner for each value of the index bits. -/
structure RuleTable where
  hashKey : ToeplitzKey
  indexBits : Fin 32
  actions : Vector Action (Nat.pow 2 indexBits.val)
  owners : Vector (Option RuleKey) (Nat.pow 2 indexBits.val)
  drops_unowned : ∀ (i : Nat) (_ : i < Nat.pow 2 indexBits.val),
    owners[i] = none → actions[i] = .drop

namespace RuleTable

/-! ## 1. Sizes -/

def standardCapacity : Nat := 32

/-- The index bits of a table of `capacity` slots: the capacity must be a power of two below
2 ^ 32. -/
def indexBits? (capacity : Nat) : Option (Fin 32) :=
  if h : capacity.log2 < 32 then
    if Nat.pow 2 capacity.log2 = capacity then some ⟨capacity.log2, h⟩ else none
  else none

def empty (hashKey : ToeplitzKey) (indexBits : Fin 32) : RuleTable where
  hashKey := hashKey
  indexBits := indexBits
  actions := Vector.replicate _ .drop
  owners := Vector.replicate _ none
  drops_unowned _ inside _ := Vector.getElem_replicate inside

def ofCapacity? (capacity : Nat) (hashKey : ToeplitzKey) : Option RuleTable :=
  (indexBits? capacity).map (empty hashKey)

def standard : RuleTable := empty .standard 5

instance : Inhabited RuleTable := ⟨standard⟩

def capacity (table : RuleTable) : Nat := Nat.pow 2 table.indexBits.val

/-! ## 2. Slots -/

def hash (table : RuleTable) (key : RuleKey) : BitVec 32 := table.hashKey.hash key

def slotOf (hashKey : ToeplitzKey) (indexBits : Fin 32) (key : RuleKey) : Nat :=
  (hashKey.hash key).toNat % Nat.pow 2 indexBits.val

def index (table : RuleTable) (key : RuleKey) : Nat := slotOf table.hashKey table.indexBits key

theorem index_lt (table : RuleTable) (key : RuleKey) :
    table.index key < Nat.pow 2 table.indexBits.val :=
  Nat.mod_lt _ (Nat.two_pow_pos _)

def owner? (table : RuleTable) (i : Nat) : Option RuleKey := table.owners[i]?.join

def rule? (table : RuleTable) (i : Nat) : Option Rule := do
  let key ← table.owner? i
  let action ← table.actions[i]?
  return ⟨key, action⟩

/-- The action of a key: that of its slot, whatever key owns the slot. -/
def lookup (table : RuleTable) (key : RuleKey) : Action :=
  table.actions.get ⟨table.index key, table.index_lt key⟩

/-- Writes a rule to its slot: the action and the owner change together. -/
def insert (table : RuleTable) (rule : Rule) : RuleTable :=
  { table with
    actions := table.actions.set (table.index rule.key) rule.action (table.index_lt rule.key)
    owners := table.owners.set (table.index rule.key) (some rule.key) (table.index_lt rule.key)
    drops_unowned := by
      intro i inside unowned
      rw [Vector.getElem_set] at unowned ⊢
      by_cases here : table.index rule.key = i
      · rw [if_pos here] at unowned
        cases unowned
      · rw [if_neg here] at unowned ⊢
        exact table.drops_unowned i inside unowned }

def displacedBy? (table : RuleTable) (key : RuleKey) : Option RuleKey :=
  (table.owner? (table.index key)).filter (· ≠ key)

def rules (table : RuleTable) : List Rule :=
  (table.owners.toList.zip table.actions.toList).filterMap fun (owner, action) =>
    owner.map fun key => ⟨key, action⟩

/-! ## 3. Writing through the view of slots -/

@[simp] theorem hashKey_insert (table : RuleTable) (rule : Rule) :
    (table.insert rule).hashKey = table.hashKey := rfl

@[simp] theorem capacity_insert (table : RuleTable) (rule : Rule) :
    (table.insert rule).capacity = table.capacity := rfl

@[simp] theorem index_insert (table : RuleTable) (rule : Rule) (key : RuleKey) :
    (table.insert rule).index key = table.index key := rfl

-- The two arrays of a table are as long as each other, so they show one rule a slot.
theorem rule?_of_lt (table : RuleTable) {i : Nat} (h : i < Nat.pow 2 table.indexBits.val) :
    table.rule? i = table.owners[i].map fun key => ⟨key, table.actions[i]⟩ := by
  rw [rule?, owner?, Vector.getElem?_eq_getElem h, Vector.getElem?_eq_getElem h]
  cases table.owners[i] <;> rfl

theorem rule?_of_le (table : RuleTable) {i : Nat} (h : Nat.pow 2 table.indexBits.val ≤ i) :
    table.rule? i = none := by
  rw [rule?, owner?, Vector.getElem?_eq_none h]
  rfl

theorem owner?_eq (table : RuleTable) (i : Nat) :
    table.owner? i = (table.rule? i).map Rule.key := by
  by_cases inside : i < Nat.pow 2 table.indexBits.val
  · rw [table.rule?_of_lt inside, owner?, Vector.getElem?_eq_getElem inside, Option.map_map]
    cases table.owners[i] <;> rfl
  · rw [table.rule?_of_le (Nat.le_of_not_lt inside), owner?,
      Vector.getElem?_eq_none (Nat.le_of_not_lt inside)]
    rfl

theorem lookup_eq (table : RuleTable) (key : RuleKey) :
    table.lookup key = ((table.rule? (table.index key)).map Rule.action).getD .drop := by
  have inside := table.index_lt key
  rw [table.rule?_of_lt inside]
  show table.actions[table.index key] = _
  cases owner : table.owners[table.index key] with
  | none => exact table.drops_unowned _ inside owner
  | some key => rfl

theorem rule?_insert (table : RuleTable) (rule : Rule) (i : Nat) :
    (table.insert rule).rule? i = if i = table.index rule.key then some rule else table.rule? i := by
  by_cases inside : i < Nat.pow 2 table.indexBits.val
  · rw [(table.insert rule).rule?_of_lt inside, table.rule?_of_lt inside]
    show ((table.owners.set _ _ (table.index_lt rule.key))[i]).map (fun key =>
      Rule.mk key (table.actions.set _ _ (table.index_lt rule.key))[i]) = _
    rw [Vector.getElem_set, Vector.getElem_set]
    by_cases here : table.index rule.key = i
    · rw [if_pos here, if_pos here, if_pos here.symm]
      rfl
    · rw [if_neg here, if_neg here, if_neg (Ne.symm here)]
  · have outside := Nat.le_of_not_lt inside
    have other : i ≠ table.index rule.key := by
      have := table.index_lt rule.key
      omega
    rw [(table.insert rule).rule?_of_le outside, table.rule?_of_le outside, if_neg other]

@[simp] theorem rule?_empty (hashKey : ToeplitzKey) (indexBits : Fin 32) (i : Nat) :
    (empty hashKey indexBits).rule? i = none := by
  have unowned : (empty hashKey indexBits).owner? i = none := by
    show (Vector.replicate (Nat.pow 2 indexBits.val) (none : Option RuleKey))[i]?.join = none
    rw [Vector.getElem?_replicate]
    split <;> rfl
  rw [rule?, unowned]
  rfl

end RuleTable
end UdpGate
