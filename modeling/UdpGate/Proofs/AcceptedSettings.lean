import UdpGate.Launch
import UdpGate.Proofs.SlotStore

/-!
# Settings that a run starts with

Settings are accepted with any power of two for the capacity, but a table has fewer than `2 ^ 32`
slots.  So a run can fail with accepted settings although its host provides all that it needs; that
capacity is the only reason (`Request.start_of_accepted`).
-/

namespace UdpGate

/-! ## 1. Capacities -/

theorem isPowerOfTwo_iff {n : Nat} : isPowerOfTwo n ↔ n.isPowerOfTwo := by
  unfold isPowerOfTwo
  rw [decide_eq_true_iff]
  constructor
  · intro power
    exact ⟨n.log2, power.symm⟩
  · rintro ⟨bits, rfl⟩
    exact congrArg (Nat.pow 2) Nat.log2_two_pow

theorem Settings.validate_eq_ok_iff (settings : Settings) :
    settings.validate = .ok () ↔ 0 < settings.workers ∧ settings.capacity.isPowerOfTwo := by
  unfold Settings.validate
  rw [← isPowerOfTwo_iff, Nat.pos_iff_ne_zero]
  by_cases noWorkers : settings.workers = 0
  · simp [noWorkers]
  · by_cases power : isPowerOfTwo settings.capacity
    · simp [noWorkers, power]
    · simp [noWorkers, power]

theorem isSome_indexBits?_iff {capacity : Nat} :
    (RuleTable.indexBits? capacity).isSome ↔ capacity.isPowerOfTwo ∧ capacity < UInt32.size := by
  rw [Option.isSome_iff_exists]
  constructor
  · rintro ⟨bits, found⟩
    rw [RuleTable.indexBits?_eq_some_iff] at found
    rw [found]
    exact ⟨⟨bits, rfl⟩, Nat.pow_lt_pow_right (by decide) bits.isLt⟩
  · rintro ⟨⟨bits, rfl⟩, fits⟩
    have small : bits < 32 := (Nat.pow_lt_pow_iff_right (by decide)).mp fits
    exact ⟨⟨bits, small⟩, RuleTable.indexBits?_eq_some_iff.mpr rfl⟩

theorem indexBitsSetting_of_fits {capacity : Nat} (power : capacity.isPowerOfTwo)
    (fits : capacity < UInt32.size) : ∃ bits, indexBitsSetting capacity = .ok bits := by
  obtain ⟨bits, found⟩ := Option.isSome_iff_exists.mp (isSome_indexBits?_iff.mpr ⟨power, fits⟩)
  exact ⟨bits, by rw [indexBitsSetting, found]⟩

theorem indexBitsSetting_of_le {capacity : Nat} (large : UInt32.size ≤ capacity) :
    indexBitsSetting capacity = .error (.capacity capacity) := by
  have missing : RuleTable.indexBits? capacity = none := by
    rw [← Option.not_isSome_iff_eq_none, isSome_indexBits?_iff]
    exact fun both => absurd both.2 (Nat.not_lt_of_le large)
  rw [indexBitsSetting, missing]

theorem exists_tableSetting_iff {capacity : Nat} :
    (∃ table, tableSetting capacity = .ok table) ↔
      capacity.isPowerOfTwo ∧ capacity < UInt32.size := by
  rw [← isSome_indexBits?_iff, tableSetting, indexBitsSetting]
  cases RuleTable.indexBits? capacity with
  | none => simp [Except.map]
  | some bits => simp [Except.map]

/-! ## 2. What a run asks of its host -/

/-- Whether a host does what is asked of it before the first queue is opened: it installs the signal
handlers, has memory for the slots of the table and for the handles of the workers, and starts the
thread of the first worker. -/
structure Host.Provides (host : Host) (settings : Settings) : Prop where
  handlers : ∀ signal, host.installHandler signal = none
  actions_lt : settings.capacity * host.actionSize < blockBound
  actions : host.hasBlock [] (settings.capacity * host.actionSize)
  owners_lt : settings.capacity * host.ownerSize < blockBound
  owners : host.hasBlock [settings.capacity * host.actionSize] (settings.capacity * host.ownerSize)
  handles_lt : settings.workers * host.handleSize < blockBound
  handles : host.hasBlock [settings.capacity * host.ownerSize, settings.capacity * host.actionSize]
    (settings.workers * host.handleSize)
  thread : host.spawnThread 0 = none

namespace Host

variable {host : Host} {held blocks : List Nat} {count size : Nat}

theorem takeBlock_eq_ok_iff :
    host.takeBlock held count size = .ok blocks ↔
      blocks = count * size :: held ∧ count * size < blockBound ∧
        host.hasBlock held (count * size) := by
  unfold takeBlock
  by_cases large : blockBound ≤ count * size
  · rw [if_pos large]
    exact iff_of_false nofun fun all => absurd all.2.1 (Nat.not_lt_of_le large)
  · rw [if_neg large]
    by_cases memory : host.hasBlock held (count * size)
    · rw [if_pos memory]
      constructor
      · intro taken
        exact ⟨(Except.ok.inj taken).symm, Nat.lt_of_not_le large, memory⟩
      · rintro ⟨rfl, -⟩
        rfl
    · rw [if_neg memory]
      exact iff_of_false nofun fun all => memory all.2.2

theorem takeSlots_eq_ok_iff {capacity : Nat} :
    host.takeSlots capacity = .ok blocks ↔
      blocks = [capacity * host.ownerSize, capacity * host.actionSize] ∧
        (capacity * host.actionSize < blockBound ∧
          host.hasBlock [] (capacity * host.actionSize)) ∧
        capacity * host.ownerSize < blockBound ∧
          host.hasBlock [capacity * host.actionSize] (capacity * host.ownerSize) := by
  constructor
  · intro taken
    obtain ⟨first, took_actions, took_owners⟩ := exists_of_bind_eq_ok taken
    obtain ⟨rfl, actions⟩ := takeBlock_eq_ok_iff.mp took_actions
    obtain ⟨rfl, owners⟩ := takeBlock_eq_ok_iff.mp took_owners
    exact ⟨rfl, actions, owners⟩
  · rintro ⟨rfl, actions, owners⟩
    rw [takeSlots, takeBlock_eq_ok_iff.mpr ⟨rfl, actions⟩]
    exact takeBlock_eq_ok_iff.mpr ⟨rfl, owners⟩

theorem installHandlers_eq_ok_iff :
    host.installHandlers = .ok () ↔ ∀ signal, host.installHandler signal = none := by
  unfold installHandlers
  cases interrupt : host.installHandler .interrupt with
  | some reason =>
    refine iff_of_false ?_ fun all => ?_
    · simp [interrupt, bind, Except.bind]
    · rw [all] at interrupt
      cases interrupt
  | none =>
    cases terminate : host.installHandler .terminate with
    | some reason =>
      refine iff_of_false ?_ fun all => ?_
      · simp [interrupt, terminate, bind, Except.bind]
      · rw [all] at terminate
        cases terminate
    | none =>
      refine iff_of_true ?_ fun signal => ?_
      · simp [interrupt, terminate, bind, Except.bind, pure, Except.pure]
      · cases signal
        · exact interrupt
        · exact terminate

theorem le_of_spawnThreads_eq_error {first : Nat} {fault : LaunchFault}
    (refused : host.spawnThreads first count = .error fault) :
    ∃ worker reason, fault = .thread worker reason ∧ first ≤ worker := by
  induction count generalizing first with
  | zero => cases refused
  | succ count ih =>
    unfold spawnThreads at refused
    split at refused
    · cases refused
      exact ⟨first, _, rfl, Nat.le_refl first⟩
    · obtain ⟨worker, reason, rfl, later⟩ := ih refused
      exact ⟨worker, reason, rfl, Nat.le_of_succ_le later⟩

theorem exists_of_openQueues_eq_error {base : UInt16} {first : Nat} {fault : LaunchFault}
    (refused : host.openQueues base first count = .error fault) :
    ∃ number reason, fault = .queue number reason := by
  induction count generalizing first with
  | zero => cases refused
  | succ count ih =>
    simp only [openQueues] at refused
    split at refused
    · cases refused
      exact ⟨_, _, rfl⟩
    · cases behind : host.openQueues base (first + 1) count with
      | error other =>
        rw [behind] at refused
        cases refused
        exact ih behind
      | ok queues =>
        rw [behind] at refused
        cases refused

end Host

/-! ## 3. From settings to queues -/

/-- Whether a queue was tried before a run failed: the thread of each worker tries one. -/
def StartFailure.hasTriedQueue : StartFailure → Bool
  | .workers (.queue _ _) => true
  | .workers (.thread worker _) => worker ≠ 0
  | _ => false

def ReachesQueues {α : Type} (outcome : Except StartFailure α) : Prop :=
  ∀ failure, outcome = .error failure → failure.hasTriedQueue

theorem reachesQueues_map_iff {ε α β : Type} {step : Except ε α} {wrap : ε → StartFailure}
    (f : α → β) :
    ReachesQueues (step.mapError wrap >>= fun value => .ok (f value)) ↔
      ∀ fault, step = .error fault → (wrap fault).hasTriedQueue := by
  cases step with
  | error fault =>
    constructor
    · rintro reaches _ ⟨⟩
      exact reaches (wrap fault) rfl
    · rintro tried _ ⟨⟩
      exact tried fault rfl
  | ok value => exact iff_of_true nofun nofun

theorem reachesQueues_bind_iff {ε α β : Type} {step : Except ε α} {wrap : ε → StartFailure}
    {next : α → Except StartFailure β} (early : ∀ fault, (wrap fault).hasTriedQueue = false) :
    ReachesQueues (step.mapError wrap >>= next) ↔
      ∃ value, step = .ok value ∧ ReachesQueues (next value) := by
  cases step with
  | error fault =>
    refine iff_of_false (fun reaches => ?_) nofun
    have tried := reaches (wrap fault) rfl
    rw [early fault] at tried
    cases tried
  | ok value =>
    constructor
    · intro reaches
      exact ⟨value, rfl, reaches⟩
    · rintro ⟨_, same, reaches⟩
      cases same
      exact reaches

theorem hasTriedQueue_of_started {host : Host} {base : UInt16} {count : Nat} {fault : LaunchFault}
    (thread : host.spawnThread 0 = none)
    (refused : (host.spawnThreads 0 (count + 1) >>= fun _ => host.openQueues base 0 (count + 1)) =
      .error fault) : (StartFailure.workers fault).hasTriedQueue := by
  have first : host.spawnThreads 0 (count + 1) = host.spawnThreads 1 count := by
    rw [Host.spawnThreads, thread]
  rw [first] at refused
  cases threads : host.spawnThreads 1 count with
  | error other =>
    rw [threads] at refused
    cases refused
    obtain ⟨worker, reason, rfl, later⟩ := Host.le_of_spawnThreads_eq_error threads
    exact decide_eq_true (Nat.ne_of_gt later)
  | ok =>
    rw [threads] at refused
    obtain ⟨number, reason, rfl⟩ := Host.exists_of_openQueues_eq_error refused
    rfl

theorem reachesQueues_spawnWorkers_iff {α : Type} {host : Host} {held : List Nat} {workers : Nat}
    (worker : 0 < workers) (base : UInt16) (started : List UInt16 → α) :
    ReachesQueues ((host.spawnWorkers held base workers).mapError .workers >>= fun queues =>
      .ok (started queues)) ↔
        (workers * host.handleSize < blockBound ∧ host.hasBlock held (workers * host.handleSize)) ∧
          host.spawnThread 0 = none := by
  obtain ⟨count, rfl⟩ := Nat.exists_eq_add_one.mpr worker
  rw [reachesQueues_map_iff, Host.spawnWorkers]
  cases taken : host.takeBlock held (count + 1) host.handleSize with
  | error fault =>
    refine iff_of_false (fun tried => ?_) fun all => ?_
    · cases tried (.handles fault) rfl
    · rw [Host.takeBlock_eq_ok_iff.mpr ⟨rfl, all.1⟩] at taken
      cases taken
  | ok blocks =>
    rw [and_iff_right (Host.takeBlock_eq_ok_iff.mp taken).2]
    cases thread : host.spawnThread 0 with
    | some reason =>
      have first : host.spawnThreads 0 (count + 1) = .error (.thread 0 reason) := by
        rw [Host.spawnThreads, thread]
      refine iff_of_false (fun tried => ?_) nofun
      rw [first] at tried
      cases tried (.thread 0 reason) rfl
    | none => exact iff_of_true (fun fault refused => hasTriedQueue_of_started thread refused) rfl

theorem Request.reachesQueues_start_iff {request : Request} {settings : Settings}
    (accepted : request.settings = .ok settings) (host : Host) :
    ReachesQueues (request.start host) ↔
      settings.capacity < UInt32.size ∧ host.Provides settings := by
  obtain ⟨worker, power⟩ := settings.validate_eq_ok_iff.mp (Request.validate_of_settings accepted)
  unfold start
  rw [accepted]
  constructor
  · intro reaches
    obtain ⟨_, same, reaches⟩ := (reachesQueues_bind_iff fun _ => rfl).mp reaches
    cases same
    obtain ⟨_, handlers, reaches⟩ := (reachesQueues_bind_iff fun _ => rfl).mp reaches
    obtain ⟨_, made, reaches⟩ := (reachesQueues_bind_iff fun _ => rfl).mp reaches
    obtain ⟨held, took, reaches⟩ := (reachesQueues_bind_iff fun _ => rfl).mp reaches
    obtain ⟨handles, thread⟩ := (reachesQueues_spawnWorkers_iff worker _ _).mp reaches
    obtain ⟨rfl, actions, owners⟩ := Host.takeSlots_eq_ok_iff.mp took
    refine ⟨Nat.lt_of_not_le fun large => ?_, Host.installHandlers_eq_ok_iff.mp handlers, actions.1,
      actions.2, owners.1, owners.2, handles.1, handles.2, thread⟩
    rw [indexBitsSetting_of_le large] at made
    cases made
  · rintro ⟨fits, provides⟩
    obtain ⟨bits, made⟩ := indexBitsSetting_of_fits power fits
    have handlers := Host.installHandlers_eq_ok_iff.mpr provides.handlers
    have slots := Host.takeSlots_eq_ok_iff.mpr
      ⟨rfl, ⟨provides.actions_lt, provides.actions⟩, provides.owners_lt, provides.owners⟩
    have workers := (reachesQueues_spawnWorkers_iff worker settings.queueBase
      (Prod.mk settings)).mpr ⟨⟨provides.handles_lt, provides.handles⟩, provides.thread⟩
    refine (reachesQueues_bind_iff fun _ => rfl).mpr ⟨settings, rfl, ?_⟩
    refine (reachesQueues_bind_iff fun _ => rfl).mpr ⟨(), handlers, ?_⟩
    refine (reachesQueues_bind_iff fun _ => rfl).mpr ⟨bits, made, ?_⟩
    exact (reachesQueues_bind_iff fun _ => rfl).mpr ⟨_, slots, workers⟩

theorem Request.start_of_large_capacity {request : Request} {settings : Settings} {host : Host}
    (accepted : request.settings = .ok settings) (large : UInt32.size ≤ settings.capacity)
    (handlers : ∀ signal, host.installHandler signal = none) :
    request.start host = .error (.table (.capacity settings.capacity)) := by
  rw [start, accepted, Host.installHandlers_eq_ok_iff.mpr handlers]
  show (Except.mapError StartFailure.table (indexBitsSetting settings.capacity) >>= _) = _
  rw [indexBitsSetting_of_le large]
  rfl

/-- **Accepted settings.**  Given a worker, settings are accepted exactly if a table has their
capacity, unless it is a power of two from `2 ^ 32` on.  A run with accepted settings comes as far as
its queues exactly if the capacity is below that and its host provides what it needs. -/
theorem Request.start_of_accepted (settings : Settings) :
    (0 < settings.workers →
      ((settings.validate = .ok () ↔ ∃ table, tableSetting settings.capacity = .ok table) ↔
        ¬ (settings.capacity.isPowerOfTwo ∧ UInt32.size ≤ settings.capacity))) ∧
    ∀ (host : Host) (request : Request), request.settings = .ok settings →
      ((∃ table, tableSetting settings.capacity = .ok table) ↔
        settings.capacity < UInt32.size) ∧
      (UInt32.size ≤ settings.capacity → (∀ signal, host.installHandler signal = none) →
        request.start host = .error (.table (.capacity settings.capacity))) ∧
      (ReachesQueues (request.start host) ↔
        settings.capacity < UInt32.size ∧ host.Provides settings) := by
  constructor
  · intro worker
    rw [Settings.validate_eq_ok_iff, exists_tableSetting_iff, and_iff_right worker, iff_self_and,
      not_and, Nat.not_le]
  · intro host request accepted
    have power := (settings.validate_eq_ok_iff.mp (Request.validate_of_settings accepted)).2
    refine ⟨?_, Request.start_of_large_capacity accepted,
      Request.reachesQueues_start_iff accepted host⟩
    rw [exists_tableSetting_iff, and_iff_right power]

-- The greatest capacity that a table has, and three workers, whose queues then stay shut.
theorem Request.start_of_accepted_greatest :
    Request.settings { workers := 3, tableCapacity := 2147483648 } =
        .ok { workers := 3, capacity := 2147483648 } ∧
      (∃ table, tableSetting 2147483648 = .ok table) ∧
      Host.Provides .withoutQueues { workers := 3, capacity := 2147483648 } ∧
      ReachesQueues (Request.start { workers := 3, tableCapacity := 2147483648 } .withoutQueues) := by
  have accepted : Request.settings { workers := 3, tableCapacity := 2147483648 } =
      .ok { workers := 3, capacity := 2147483648 } := by rfl
  have provides : Host.Provides .withoutQueues { workers := 3, capacity := 2147483648 } := by
    constructor <;> first | decide | exact fun _ => rfl
  obtain ⟨table, -, queues⟩ := (start_of_accepted _).2 .withoutQueues _ accepted
  exact ⟨accepted, table.mpr (by decide), provides, queues.mpr ⟨by decide, provides⟩⟩

-- The settings are accepted and no table has their capacity.
theorem accepted_capacity_refused :
    ∃ settings, Request.settings { tableCapacity := 4294967296 } = .ok settings ∧
      settings.validate = .ok () ∧
      tableSetting settings.capacity = .error (.capacity 4294967296) ∧
      Request.start { tableCapacity := 4294967296 } .withoutQueues =
        .error (.table (.capacity 4294967296)) :=
  ⟨{ capacity := 4294967296 }, by rfl, by rfl, by rfl, by rfl⟩

end UdpGate
