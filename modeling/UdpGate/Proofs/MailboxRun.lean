import Mathlib.Data.List.DropRight
import UdpGate.Proofs.FrameVerdict

/-!
# What passes through the mailbox

The control side writes words to the registers while an engine steps and drains.  The history of
these calls alone says which rule a step finds, and when: the rule is read off the words written up
to the latest commit (`stagedBy`, `upToCommit`), and it waits while there are commits behind the
last rule that was applied (`Engine.waiting`).  `Engine.Follows` is what every call keeps, and
`Engine.run_fresh_registers` says where an engine stands behind any run of calls.
-/

namespace UdpGate

/-! ## 1. Words that were written -/

structure WordWrite where
  offset : UInt32
  value : UInt32
deriving DecidableEq

def WordWrite.commits (write : WordWrite) : Bool := write.offset == actionOffset

def lastWritten (offset : UInt32) (writes : List WordWrite) : UInt32 :=
  (writes.reverse.find? (·.offset == offset)).elim 0 WordWrite.value

def stagedBy (writes : List WordWrite) : StagedRule where
  address := lastWritten addressOffset writes
  port := (lastWritten portOffset writes).toUInt16
  code := (lastWritten actionOffset writes).toUInt8

/-- The writes up to the latest commit; none if there is no commit. -/
def upToCommit (writes : List WordWrite) : List WordWrite :=
  writes.rdropWhile (!·.commits)

def commitCount (writes : List WordWrite) : Nat := writes.countP WordWrite.commits

theorem lastWritten_concat (offset : UInt32) (writes : List WordWrite) (write : WordWrite) :
    lastWritten offset (writes ++ [write]) =
      if write.offset = offset then write.value else lastWritten offset writes := by
  rw [lastWritten, List.reverse_concat]
  by_cases here : write.offset = offset
  · rw [if_pos here, List.find?_cons_of_pos (by simp [here])]
    rfl
  · rw [if_neg here, List.find?_cons_of_neg (by simp [here])]
    rfl

-- Each register has an offset of its own, so a write changes one part of the staged triple or none.
theorem stagedBy_concat (writes : List WordWrite) (offset value : UInt32) :
    stagedBy (writes ++ [⟨offset, value⟩]) =
      if offset = addressOffset then { stagedBy writes with address := value }
      else if offset = portOffset then { stagedBy writes with port := value.toUInt16 }
      else if offset = actionOffset then { stagedBy writes with code := value.toUInt8 }
      else stagedBy writes := by
  have address_port : addressOffset ≠ portOffset := by decide
  have address_action : addressOffset ≠ actionOffset := by decide
  have port_action : portOffset ≠ actionOffset := by decide
  simp only [stagedBy, lastWritten_concat]
  by_cases address : offset = addressOffset
  · simp [address, address_port, address_action]
  · by_cases port : offset = portOffset
    · simp [port, address_port.symm, port_action]
    · by_cases action : offset = actionOffset
      · simp [action, address_action.symm, port_action.symm]
      · simp [address, port, action]

theorem upToCommit_concat (writes : List WordWrite) (write : WordWrite) :
    upToCommit (writes ++ [write]) =
      if write.commits then writes ++ [write] else upToCommit writes := by
  rw [upToCommit, List.rdropWhile_concat, upToCommit]
  cases write.commits <;> rfl

theorem commitCount_append (writes later : List WordWrite) :
    commitCount (writes ++ later) = commitCount writes + commitCount later := List.countP_append

/-! ## 2. What the mailbox keeps of them -/

/-- The mailbox holds the words as they were written last, and the latest commit. -/
structure Mailbox.Holds (box : Mailbox) (writes : List WordWrite) : Prop where
  staged : box.staged = stagedBy writes
  committed : box.committed = stagedBy (upToCommit writes)
  commits : box.commits = UInt64.ofNat (commitCount writes)

theorem Mailbox.holds_fresh : Mailbox.Holds {} [] := ⟨rfl, rfl, rfl⟩

variable {console : Console} {writes : List WordWrite}

-- A write that does not commit leaves the latest commit where it is.
theorem Mailbox.Holds.stage {box changed : Mailbox} (h : box.Holds writes) {write : WordWrite}
    (quiet : write.commits = false) (staged : changed.staged = stagedBy (writes ++ [write]))
    (captured : changed.captured = box.captured) (commits : changed.commits = box.commits) :
    changed.Holds (writes ++ [write]) where
  staged := staged
  committed := by
    rw [upToCommit_concat, quiet, Mailbox.committed, captured]
    exact h.committed
  commits := by
    have none_more : commitCount [write] = 0 := by
      rw [commitCount, List.countP_singleton, quiet]
      rfl
    rw [commitCount_append, none_more, commits]
    exact h.commits

-- The write that commits stages its code first, so the commit is the triple behind that write.
theorem Mailbox.Holds.commitCode {box : Mailbox} (h : box.Holds writes) (value : UInt32) :
    (box.commitCode value.toUInt8).Holds (writes ++ [⟨actionOffset, value⟩]) := by
  have staged : { box.staged with code := value.toUInt8 } =
      stagedBy (writes ++ [⟨actionOffset, value⟩]) := by
    rw [h.staged, stagedBy_concat]
    rfl
  exact {
    staged := staged
    committed := by
      rw [upToCommit_concat]
      exact (StagedRule.unpack_pack _).trans staged
    commits := by
      rw [commitCount_append, UInt64.ofNat_add, ← h.commits]
      rfl }

theorem Mailbox.Holds.write (h : console.mailbox.Holds writes) (offset value : UInt32) :
    (console.write offset value).mailbox.Holds (writes ++ [⟨offset, value⟩]) := by
  have staged := stagedBy_concat writes offset value
  rw [← h.staged] at staged
  unfold Console.write
  by_cases address : offset = addressOffset
  · rw [if_pos address] at staged ⊢
    exact h.stage (by rw [address]; rfl) staged.symm rfl rfl
  by_cases port : offset = portOffset
  · rw [if_neg address, if_pos port] at staged ⊢
    exact h.stage (by rw [port]; rfl) staged.symm rfl rfl
  by_cases action : offset = actionOffset
  · rw [if_neg address, if_neg port, if_pos action, action]
    exact h.commitCode value
  · rw [if_neg address, if_neg port, if_neg action] at staged ⊢
    exact h.stage (beq_false_of_ne action) staged.symm rfl rfl

theorem Console.applied_write (console : Console) (offset value : UInt32) :
    (console.write offset value).mailbox.applied = console.mailbox.applied := by
  unfold Console.write
  split_ifs <;> rfl

/-! ## 3. Calls and their history -/

namespace Engine

/-- A call to an engine: a word written to its registers, or a step or a drain with a feed and an
outlet of any kind. -/
inductive Call : Type 1 where
  | write (word : WordWrite)
  | step {φ ω : Type} [Feed φ] [Outlet ω] (feed : φ) (outlet : ω)
  | drain {φ ω : Type} [Feed φ] [Outlet ω] (feed : φ) (outlet : ω)

inductive Record where
  | wrote (word : WordWrite)
  | stepped (outcome : StepOutcome)
  | drained (count : Nat)
deriving DecidableEq

def answer (engine : Engine) : Call → Record × Engine
  | .write word => (.wrote word, engine.withConsole (engine.console.write word.offset word.value))
  | @Call.step _ _ _ _ feed outlet =>
    let (outcome, after, _) := engine.step feed outlet
    (.stepped outcome, after)
  | @Call.drain _ _ _ _ feed outlet =>
    let (count, after, _) := engine.drain feed outlet
    (.drained count, after)

def run (engine : Engine) : List Call → List Record × Engine
  | [] => ([], engine)
  | call :: calls =>
    let (record, after) := engine.answer call
    let (records, last) := after.run calls
    (record :: records, last)

def Call.write? : Call → Option WordWrite
  | .write word => some word
  | @step _ _ _ _ _ _ => none
  | @drain _ _ _ _ _ _ => none

def Record.write? : Record → Option WordWrite
  | .wrote word => some word
  | .stepped _ => none
  | .drained _ => none

def Record.applied? : Record → Option PendingRule
  | .stepped (.ruleApplied pending) => some pending
  | _ => none

def written (history : List Record) : List WordWrite := history.filterMap Record.write?

def appliedRules (history : List Record) : List Rule :=
  (history.filterMap Record.applied?).map PendingRule.rule

/-- How many commits there are behind the last rule that was applied. -/
def waiting (history : List Record) : Nat :=
  commitCount (written (history.rtakeWhile (·.applied?.isNone)))

theorem written_concat (history : List Record) (record : Record) :
    written (history ++ [record]) = written history ++ record.write?.toList := by
  rw [written, List.filterMap_append, written]
  cases record <;> rfl

theorem appliedRules_concat (history : List Record) (record : Record) :
    appliedRules (history ++ [record]) =
      appliedRules history ++ (record.applied?.map PendingRule.rule).toList := by
  rw [appliedRules, List.filterMap_append, List.map_append, appliedRules, List.filterMap_cons]
  cases record.applied? <;> rfl

theorem waiting_concat (history : List Record) (record : Record) :
    waiting (history ++ [record]) =
      if record.applied?.isNone then waiting history + commitCount record.write?.toList else 0 := by
  rw [waiting, List.rtakeWhile_concat]
  split
  · rw [written_concat, commitCount_append, waiting]
  · rfl

-- The commits behind the last application are among all commits.
theorem waiting_le (history : List Record) : waiting history ≤ commitCount (written history) :=
  ((List.rtakeWhile_suffix _ history).sublist.filterMap Record.write?).countP_le

/-! ## 4. One call -/

/-- An engine stands where the history of its calls puts it: its mailbox holds what was written, the
number that it applied last leaves out just the commits that wait, and its table has the rules that
were applied. -/
structure Follows (engine : Engine) (table : RuleTable) (history : List Record) : Prop where
  holds : engine.mailbox.Holds (written history)
  acknowledged : engine.mailbox.applied = engine.applied
  applied : engine.applied = UInt64.ofNat (commitCount (written history) - waiting history)
  table_eq : engine.lane.table = (appliedRules history).foldl RuleTable.insert table

variable {engine : Engine} {table : RuleTable} {history : List Record}

theorem follows_fresh (lane : Lane) : Follows { lane := lane } lane.table [] where
  holds := Mailbox.holds_fresh
  acknowledged := rfl
  applied := rfl
  table_eq := rfl

-- A commit adds one to both counts, so the difference stays; every other write adds to neither.
theorem Follows.write (h : engine.Follows table history) (word : WordWrite) :
    (engine.withConsole (engine.console.write word.offset word.value)).Follows table
      (history ++ [.wrote word]) where
  holds := by
    rw [written_concat]
    exact h.holds.write word.offset word.value
  acknowledged := (Console.applied_write _ _ _).trans h.acknowledged
  applied := by
    rw [written_concat, waiting_concat, commitCount_append]
    show engine.applied = UInt64.ofNat (commitCount (written history) + commitCount [word] -
      (waiting history + commitCount [word]))
    rw [Nat.add_sub_add_right]
    exact h.applied
  table_eq := by
    rw [appliedRules_concat]
    show engine.lane.table = (appliedRules history ++ []).foldl RuleTable.insert table
    rw [List.append_nil]
    exact h.table_eq

-- Chunks leave the mailbox and the table alone.
theorem Follows.pass (h : engine.Follows table history) {lane : Lane}
    (same : lane.table = engine.lane.table) {record : Record} (silent : record.write? = none)
    (no_rule : record.applied? = none) :
    { engine with lane := lane }.Follows table (history ++ [record]) where
  holds := by
    rw [written_concat, silent, Option.toList_none, List.append_nil]
    exact h.holds
  acknowledged := h.acknowledged
  applied := by
    rw [written_concat, waiting_concat, silent, no_rule, Option.toList_none, List.append_nil]
    exact h.applied
  table_eq := by
    rw [appliedRules_concat, no_rule, Option.map_none, Option.toList_none, List.append_nil]
    exact same.trans h.table_eq

-- The commit that was applied last is behind the latest one by the commits that wait.
theorem Follows.applied_le (h : engine.Follows table history)
    (few : commitCount (written history) < UInt64.size) :
    engine.applied ≤ engine.mailbox.commits ∧
      (engine.mailbox.commits ≤ engine.applied ↔ waiting history = 0) := by
  have some_wait := waiting_le history
  have reached : engine.applied.toNat = commitCount (written history) - waiting history := by
    rw [h.applied]
    exact UInt64.toNat_ofNat_of_lt' (by omega)
  have made : engine.mailbox.commits.toNat = commitCount (written history) := by
    rw [h.holds.commits]
    exact UInt64.toNat_ofNat_of_lt' few
  rw [UInt64.le_iff_toNat_le, UInt64.le_iff_toNat_le, reached, made]
  omega

-- What a step with nothing to pass finds: the latest commit under its number, if any commit waits.
theorem Follows.pending?_eq (h : engine.Follows table history)
    (few : commitCount (written history) < UInt64.size) :
    engine.pending? =
      if 0 < waiting history then
        some ⟨UInt64.ofNat (commitCount (written history)),
          (stagedBy (upToCommit (written history))).rule⟩
      else none := by
  rw [Engine.pending?, Mailbox.pending?, h.holds.commits, h.holds.committed, ← h.holds.commits]
  by_cases waits : 0 < waiting history
  · rw [if_pos waits, if_neg ((h.applied_le few).2.not.mpr (by omega))]
  · rw [if_neg waits, if_pos ((h.applied_le few).2.mpr (by omega))]

theorem Follows.idleStep (h : engine.Follows table history)
    (few : commitCount (written history) < UInt64.size) :
    engine.idleStep.2.Follows table (history ++ [.stepped engine.idleStep.1]) := by
  have pending := h.pending?_eq few
  rw [Engine.idleStep, Engine.applyPending]
  by_cases waits : 0 < waiting history
  · rw [if_pos waits] at pending
    rw [pending]
    have acknowledged : max engine.mailbox.applied (UInt64.ofNat (commitCount (written history))) =
        UInt64.ofNat (commitCount (written history)) := by
      rw [h.acknowledged, ← h.holds.commits]
      exact if_pos (h.applied_le few).1
    exact {
      holds := by
        rw [written_concat]
        show Mailbox.Holds _ (written history ++ [])
        rw [List.append_nil]
        exact ⟨h.holds.staged, h.holds.committed, h.holds.commits⟩
      acknowledged := acknowledged
      applied := by
        rw [written_concat, waiting_concat]
        show _ = UInt64.ofNat (commitCount (written history ++ []) - 0)
        rw [List.append_nil]
        rfl
      table_eq := by
        rw [appliedRules_concat]
        show engine.lane.table.insert _ = (appliedRules history ++ [_]).foldl RuleTable.insert table
        rw [List.foldl_concat, ← h.table_eq] }
  · rw [if_neg waits] at pending
    rw [pending]
    exact h.pass rfl rfl rfl

-- A step that finds a chunk passes it and does not look at the mailbox.
theorem step_of_some [Feed φ] [Outlet ω] (engine : Engine) {feed rest : φ} {chunk : Chunk}
    (taken : Feed.next? feed = some (chunk, rest)) (outlet : ω) :
    engine.step feed outlet =
      (.chunk (engine.lane.classify chunk).1, { engine with lane := (engine.lane.classify chunk).2 },
        rest, (engine.forward outlet chunk).2.2) := by
  rw [Engine.step, taken]
  rfl

theorem step_of_none [Feed φ] [Outlet ω] (engine : Engine) {feed : φ} (ended : Feed.next? feed = none)
    (outlet : ω) :
    engine.step feed outlet = (engine.idleStep.1, engine.idleStep.2, feed, outlet) := by
  rw [Engine.step, ended]

/-- **A call.**  Whatever is called, an engine goes on to follow its history. -/
theorem Follows.answer (h : engine.Follows table history)
    (few : commitCount (written history) < UInt64.size) (call : Call) :
    (engine.answer call).2.Follows table (history ++ [(engine.answer call).1]) := by
  cases call with
  | write word => exact h.write word
  | step feed outlet =>
    rw [Engine.answer]
    cases taken : Feed.next? feed with
    | none =>
      rw [engine.step_of_none taken]
      exact h.idleStep few
    | some entry =>
      rw [engine.step_of_some taken]
      have same : (engine.lane.classify entry.1).2.table = engine.lane.table := rfl
      exact h.pass same rfl rfl
  | drain feed outlet =>
    obtain ⟨rest, -, drained⟩ := engine.drainFrom_eq 0 feed outlet
    rw [Engine.answer, Engine.drain, drained]
    exact h.pass (engine.lane.table_run_map_chunk _) rfl rfl

theorem write?_answer (engine : Engine) (call : Call) :
    (engine.answer call).1.write? = call.write? := by
  cases call <;> rfl

/-! ## 5. A run -/

-- By induction on the calls.  Only the number of commits up to each call must stay in bounds, so
-- the bound on the whole run is enough.
theorem Follows.run (h : engine.Follows table history) (calls : List Call)
    (few : commitCount (written history ++ calls.filterMap Call.write?) < UInt64.size) :
    (engine.run calls).2.Follows table (history ++ (engine.run calls).1) := by
  induction calls generalizing engine history with
  | nil =>
    rw [Engine.run, List.append_nil]
    exact h
  | cons call calls ih =>
    have words : written history ++ (call :: calls).filterMap Call.write? =
        written (history ++ [(engine.answer call).1]) ++ calls.filterMap Call.write? := by
      rw [written_concat, write?_answer, List.append_assoc, List.filterMap_cons]
      cases call.write? <;> rfl
    have so_far : commitCount (written history) < UInt64.size := by
      rw [commitCount_append] at few
      omega
    rw [words] at few
    have rest := ih (h.answer so_far call) few
    rw [List.append_assoc] at rest
    exact rest

theorem map_write?_run (engine : Engine) (calls : List Call) :
    (engine.run calls).1.map Record.write? = calls.map Call.write? := by
  induction calls generalizing engine with
  | nil => rfl
  | cons call calls ih =>
    rw [List.map_cons, ← engine.write?_answer call, ← ih (engine.answer call).2]
    rfl

structure Obeys (engine : Engine) (table : RuleTable) (history : List Record) : Prop where
  applies_iff : ∀ {φ ω : Type} [Feed φ] [Outlet ω] (feed : φ) (outlet : ω) (pending : PendingRule),
    (engine.step feed outlet).1 = .ruleApplied pending ↔
      Feed.next? feed = none ∧ 0 < waiting history ∧
        pending = ⟨UInt64.ofNat (commitCount (written history)),
          (stagedBy (upToCommit (written history))).rule⟩
  table_eq : engine.lane.table = (appliedRules history).foldl RuleTable.insert table
  step_keeps_table : ∀ {φ ω : Type} [Feed φ] [Outlet ω] (feed : φ) (outlet : ω),
    Feed.next? feed ≠ none → (engine.step feed outlet).2.1.lane.table = engine.lane.table
  drain_keeps_table : ∀ {φ ω : Type} [Feed φ] [Outlet ω] (feed : φ) (outlet : ω),
    (engine.drain feed outlet).2.1.lane.table = engine.lane.table
  commits_eq : engine.mailbox.commits = UInt64.ofNat (commitCount (written history))
  acknowledged : engine.applied = engine.mailbox.applied
  applied_le : engine.mailbox.applied ≤ engine.mailbox.commits
  applied_eq : ∀ pending, history.getLast? = some (.stepped (.ruleApplied pending)) →
    engine.mailbox.applied = engine.mailbox.commits

theorem idleStep_eq_ruleApplied_iff (engine : Engine) (pending : PendingRule) :
    engine.idleStep.1 = .ruleApplied pending ↔ engine.pending? = some pending := by
  rw [Engine.idleStep]
  cases engine.pending? <;> simp

theorem Follows.obeys (h : engine.Follows table history)
    (few : commitCount (written history) < UInt64.size) : engine.Obeys table history where
  applies_iff := by
    intro φ ω _ _ feed outlet pending
    cases taken : Feed.next? feed with
    | some entry =>
      rw [engine.step_of_some taken]
      simp
    | none =>
      rw [engine.step_of_none taken, idleStep_eq_ruleApplied_iff, h.pending?_eq few]
      by_cases waits : 0 < waiting history
      · simp [waits, eq_comm]
      · simp [waits]
  table_eq := h.table_eq
  step_keeps_table := by
    intro φ ω _ _ feed outlet some_chunk
    obtain ⟨entry, taken⟩ := Option.ne_none_iff_exists'.mp some_chunk
    rw [engine.step_of_some taken]
    rfl
  drain_keeps_table := by
    intro φ ω _ _ feed outlet
    obtain ⟨rest, -, drained⟩ := engine.drainFrom_eq 0 feed outlet
    rw [Engine.drain, drained]
    exact engine.lane.table_run_map_chunk _
  commits_eq := h.holds.commits
  acknowledged := h.acknowledged.symm
  applied_le := by
    rw [h.acknowledged]
    exact (h.applied_le few).1
  applied_eq := by
    intro pending applied
    obtain ⟨before, rfl⟩ := List.getLast?_eq_some_iff.mp applied
    have nothing_waits : waiting (before ++ [.stepped (.ruleApplied pending)]) = 0 :=
      waiting_concat before (.stepped (.ruleApplied pending))
    rw [h.acknowledged, h.applied, h.holds.commits, nothing_waits, Nat.sub_zero]

/-- **A run.**  Words are written and chunks are passed in any order, on fresh registers.  A step
applies a rule just when it finds no chunk and there is a commit behind the last rule applied; the
rule is the one staged at the latest commit, under the number of commits; only such steps change the
table; and the numbers of the engine and of its registers agree and never run ahead. -/
theorem run_fresh_registers (lane : Lane) (calls : List Call)
    (few : commitCount (calls.filterMap Call.write?) < UInt64.size) :
    ∃ history last, run { lane := lane } calls = (history, last) ∧
      history.map Record.write? = calls.map Call.write? ∧ last.Obeys lane.table history := by
  have calls_seen := map_write?_run { lane := lane } calls
  have follows := (follows_fresh lane).run calls few
  rw [List.nil_append] at follows
  have words : written (run { lane := lane } calls).1 = calls.filterMap Call.write? := by
    have same := congrArg (List.filterMap id) calls_seen
    rwa [List.filterMap_map, List.filterMap_map] at same
  exact ⟨_, _, rfl, calls_seen, follows.obeys (by rwa [words])⟩

-- A rule with more bits than the registers keep, an address staged too late, a chunk and a drained
-- feed that take precedence, and two commits that a later step finds as one.
def sampleCalls : List Call :=
  [.write ⟨addressOffset, 0x0A000005⟩, .write ⟨portOffset, 0xFFFF2328⟩, .write ⟨actionOffset, 0x101⟩,
    .write ⟨addressOffset, 0x0A000009⟩,
    .step (ChunkCursor.ofPacket .widest Lane.sampleFrame) (#[] : Array Chunk),
    .drain (ChunkCursor.ofPacket .widest Lane.sampleFrame) (#[] : Array Chunk),
    .step ({} : ChunkQueue) (#[] : Array Chunk), .write ⟨actionOffset, 1⟩, .write ⟨actionOffset, 2⟩,
    .step ({} : ChunkQueue) (#[] : Array Chunk), .step ({} : ChunkQueue) (#[] : Array Chunk)]

theorem run_fresh_registers_two_applied :
    commitCount (sampleCalls.filterMap Call.write?) < UInt64.size ∧
      ∃ history last, run { lane := ⟨.start {}, .standard, {}⟩ } sampleCalls = (history, last) ∧
        last.Obeys .standard history ∧
        history.filter (·.write?.isNone) =
          [.stepped (.chunk ⟨0, false, true⟩), .drained 1,
            .stepped (.ruleApplied ⟨1, ⟨Lane.sampleKey, .forward⟩⟩),
            .stepped (.ruleApplied ⟨3, ⟨⟨⟨0x0A000009⟩, 9000⟩, .drop⟩⟩), .stepped .idle] ∧
        last.applied = 3 ∧ last.lane.table.lookup Lane.sampleKey = .forward := by
  have few : commitCount (sampleCalls.filterMap Call.write?) < UInt64.size := by decide
  obtain ⟨history, last, ran, -, obeys⟩ :=
    run_fresh_registers ⟨.start {}, .standard, {}⟩ sampleCalls few
  have seen : (run { lane := ⟨.start {}, .standard, {}⟩ } sampleCalls).1.filter (·.write?.isNone) =
      [.stepped (.chunk ⟨0, false, true⟩), .drained 1,
        .stepped (.ruleApplied ⟨1, ⟨Lane.sampleKey, .forward⟩⟩),
        .stepped (.ruleApplied ⟨3, ⟨⟨⟨0x0A000009⟩, 9000⟩, .drop⟩⟩), .stepped .idle] := by
    decide +kernel
  have left : (run { lane := ⟨.start {}, .standard, {}⟩ } sampleCalls).2.applied = 3 ∧
      (run { lane := ⟨.start {}, .standard, {}⟩ } sampleCalls).2.lane.table.lookup
        Lane.sampleKey = .forward := by decide +kernel
  rw [ran] at seen left
  exact ⟨few, history, last, ran, obeys, seen, left⟩

end Engine
end UdpGate
