import UdpGate.Handshake
import UdpGate.Proofs.WriterLock

/-!
# What callers leave in the mailbox

Any number of callers install rules through one mailbox, each inside the writer lock.  A history of
what was seen tells which triples were stored, which commits were counted and how installations
ended (`Handshake.ledger`).  Because one caller at a time is inside the lock, a caller finds there
what it has stored itself, so the latest triple is always the whole rule of one call
(`Handshake.Recorded`), at every step of every schedule.
-/

namespace UdpGate

def Rule.staged (rule : Rule) : StagedRule := ⟨rule.key.address.value, rule.key.port, rule.action.code⟩

theorem Rule.rule_committed_store (rule : Rule) (box : Mailbox) :
    (box.store (.triple rule.staged)).committed.rule = rule := by
  obtain ⟨⟨⟨address⟩, port⟩, action⟩ := rule
  simp [Mailbox.store, Mailbox.committed, staged, StagedRule.rule]

theorem Mailbox.le_applied_acknowledge (box : Mailbox) (number : UInt64) :
    box.applied ≤ (box.acknowledge number).applied := by
  show box.applied ≤ if box.applied ≤ number then number else box.applied
  split
  · assumption
  · exact UInt64.le_refl _

namespace Handshake

/-! ## 1. What a history tells -/

/-- A rule that was written to the table, with the number of the commit that its triple belongs to.
The commits are numbered from one, in the order in which their triples were stored. -/
structure Insertion where
  commit : Nat
  pending : PendingRule
deriving DecidableEq

structure CallerLedger where
  stored : List (Nat × Rule) := []
  committed : List Rule := []
  outcomes : List Outcome := []
deriving DecidableEq

/-- What callers and the engine did so far. -/
structure Ledger extends CallerLedger where
  /-- The commit whose triple the engine loaded last. -/
  taken : Nat := 0
  inserted : List Insertion := []
deriving DecidableEq

def Ledger.note (ledger : Ledger) : Event → Ledger
  | .stored t rule (.triple _) => { ledger with stored := ledger.stored ++ [(t, rule)] }
  | .committed _ rule => { ledger with committed := ledger.committed ++ [rule] }
  | .left _ _ outcome => { ledger with outcomes := ledger.outcomes ++ [outcome] }
  | .took _ => { ledger with taken := ledger.stored.length }
  | .inserted pending => { ledger with inserted := ledger.inserted ++ [⟨ledger.taken, pending⟩] }
  | _ => ledger

def ledger (history : List Event) : Ledger := history.foldl Ledger.note {}

def Ledger.insertedRules (ledger : Ledger) : List Rule :=
  ledger.inserted.map (·.pending.rule)

theorem ledger_append (history later : List Event) :
    ledger (history ++ later) = later.foldl Ledger.note (ledger history) := List.foldl_append

theorem ledger_concat (history : List Event) (event : Event) :
    ledger (history ++ [event]) = (ledger history).note event := ledger_append history [event]

theorem Ledger.stored_note (ledger : Ledger) (event : Event) :
    ledger.stored <+: (ledger.note event).stored := by
  unfold note
  split
  · exact List.prefix_append ..
  all_goals exact List.prefix_rfl

theorem Ledger.stored_foldl_note (ledger : Ledger) (events : List Event) :
    ledger.stored <+: (events.foldl note ledger).stored := by
  induction events generalizing ledger with
  | nil => exact List.prefix_rfl
  | cons event events ih => exact (ledger.stored_note event).trans (ih (ledger.note event))

theorem stored_extends (history later : List Event) :
    (ledger history).stored <+: (ledger (history ++ later)).stored := by
  rw [ledger_append]
  exact Ledger.stored_foldl_note _ later

/-! ## 2. What a turn can do -/

/-- A turn does nothing, or one of these. -/
inductive Step (s : Handshake) : Option Event → Handshake → Prop
  | nothing : Step s none s
  | call (t : Nat) (call : Call) (away : s.callers t = .away) :
    Step s (some (.called t call)) (s.withCaller t (.ofCall call))
  | enter (t : Nat) (rule : Rule) (rest : List Rule) (waits : s.callers t = .waiting rule rest)
    (free : s.writer = none) :
    Step s (some (.entered t rule))
      { s.withCaller t (.writing rule rest .storeAddress) with writer := some t }
  | access (t : Nat) (rule : Rule) (rest : List Rule) (stage : Stage) (late : Option Nat)
    (writes : s.callers t = .writing rule rest stage) (busy : ∀ outcome, stage ≠ .done outcome) :
    Step s (stage.access t rule late s.mailbox).1
      ((s.withMailbox (stage.access t rule late s.mailbox).2.1).withCaller t
        (.writing rule rest (stage.access t rule late s.mailbox).2.2))
  | leave (t : Nat) (rule : Rule) (rest : List Rule) (outcome : Outcome)
    (writes : s.callers t = .writing rule rest (.done outcome)) :
    Step s (some (.left t rule outcome))
      { s.withCaller t (.after rest outcome) with writer := none }
  | finish (t : Nat) (outcome : Outcome) (returns : s.callers t = .returning outcome) :
    Step s (some (.returned t outcome)) (s.withCaller t .away)
  | engine :
    Step s (s.taking.access s.engine).1
      { s with
        engine := (s.taking.access s.engine).2.1
        taking := (s.taking.access s.engine).2.2 }
  | pass (chunk : Chunk) (rests : s.taking = .loadNumber) :
    Step s (some (.passed (s.engine.lane.classify chunk).1))
      { s with engine := { s.engine with lane := (s.engine.lane.classify chunk).2 } }

theorem step_callerTurn (s : Handshake) (t : Nat) (late : Option Nat) :
    Step s (s.callerTurn t late).1 (s.callerTurn t late).2 := by
  unfold callerTurn
  split
  case h_1 => exact .nothing
  case h_2 rule rest waits =>
    split
    case h_1 free => exact .enter t rule rest waits free
    case h_2 => exact .nothing
  case h_3 rule rest stage writes =>
    split
    case h_1 outcome => exact .leave t rule rest outcome writes
    case h_2 busy => exact .access t rule rest stage late writes busy
  case h_4 outcome returns => exact .finish t outcome returns

theorem step_take (s : Handshake) (turn : Turn) : Step s (s.take turn).1 (s.take turn).2 := by
  cases turn with
  | call t call =>
    rw [take]
    split
    case h_1 away => exact .call t call away
    case h_2 => exact .nothing
  | caller t late => exact s.step_callerTurn t late
  | engine => exact .engine
  | chunk chunk =>
    rw [take]
    split
    case h_1 rests => exact .pass chunk rests
    case h_2 => exact .nothing

-- What is seen of a caller inside the lock.
theorem Stage.event_access (t : Nat) (rule : Rule) (late : Option Nat) (box : Mailbox)
    (stage : Stage) {event : Event} (seen : (stage.access t rule late box).1 = some event) :
    (∃ store, event = .stored t rule store) ∨ event = .committed t rule := by
  cases stage with
  | poll number =>
    have silent : (Stage.access t rule late box (.poll number)).1 = none := by
      rw [Stage.access.eq_def]
      cases late <;> simp only <;> split <;> rfl
    rw [silent] at seen
    cases seen
  | storeAddress | storePort | storeCode | storeTriple =>
    cases seen
    exact .inl ⟨_, rfl⟩
  | count =>
    cases seen
    exact .inr rfl
  | _ => cases seen

-- What is seen of the engine.
theorem Taking.event_access (engine : Engine) (taking : Taking) {event : Event}
    (seen : (taking.access engine).1 = some event) :
    (∃ pending, event = .took pending) ∨ (∃ pending, event = .inserted pending) ∨
      ∃ number, event = .acknowledged number := by
  cases taking with
  | loadNumber =>
    rw [Taking.access] at seen
    split at seen <;> cases seen
  | loadTriple number =>
    cases seen
    exact .inl ⟨_, rfl⟩
  | insert pending =>
    cases seen
    exact .inr (.inl ⟨pending, rfl⟩)
  | acknowledge number =>
    cases seen
    exact .inr (.inr ⟨number, rfl⟩)

theorem Step.of_left {s s' : Handshake} {event : Option Event} {t : Nat} {rule : Rule}
    {outcome : Outcome} (step : Step s event s') (seen : event = some (.left t rule outcome)) :
    ∃ rest, s.callers t = .writing rule rest (.done outcome) := by
  cases step with
  | leave u r rest ended writes =>
    cases seen
    exact ⟨rest, writes⟩
  | access u r rest stage late writes busy =>
    rcases stage.event_access u r late s.mailbox seen with ⟨_, other⟩ | other <;> cases other
  | engine =>
    rcases s.taking.event_access s.engine seen with ⟨_, other⟩ | ⟨_, other⟩ | ⟨_, other⟩ <;> cases other
  | _ => cases seen

theorem Step.of_entered {s s' : Handshake} {event : Option Event} {t : Nat} {rule : Rule}
    (step : Step s event s') (seen : event = some (.entered t rule)) :
    s.writer = none ∧ ∃ rest, s.callers t = .waiting rule rest := by
  cases step with
  | enter u r rest waits free =>
    cases seen
    exact ⟨free, rest, waits⟩
  | access u r rest stage late writes busy =>
    rcases stage.event_access u r late s.mailbox seen with ⟨_, other⟩ | other <;> cases other
  | engine =>
    rcases s.taking.event_access s.engine seen with ⟨_, other⟩ | ⟨_, other⟩ | ⟨_, other⟩ <;> cases other
  | _ => cases seen

theorem Step.of_called {s s' : Handshake} {event : Option Event} {t : Nat} {call : Call}
    (step : Step s event s') (seen : event = some (.called t call)) :
    s' = s.withCaller t (.ofCall call) := by
  cases step with
  | call u asked away =>
    cases seen
    rfl
  | access u r rest stage late writes busy =>
    rcases stage.event_access u r late s.mailbox seen with ⟨_, other⟩ | other <;> cases other
  | engine =>
    rcases s.taking.event_access s.engine seen with ⟨_, other⟩ | ⟨_, other⟩ | ⟨_, other⟩ <;> cases other
  | _ => cases seen

theorem Step.of_returned {s s' : Handshake} {event : Option Event} {t : Nat} {outcome : Outcome}
    (step : Step s event s') (seen : event = some (.returned t outcome)) :
    s.callers t = .returning outcome ∧ s' = s.withCaller t .away := by
  cases step with
  | finish u ended returns =>
    cases seen
    exact ⟨returns, rfl⟩
  | access u r rest stage late writes busy =>
    rcases stage.event_access u r late s.mailbox seen with ⟨_, other⟩ | other <;> cases other
  | engine =>
    rcases s.taking.event_access s.engine seen with ⟨_, other⟩ | ⟨_, other⟩ | ⟨_, other⟩ <;> cases other
  | _ => cases seen

@[simp] theorem callers_withCaller (s : Handshake) (t u : Nat) (caller : Caller) :
    (s.withCaller t caller).callers u = if u = t then caller else s.callers u := rfl

/-! ## 3. The writer lock -/

def Caller.isWriting : Caller → Bool
  | .writing _ _ _ => true
  | _ => false

def Locked (s : Handshake) : Prop := LockedBy s.writer fun t => (s.callers t).isWriting

@[simp] theorem isWriting_ofRules (rules : List Rule) : (Caller.ofRules rules).isWriting = false := by
  cases rules <;> rfl

@[simp] theorem isWriting_ofCall (call : Call) : (Caller.ofCall call).isWriting = false := by
  rw [Caller.ofCall]
  split
  · exact isWriting_ofRules _
  · rfl

@[simp] theorem isWriting_after (rest : List Rule) (outcome : Outcome) :
    (Caller.after rest outcome).isWriting = false := by
  cases outcome
  · exact isWriting_ofRules rest
  · rfl

variable {s s' : Handshake} {event : Option Event} {history : List Event} {table : RuleTable}

theorem isWriting_withCaller (s : Handshake) (t u : Nat) (caller : Caller) :
    ((s.withCaller t caller).callers u).isWriting =
      if u = t then caller.isWriting else (s.callers u).isWriting := by
  rw [callers_withCaller]
  split <;> rfl

-- A caller that stays on its side of the lock.
theorem Locked.withCaller (h : s.Locked) {t : Nat} {caller : Caller}
    (same : caller.isWriting = (s.callers t).isWriting) : (s.withCaller t caller).Locked := by
  refine LockedBy.stay h fun u => ?_
  rw [isWriting_withCaller]
  split
  case isTrue here => rw [here, same]
  case isFalse => rfl

theorem Locked.writer_eq (h : s.Locked) {t : Nat} {rule : Rule} {rest : List Rule} {stage : Stage}
    (writes : s.callers t = .writing rule rest stage) : s.writer = some t :=
  LockedBy.holder_eq h (by rw [writes]; rfl)

-- Nobody else is inside the lock.
theorem Locked.eq_of_writing (h : s.Locked) {t u : Nat} {rule other : Rule} {rest others : List Rule}
    {stage stage' : Stage} (writes : s.callers t = .writing rule rest stage)
    (also : s.callers u = .writing other others stage') : u = t :=
  LockedBy.eq_of_inside h (by rw [writes]; rfl) (by rw [also]; rfl)

theorem Locked.free_or_writing (h : s.Locked) :
    s.writer = none ∨ ∃ t rule rest stage, s.callers t = .writing rule rest stage := by
  cases writer : s.writer with
  | none => exact .inl rfl
  | some t =>
    have writes : (s.callers t).isWriting = true := (h t).mp writer
    cases caller : s.callers t with
    | writing rule rest stage => exact .inr ⟨t, rule, rest, stage, caller⟩
    | _ =>
      rw [caller] at writes
      cases writes

theorem Locked.step (h : s.Locked) (step : Step s event s') : s'.Locked := by
  cases step with
  | nothing => exact h
  | call t call away => exact h.withCaller (by rw [isWriting_ofCall, away]; rfl)
  | enter t rule rest waits free =>
    have unheld : LockedBy none fun u => (s.callers u).isWriting := free ▸ h
    exact unheld.enter fun u => s.isWriting_withCaller t u _
  | access t rule rest stage late writes busy =>
    exact h.withCaller (by rw [writes]; rfl)
  | leave t rule rest outcome writes =>
    have held : LockedBy (some t) fun u => (s.callers u).isWriting := h.writer_eq writes ▸ h
    refine held.leave fun u => (s.isWriting_withCaller t u _).trans ?_
    rw [isWriting_after]
  | finish t outcome returns => exact h.withCaller (by rw [returns]; rfl)
  | engine => exact h
  | pass chunk rests => exact h

/-! ## 4. What callers leave in the mailbox -/

def Stage.hasStored : Stage → Bool
  | .count | .loadNumber | .poll _ | .done _ => true
  | _ => false

def Stage.hasCommitted : Stage → Bool
  | .loadNumber | .poll _ | .done _ => true
  | _ => false

/-- What a caller inside the lock finds in the mailbox, as long as it is alone there. -/
def Stage.Relies (rule : Rule) (box : Mailbox) : Stage → Prop
  | .storeAddress | .count | .loadNumber => True
  | .storePort => box.staged.address = rule.key.address.value
  | .storeCode | .loadAddress =>
    box.staged.address = rule.key.address.value ∧ box.staged.port = rule.key.port
  | .loadPort address => address = rule.key.address.value ∧ box.staged.port = rule.key.port
  | .storeTriple address port => address = rule.key.address.value ∧ port = rule.key.port
  | .poll number => number = box.commits
  | .done .installed => box.commits ≤ box.applied
  | .done (.failed fault) => ∃ waited, fault = .timeout box.commits waited

def Asked (t : Nat) (rule : Rule) (history : List Event) : Prop :=
  ∃ call rules, .called t call ∈ history ∧ call.rules = .ok rules ∧ rule ∈ rules

/-- A caller has come to a stage since it took the lock. -/
structure Inside (t : Nat) (rule : Rule) (stage : Stage) (box : Mailbox) (history : List Event) :
    Prop where
  relies : stage.Relies rule box
  entered : ∃ before since, history = before ++ .entered t rule :: since ∧ Asked t rule before ∧
    (ledger history).stored =
      (ledger before).stored ++ if stage.hasStored then [(t, rule)] else []
  committed : (ledger history).stored.map Prod.snd =
    (ledger history).committed ++ if stage.hasStored && !stage.hasCommitted then [rule] else []
  ended : (ledger history).stored.length =
    (ledger history).outcomes.length + if stage.hasStored then 1 else 0

structure Registers (box : Mailbox) (calls : CallerLedger) : Prop where
  commits_eq : box.commits = UInt64.ofNat calls.committed.length
  latest : ∀ entry ∈ calls.stored.getLast?, box.committed.rule = entry.2

theorem Asked.append {t : Nat} {rule : Rule} {history : List Event} (h : Asked t rule history)
    (later : List Event) : Asked t rule (history ++ later) := by
  obtain ⟨call, rules, called, asks, mem⟩ := h
  exact ⟨call, rules, List.mem_append_left later called, asks, mem⟩

section Access

variable {t : Nat} {rule : Rule} {stage next : Stage} {box box' : Mailbox} {later : List Event}

-- A caller inside the lock goes on by an access that is not recorded, or somebody else does
-- something meanwhile.
theorem Inside.append (h : Inside t rule stage box history) (relies : next.Relies rule box')
    (stored : next.hasStored = stage.hasStored) (committed : next.hasCommitted = stage.hasCommitted)
    (same : (ledger (history ++ later)).toCallerLedger = (ledger history).toCallerLedger) :
    Inside t rule next box' (history ++ later) where
  relies := relies
  entered := by
    obtain ⟨before, since, shape, asked, entry⟩ := h.entered
    refine ⟨before, since ++ later, ?_, asked, ?_⟩
    · rw [shape, List.append_assoc, List.cons_append]
    · rw [same, stored, entry]
  committed := by rw [same, stored, committed, h.committed]
  ended := by rw [same, stored, h.ended]

theorem Registers.keep (h : Registers box (ledger history).toCallerLedger)
    (commits : box'.commits = box.commits) (captured : box'.captured = box.captured)
    (same : (ledger (history ++ later)).toCallerLedger = (ledger history).toCallerLedger) :
    Registers box' (ledger (history ++ later)).toCallerLedger where
  commits_eq := by rw [same, commits, h.commits_eq]
  latest := by
    rw [same, Mailbox.committed, captured]
    exact h.latest

-- The store that matters.  The values loaded are those that this caller has stored, so the triple is
-- the rule that it was asked for.
theorem Inside.storeTriple
    (h : Inside t rule (.storeTriple rule.key.address.value rule.key.port) box history)
    (registers : Registers box (ledger history).toCallerLedger) :
    Inside t rule .count (box.store (.triple rule.staged))
        (history ++ [.stored t rule (.triple rule.staged)]) ∧
      Registers (box.store (.triple rule.staged))
        (ledger (history ++ [.stored t rule (.triple rule.staged)])).toCallerLedger := by
  obtain ⟨before, since, shape, asked, entry⟩ := h.entered
  have committed := h.committed
  have ended := h.ended
  simp only [Stage.hasStored, Bool.false_and, Bool.false_eq_true, if_false, List.append_nil,
    Nat.add_zero] at entry committed ended
  have noted : (ledger (history ++ [.stored t rule (.triple rule.staged)])).toCallerLedger =
      { (ledger history).toCallerLedger with stored := (ledger history).stored ++ [(t, rule)] } := by
    rw [ledger_concat]
    rfl
  constructor
  · refine ⟨trivial, ⟨before, since ++ [.stored t rule (.triple rule.staged)], ?_, asked, ?_⟩, ?_, ?_⟩
    · rw [shape, List.append_assoc, List.cons_append]
    · rw [noted, entry]
      rfl
    · rw [noted, List.map_append, committed]
      rfl
    · rw [noted, List.length_append, ended]
      rfl
  · rw [noted]
    refine ⟨registers.commits_eq, ?_⟩
    rw [List.getLast?_concat]
    rintro _ ⟨⟩
    exact rule.rule_committed_store box

theorem Inside.count (h : Inside t rule .count box history)
    (registers : Registers box (ledger history).toCallerLedger) :
    Inside t rule .loadNumber box.countCommit (history ++ [.committed t rule]) ∧
      Registers box.countCommit (ledger (history ++ [.committed t rule])).toCallerLedger := by
  obtain ⟨before, since, shape, asked, entry⟩ := h.entered
  have noted : (ledger (history ++ [.committed t rule])).toCallerLedger =
      { (ledger history).toCallerLedger with
        committed := (ledger history).committed ++ [rule] } := by
    rw [ledger_concat]
    rfl
  constructor
  · refine ⟨trivial, ⟨before, since ++ [.committed t rule], ?_, asked, ?_⟩, ?_, ?_⟩
    · rw [shape, List.append_assoc, List.cons_append]
    · rw [noted, entry]
      rfl
    · rw [noted, h.committed]
      exact (List.append_nil _).symm
    · rw [noted, h.ended]
      rfl
  · rw [noted]
    refine ⟨?_, registers.latest⟩
    show box.commits + 1 = UInt64.ofNat ((ledger history).committed ++ [rule]).length
    rw [List.length_append, UInt64.ofNat_add, ← registers.commits_eq]
    rfl

/-- **A caller's access.**  Inside the lock a caller comes to its next stage, whatever its rule. -/
theorem Inside.access (h : Inside t rule stage box history)
    (registers : Registers box (ledger history).toCallerLedger)
    (busy : ∀ outcome, stage ≠ .done outcome) (late : Option Nat) :
    Inside t rule (stage.access t rule late box).2.2 (stage.access t rule late box).2.1
        (history ++ (stage.access t rule late box).1.toList) ∧
      Registers (stage.access t rule late box).2.1
        (ledger (history ++ (stage.access t rule late box).1.toList)).toCallerLedger := by
  have relies := h.relies
  -- Plain stores and loads leave the ledger alone.
  have plain {event : Event} (quiet : (ledger history).note event = ledger history) :
      (ledger (history ++ [event])).toCallerLedger = (ledger history).toCallerLedger := by
    rw [ledger_concat, quiet]
  have silent : (ledger (history ++ [])).toCallerLedger = (ledger history).toCallerLedger := by
    rw [List.append_nil]
  cases stage with
  | storeAddress =>
    exact ⟨h.append rfl rfl rfl (plain rfl), registers.keep rfl rfl (plain rfl)⟩
  | storePort =>
    exact ⟨h.append ⟨relies, rfl⟩ rfl rfl (plain rfl), registers.keep rfl rfl (plain rfl)⟩
  | storeCode =>
    exact ⟨h.append relies rfl rfl (plain rfl), registers.keep rfl rfl (plain rfl)⟩
  | loadAddress => exact ⟨h.append relies rfl rfl silent, registers.keep rfl rfl silent⟩
  | loadPort address => exact ⟨h.append relies rfl rfl silent, registers.keep rfl rfl silent⟩
  | storeTriple address port =>
    obtain ⟨rfl, rfl⟩ := relies
    exact h.storeTriple registers
  | count => exact h.count registers
  | loadNumber => exact ⟨h.append rfl rfl rfl silent, registers.keep rfl rfl silent⟩
  | poll number =>
    have number_eq : number = box.commits := relies
    subst number_eq
    by_cases applied : box.commits ≤ box.applied
    · rw [show Stage.access t rule late box (.poll box.commits) = (none, box, .done .installed) from
        if_pos applied]
      exact ⟨h.append applied rfl rfl silent, registers.keep rfl rfl silent⟩
    · have waits : Stage.access t rule late box (.poll box.commits) = _ := if_neg applied
      cases late with
      | none =>
        rw [waits]
        exact ⟨h.append rfl rfl rfl silent, registers.keep rfl rfl silent⟩
      | some waited =>
        rw [waits]
        exact ⟨h.append ⟨waited, rfl⟩ rfl rfl silent, registers.keep rfl rfl silent⟩
  | done outcome => exact absurd rfl (busy outcome)

end Access

def Caller.rules : Caller → List Rule
  | .waiting rule rest => rule :: rest
  | .writing rule rest _ => rule :: rest
  | _ => []

@[simp] theorem rules_ofRules (rules : List Rule) : (Caller.ofRules rules).rules = rules := by
  cases rules <;> rfl

/-- What callers have left behind: the mailbox holds the commits counted and the latest triple, and
whoever is inside the lock has come to its stage. -/
structure Recorded (s : Handshake) (history : List Event) : Prop where
  registers : Registers s.mailbox (ledger history).toCallerLedger
  free : s.writer = none →
    (ledger history).stored.map Prod.snd = (ledger history).committed ∧
      (ledger history).stored.length = (ledger history).outcomes.length
  inside : ∀ t rule rest stage, s.callers t = .writing rule rest stage →
    Inside t rule stage s.mailbox history
  asked : ∀ t, ∀ rule ∈ (s.callers t).rules, Asked t rule history
  stored_asked : ∀ entry ∈ (ledger history).stored, Asked entry.1 entry.2 history

theorem recorded_start (lane : Lane) : (start lane).Recorded [] where
  registers := ⟨rfl, by simp [ledger]⟩
  free _ := ⟨rfl, rfl⟩
  inside _ _ _ _ writes := nomatch writes
  asked _ _ mem := nomatch mem
  stored_asked _ mem := nomatch mem

theorem Stage.Relies.acknowledge {rule : Rule} {stage : Stage} {box : Mailbox} {applied : UInt64}
    (h : stage.Relies rule box) (le : box.applied ≤ applied) :
    stage.Relies rule { box with applied := applied } := by
  cases stage with
  | done outcome =>
    cases outcome with
    | installed => exact UInt64.le_trans h le
    | failed fault => exact h
  | _ => exact h

-- Callers outside the lock come and go, and the engine acknowledges.
theorem Recorded.append (h : s.Recorded history) {later : List Event}
    (same : (ledger (history ++ later)).toCallerLedger = (ledger history).toCallerLedger)
    (writer : s'.writer = s.writer)
    (mailbox : ∃ applied, s'.mailbox = { s.mailbox with applied := applied } ∧
      s.mailbox.applied ≤ applied)
    (inside : ∀ t rule rest stage, s'.callers t = .writing rule rest stage →
      s.callers t = .writing rule rest stage)
    (asked : ∀ t, ∀ rule ∈ (s'.callers t).rules, Asked t rule (history ++ later)) :
    s'.Recorded (history ++ later) := by
  obtain ⟨applied, mailbox, le⟩ := mailbox
  exact {
    registers := h.registers.keep (by rw [mailbox]) (by rw [mailbox]) same
    free := by
      rw [writer, same]
      exact h.free
    inside := by
      intro t rule rest stage writes
      have was := h.inside t rule rest stage (inside t rule rest stage writes)
      refine was.append ?_ rfl rfl same
      rw [mailbox]
      exact was.relies.acknowledge le
    asked := asked
    stored_asked := by
      rw [same]
      exact fun entry mem => (h.stored_asked entry mem).append later }

theorem Locked.writer_ne_none (h : s.Locked) {t : Nat} {rule : Rule} {rest : List Rule}
    {stage : Stage} (writes : s.callers t = .writing rule rest stage) : s.writer ≠ none := by
  rw [h.writer_eq writes]
  exact Option.some_ne_none t

-- Rules that a caller is about were asked for, and later as well.
theorem asked_withCaller {later : List Event} {t : Nat} {caller : Caller}
    (asked : ∀ u, ∀ rule ∈ (s.callers u).rules, Asked u rule history)
    (mine : ∀ rule ∈ caller.rules, Asked t rule (history ++ later)) :
    ∀ u, ∀ rule ∈ ((s.withCaller t caller).callers u).rules, Asked u rule (history ++ later) := by
  intro u rule mem
  rw [callers_withCaller] at mem
  split at mem
  case isTrue here =>
    rw [here]
    exact mine rule mem
  case isFalse => exact (asked u rule mem).append later

theorem Recorded.enter (h : s.Recorded history) (locked : s.Locked) {t : Nat} {rule : Rule}
    {rest : List Rule} (waits : s.callers t = .waiting rule rest) (free : s.writer = none) :
    { s.withCaller t (.writing rule rest .storeAddress) with writer := some t }.Recorded
      (history ++ [Event.entered t rule]) := by
  have same : ledger (history ++ [Event.entered t rule]) = ledger history := ledger_concat _ _
  obtain ⟨even, ended⟩ := h.free free
  have mine := h.asked t
  rw [waits] at mine
  exact {
    registers := same ▸ h.registers
    free := nofun
    inside := by
      intro u other others stage writes
      change (s.withCaller t _).callers u = _ at writes
      rw [callers_withCaller] at writes
      split at writes
      case isTrue here =>
        cases writes
        rw [here]
        refine ⟨trivial, ⟨history, [], rfl, mine rule List.mem_cons_self, ?_⟩, ?_, ?_⟩
        · rw [same]
          exact (List.append_nil _).symm
        · rw [same, even]
          exact (List.append_nil _).symm
        · rw [same, ended]
          rfl
      case isFalse => exact absurd free (locked.writer_ne_none writes)
    asked := asked_withCaller h.asked fun r mem => (mine r mem).append _
    stored_asked := by
      rw [same]
      exact fun entry mem => (h.stored_asked entry mem).append _ }

-- A triple that is noted is noted as that of the caller that stored it.
theorem mem_stored_append {event : Option Event} {entry : Nat × Rule}
    (mem : entry ∈ (ledger (history ++ event.toList)).stored) :
    entry ∈ (ledger history).stored ∨ ∃ store, event = some (.stored entry.1 entry.2 store) := by
  cases event with
  | none =>
    rw [Option.toList_none, List.append_nil] at mem
    exact .inl mem
  | some event =>
    rw [Option.toList_some, ledger_concat] at mem
    unfold Ledger.note at mem
    split at mem
    · rcases List.mem_append.mp mem with before | now
      · exact .inl before
      · cases List.mem_singleton.mp now
        exact .inr ⟨_, rfl⟩
    all_goals exact .inl mem

theorem Recorded.access (h : s.Recorded history) (locked : s.Locked) {t : Nat} {rule : Rule}
    {rest : List Rule} {stage : Stage} (late : Option Nat)
    (writes : s.callers t = .writing rule rest stage) (busy : ∀ outcome, stage ≠ .done outcome) :
    ((s.withMailbox (stage.access t rule late s.mailbox).2.1).withCaller t
        (.writing rule rest (stage.access t rule late s.mailbox).2.2)).Recorded
      (history ++ (stage.access t rule late s.mailbox).1.toList) := by
  obtain ⟨inside, registers⟩ :=
    (h.inside t rule rest stage writes).access h.registers busy late
  have mine := h.asked t
  rw [writes] at mine
  exact {
    registers := registers
    free := by
      intro free
      exact absurd (show s.writer = none from free) (locked.writer_ne_none writes)
    inside := by
      intro u other others next goes
      rw [callers_withCaller] at goes
      split at goes
      case isTrue here =>
        cases goes
        rw [here]
        exact inside
      case isFalse here => exact absurd (locked.eq_of_writing writes goes) here
    asked := asked_withCaller h.asked fun r mem => (mine r mem).append _
    stored_asked := by
      intro entry mem
      rcases mem_stored_append mem with before | ⟨store, stored⟩
      · exact (h.stored_asked entry before).append _
      · rcases stage.event_access t rule late s.mailbox stored with ⟨_, own⟩ | own
        · cases own
          exact (mine _ List.mem_cons_self).append _
        · cases own }

theorem Recorded.leave (h : s.Recorded history) (locked : s.Locked) {t : Nat} {rule : Rule}
    {rest : List Rule} {outcome : Outcome}
    (writes : s.callers t = .writing rule rest (.done outcome)) :
    { s.withCaller t (.after rest outcome) with writer := none }.Recorded
      (history ++ [Event.left t rule outcome]) := by
  have noted : (ledger (history ++ [Event.left t rule outcome])).toCallerLedger =
      { (ledger history).toCallerLedger with outcomes := (ledger history).outcomes ++ [outcome] } := by
    rw [ledger_concat]
    rfl
  have inside := h.inside t rule rest _ writes
  have mine := h.asked t
  rw [writes] at mine
  exact {
    registers := by
      rw [noted]
      exact ⟨h.registers.commits_eq, h.registers.latest⟩
    free := by
      intro _
      rw [noted]
      refine ⟨inside.committed.trans (List.append_nil _), ?_⟩
      rw [List.length_append, inside.ended]
      rfl
    inside := by
      intro u other others stage goes
      change (s.withCaller t _).callers u = _ at goes
      rw [callers_withCaller] at goes
      split at goes
      case isTrue =>
        have out := isWriting_after rest outcome
        rw [goes] at out
        cases out
      case isFalse here => exact absurd (locked.eq_of_writing writes goes) here
    asked := by
      refine asked_withCaller h.asked fun r mem => ?_
      cases outcome with
      | installed =>
        rw [Caller.after, rules_ofRules] at mem
        exact (mine r (List.mem_cons_of_mem rule mem)).append _
      | failed fault => cases mem
    stored_asked := by
      rw [noted]
      exact fun entry mem => (h.stored_asked entry mem).append _ }

-- A caller that does not come to the lock.
theorem Recorded.withCaller (h : s.Recorded history) {t : Nat} {caller : Caller} {event : Event}
    (outside : caller.isWriting = false)
    (same : (ledger (history ++ [event])).toCallerLedger = (ledger history).toCallerLedger)
    (asked : ∀ rule ∈ caller.rules, Asked t rule (history ++ [event])) :
    (s.withCaller t caller).Recorded (history ++ [event]) := by
  refine h.append same rfl ⟨s.mailbox.applied, rfl, UInt64.le_refl _⟩ ?_
    (asked_withCaller h.asked asked)
  intro u rule rest stage writes
  rw [callers_withCaller] at writes
  split at writes
  case isTrue =>
    rw [writes] at outside
    cases outside
  case isFalse => exact writes

-- The engine and the chunks change neither a caller nor what callers left.
theorem Recorded.withEngine (h : s.Recorded history) {engine : Engine} {taking : Taking}
    {applied : UInt64} (event : Option Event)
    (same : (ledger (history ++ event.toList)).toCallerLedger = (ledger history).toCallerLedger)
    (mailbox : engine.mailbox = { s.mailbox with applied := applied })
    (le : s.mailbox.applied ≤ applied) :
    { s with engine := engine, taking := taking }.Recorded (history ++ event.toList) :=
  h.append same rfl ⟨applied, mailbox, le⟩ (fun _ _ _ _ writes => writes)
    (fun t rule mem => (h.asked t rule mem).append _)

theorem asked_ofCall (t : Nat) (call : Call) (history : List Event) :
    ∀ rule ∈ (Caller.ofCall call).rules, Asked t rule (history ++ [.called t call]) := by
  intro rule mem
  cases asks : call.rules with
  | error fault =>
    rw [Caller.ofCall, asks] at mem
    cases mem
  | ok rules =>
    rw [Caller.ofCall, asks] at mem
    refine ⟨call, rules, List.mem_append_right _ (List.mem_singleton_self _), asks, ?_⟩
    simpa using mem

theorem Recorded.engine (h : s.Recorded history) :
    { s with
        engine := (s.taking.access s.engine).2.1
        taking := (s.taking.access s.engine).2.2 }.Recorded
      (history ++ (s.taking.access s.engine).1.toList) := by
  cases taking : s.taking with
  | loadNumber =>
    rw [Taking.access]
    split
    all_goals exact h.withEngine none (by rw [Option.toList_none, List.append_nil]) rfl (UInt64.le_refl _)
  | loadTriple number =>
    exact h.withEngine (some _) (by rw [Option.toList_some, ledger_concat]; rfl) rfl
      (UInt64.le_refl _)
  | insert pending =>
    exact h.withEngine (some _) (by rw [Option.toList_some, ledger_concat]; rfl) rfl
      (UInt64.le_refl _)
  | acknowledge number =>
    exact h.withEngine (some _) (by rw [Option.toList_some, ledger_concat]; rfl) rfl
      (s.mailbox.le_applied_acknowledge number)

/-- **A turn.**  Whoever's it is, callers go on to leave whole rules in the mailbox. -/
theorem Recorded.step (h : s.Recorded history) (locked : s.Locked) (step : Step s event s') :
    s'.Recorded (history ++ event.toList) := by
  cases step with
  | nothing =>
    rw [Option.toList_none, List.append_nil]
    exact h
  | call t call away =>
    exact h.withCaller (isWriting_ofCall call) (by rw [ledger_concat]; rfl)
      (asked_ofCall t call history)
  | enter t rule rest waits free => exact h.enter locked waits free
  | access t rule rest stage late writes busy => exact h.access locked late writes busy
  | leave t rule rest outcome writes => exact h.leave locked writes
  | finish t outcome returns =>
    exact h.withCaller rfl (by rw [ledger_concat]; rfl) nofun
  | engine => exact h.engine
  | pass chunk rests =>
    exact h.withEngine (some _) (by rw [Option.toList_some, ledger_concat]; rfl) rfl
      (UInt64.le_refl _)

/-! ## 5. What the engine can rely on -/

-- A commit is counted only for a triple that was stored.
theorem Recorded.committed_among (h : s.Recorded history) (locked : s.Locked) :
    (ledger history).committed <+: (ledger history).stored.map Prod.snd := by
  rcases locked.free_or_writing with free | ⟨t, rule, rest, stage, writes⟩
  · exact ⟨[], by rw [List.append_nil, (h.free free).1]⟩
  · rw [(h.inside t rule rest stage writes).committed]
    exact List.prefix_append ..

theorem Recorded.committed_le (h : s.Recorded history) (locked : s.Locked) :
    (ledger history).committed.length ≤ (ledger history).stored.length := by
  rw [← List.length_map Prod.snd]
  exact (h.committed_among locked).length_le

theorem Recorded.outcomes_length (h : s.Recorded history) (locked : s.Locked) :
    (ledger history).stored.length ≤ (ledger history).outcomes.length + 1 := by
  rcases locked.free_or_writing with free | ⟨t, rule, rest, stage, writes⟩
  · rw [(h.free free).2]
    exact Nat.le_succ _
  · rw [(h.inside t rule rest stage writes).ended]
    split <;> omega

theorem Registers.commits_le {box : Mailbox} {calls : CallerLedger} (h : Registers box calls) :
    box.commits.toNat ≤ calls.committed.length := by
  rw [h.commits_eq, UInt64.toNat_ofNat']
  exact Nat.mod_le _ _

end Handshake
end UdpGate
