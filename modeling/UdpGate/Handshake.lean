import UdpGate.Install

/-!
# The handshake, one access at a time

Callers on any number of threads install rules through one mailbox while one engine applies them,
and nothing of this happens at once.  A caller takes the writer lock, stores the three registers,
loads two of them again to store the triple, counts its commit, loads its number and polls until
the number is acknowledged or its patience ends.  The engine loads the number of commits and the
triple apart, and acknowledges only after it has written the table.  Here each of these accesses
is a step of its own, and a schedule says whose turn it is.

An engine that nobody interrupts does what `Engine.applyPending` does at once
(`Handshake.run_idleTurns`), and a call during which the engine alone has turns gives the answer of
`Engine.install`, `Engine.update` or `Engine.installAll` (`Handshake.run_call`).
-/

namespace UdpGate
namespace Handshake

/-! ## 1. Who does what -/

inductive Call where
  | install (rule : Rule)
  | update (text : String) (action : Action)
  | installAll (keys : List RuleKey)
deriving DecidableEq

def Call.rules : Call → Except InstallFault (List Rule)
  | .install rule => .ok [rule]
  | .update text action => (keyToInstall text).map fun key => [⟨key, action⟩]
  | .installAll keys => .ok (keys.map fun key => ⟨key, .forward⟩)

inductive Store where
  | address (value : UInt32)
  | port (value : UInt16)
  | code (value : UInt8)
  | triple (staged : StagedRule)
deriving DecidableEq

inductive Outcome where
  | installed
  | failed (fault : InstallFault)
deriving DecidableEq

/-- The access that a caller inside the writer lock makes next. -/
inductive Stage where
  | storeAddress
  | storePort
  | storeCode
  | loadAddress
  | loadPort (address : UInt32)
  | storeTriple (address : UInt32) (port : UInt16)
  | count
  | loadNumber
  | poll (number : UInt64)
  | done (outcome : Outcome)

inductive Caller where
  | away
  | waiting (rule : Rule) (rest : List Rule)
  | writing (rule : Rule) (rest : List Rule) (stage : Stage)
  | returning (outcome : Outcome)

def Caller.ofRules : List Rule → Caller
  | [] => .returning .installed
  | rule :: rest => .waiting rule rest

def Caller.ofCall (call : Call) : Caller :=
  match call.rules with
  | .ok rules => .ofRules rules
  | .error fault => .returning (.failed fault)

def Caller.after (rest : List Rule) : Outcome → Caller
  | .installed => .ofRules rest
  | .failed fault => .returning (.failed fault)

/-- The access that the engine makes next when it finds its feed empty. -/
inductive Taking where
  | loadNumber
  | loadTriple (number : UInt64)
  | insert (pending : PendingRule)
  | acknowledge (number : UInt64)
deriving DecidableEq

inductive Event where
  | called (caller : Nat) (call : Call)
  | entered (caller : Nat) (rule : Rule)
  | stored (caller : Nat) (rule : Rule) (store : Store)
  | committed (caller : Nat) (rule : Rule)
  /-- The installation of a rule ended, and the writer lock was left. -/
  | left (caller : Nat) (rule : Rule) (outcome : Outcome)
  | returned (caller : Nat) (outcome : Outcome)
  /-- The engine loaded the triple, to insert it under the number that it had loaded before. -/
  | took (pending : PendingRule)
  | inserted (pending : PendingRule)
  | acknowledged (number : UInt64)
  | passed (verdict : Verdict)
deriving DecidableEq

/-- Whose turn it is.  A caller that polls may find that its patience has ended, after so many
milliseconds. -/
inductive Turn where
  | call (caller : Nat) (call : Call)
  | caller (caller : Nat) (late : Option Nat)
  | engine
  | chunk (chunk : Chunk)

end Handshake

/-- An engine, the writer lock of its mailbox, and the callers that install rules. -/
structure Handshake where
  engine : Engine
  taking : Handshake.Taking := .loadNumber
  writer : Option Nat := none
  callers : Nat → Handshake.Caller := fun _ => .away

def Handshake.start (lane : Lane) : Handshake := { engine := { lane := lane } }

def Mailbox.store (box : Mailbox) : Handshake.Store → Mailbox
  | .address value => box.stageAddress value
  | .port value => box.stagePort value
  | .code value => box.stageCode value
  | .triple staged => { box with captured := staged.pack }

namespace Handshake

/-! ## 2. Steps -/

def Stage.access (caller : Nat) (rule : Rule) (late : Option Nat) (box : Mailbox) :
    Stage → Option Event × Mailbox × Stage
  | .storeAddress => storing (.address rule.key.address.value) .storePort
  | .storePort => storing (.port rule.key.port) .storeCode
  | .storeCode => storing (.code rule.action.code) .loadAddress
  | .loadAddress => (none, box, .loadPort box.staged.address)
  | .loadPort address => (none, box, .storeTriple address box.staged.port)
  | .storeTriple address port => storing (.triple ⟨address, port, rule.action.code⟩) .count
  | .count => (some (.committed caller rule), box.countCommit, .loadNumber)
  | .loadNumber => (none, box, .poll box.commits)
  | .poll number =>
    if number ≤ box.applied then (none, box, .done .installed)
    else
      match late with
      | some waited => (none, box, .done (.failed (.timeout number waited)))
      | none => (none, box, .poll number)
  | .done outcome => (none, box, .done outcome)
where
  storing (store : Store) (next : Stage) : Option Event × Mailbox × Stage :=
    (some (.stored caller rule store), box.store store, next)

def Taking.access (engine : Engine) : Taking → Option Event × Engine × Taking
  | .loadNumber =>
    if engine.mailbox.commits ≤ engine.applied then (none, engine, .loadNumber)
    else (none, engine, .loadTriple engine.mailbox.commits)
  | .loadTriple number =>
    let pending := { number := number, rule := engine.mailbox.committed.rule }
    (some (.took pending), engine, .insert pending)
  | .insert pending =>
    (some (.inserted pending),
      { engine with lane := engine.lane.insert pending.rule, applied := pending.number },
      .acknowledge pending.number)
  | .acknowledge number =>
    (some (.acknowledged number),
      { engine with mailbox := engine.mailbox.acknowledge number }, .loadNumber)

variable (s : Handshake)

def mailbox : Mailbox := s.engine.mailbox

def table : RuleTable := s.engine.lane.table

def withCaller (t : Nat) (caller : Caller) : Handshake :=
  { s with callers := fun u => if u = t then caller else s.callers u }

def withMailbox (box : Mailbox) : Handshake :=
  { s with engine := { s.engine with mailbox := box } }

/-- The turn of a caller.  One that waits for the lock while another is inside does nothing. -/
def callerTurn (t : Nat) (late : Option Nat) : Option Event × Handshake :=
  match s.callers t with
  | .away => (none, s)
  | .waiting rule rest =>
    match s.writer with
    | none =>
      (some (.entered t rule),
        { s.withCaller t (.writing rule rest .storeAddress) with writer := some t })
    | some _ => (none, s)
  | .writing rule rest stage =>
    match stage with
    | .done outcome =>
      (some (.left t rule outcome), { s.withCaller t (.after rest outcome) with writer := none })
    | stage =>
      let (event, box, next) := stage.access t rule late s.mailbox
      (event, (s.withMailbox box).withCaller t (.writing rule rest next))
  | .returning outcome => (some (.returned t outcome), s.withCaller t .away)

def take : Turn → Option Event × Handshake
  | .call t call =>
    match s.callers t with
    | .away => (some (.called t call), s.withCaller t (.ofCall call))
    | _ => (none, s)
  | .caller t late => s.callerTurn t late
  | .engine =>
    let (event, engine, taking) := s.taking.access s.engine
    (event, { s with engine := engine, taking := taking })
  | .chunk chunk =>
    match s.taking with
    | .loadNumber =>
      let (verdict, lane) := s.engine.lane.classify chunk
      (some (.passed verdict), { s with engine := { s.engine with lane := lane } })
    | _ => (none, s)

def run (s : Handshake) : List Turn → List Event × Handshake
  | [] => ([], s)
  | turn :: turns =>
    let (event, after) := s.take turn
    let (events, last) := after.run turns
    (event.toList ++ events, last)

/-! ## 3. Without interruption -/

theorem run_cons (turn : Turn) (turns : List Turn) :
    s.run (turn :: turns) =
      ((s.take turn).1.toList ++ ((s.take turn).2.run turns).1, ((s.take turn).2.run turns).2) := rfl

theorem run_append (turns later : List Turn) :
    s.run (turns ++ later) =
      ((s.run turns).1 ++ ((s.run turns).2.run later).1, ((s.run turns).2.run later).2) := by
  induction turns generalizing s with
  | nil => rfl
  | cons turn turns ih => rw [List.cons_append, run_cons, run_cons, ih, List.append_assoc]

def idleTurns : List Turn := [.engine, .engine, .engine, .engine]

theorem run_idleTurns (rests : s.taking = .loadNumber) :
    (s.run idleTurns).2 = { s with engine := s.engine.applyPending } := by
  obtain ⟨engine, taking, writer, callers⟩ := s
  obtain rfl : taking = .loadNumber := rests
  by_cases none_waits : engine.mailbox.commits ≤ engine.applied
  · simp [idleTurns, run, take, Taking.access, Engine.applyPending, Engine.pending?,
      Mailbox.pending?, none_waits]
  · simp [idleTurns, run, take, Taking.access, Engine.applyPending, Engine.pending?,
      Mailbox.pending?, none_waits]

theorem run_replicate_idleTurns (rests : s.taking = .loadNumber) (n : Nat) :
    (s.run (List.replicate n idleTurns).flatten).2 = { s with engine := s.engine.idleSteps n } := by
  induction n generalizing s with
  | zero => rfl
  | succ n ih =>
    have step : s.engine.idleStep.2 = s.engine.applyPending := by
      rw [Engine.idleStep, Engine.applyPending]
      cases s.engine.pending? <;> rfl
    rw [List.replicate_succ, List.flatten_cons, run_append]
    show ((s.run idleTurns).2.run _).2 = _
    rw [s.run_idleTurns rests, ih { s with engine := s.engine.applyPending } rests, Engine.idleSteps,
      step]

theorem withCaller_withCaller (t : Nat) (first second : Caller) :
    (s.withCaller t first).withCaller t second = s.withCaller t second := by
  unfold withCaller
  congr
  funext u
  by_cases here : u = t
  · simp [here]
  · simp [here]

theorem withCaller_self (t : Nat) : s.withCaller t (s.callers t) = s := by
  unfold withCaller
  congr
  funext u
  by_cases here : u = t
  · simp [here]
  · simp [here]

def Outcome.of {α : Type} : Except InstallFault α → Outcome
  | .ok _ => .installed
  | .error fault => .failed fault

def installTurns (t patience : Nat) : List Turn :=
  List.replicate 9 (.caller t none) ++ (List.replicate patience idleTurns).flatten ++
    [.caller t (some 0), .caller t none]

def inside (t : Nat) (box : Mailbox) (caller : Caller) : Handshake :=
  { (s.withMailbox box).withCaller t caller with writer := some t }

variable {s} {t : Nat} {rule : Rule} {rest : List Rule}

theorem take_inside {box : Mailbox} {stage : Stage} (late : Option Nat)
    (busy : ∀ outcome, stage ≠ .done outcome) :
    (s.inside t box (.writing rule rest stage)).take (.caller t late) =
      ((stage.access t rule late box).1, s.inside t (stage.access t rule late box).2.1
        (.writing rule rest (stage.access t rule late box).2.2)) := by
  have here : (s.inside t box (.writing rule rest stage)).callers t = .writing rule rest stage :=
    if_pos rfl
  rw [take, callerTurn, here]
  dsimp only
  split
  case h_1 outcome => exact absurd rfl (busy outcome)
  case h_2 =>
    show (_, { ((s.withMailbox _).withCaller t _).withCaller t _ with writer := some t }) = _
    rw [withCaller_withCaller]
    rfl

-- Nine turns take a caller from the lock to its first look at the acknowledged number.
theorem run_commitTurns (free : s.writer = none) (waits : s.callers t = .waiting rule rest) :
    (s.run (List.replicate 9 (.caller t none))).2 =
      s.inside t (s.mailbox.commit rule)
        (.writing rule rest (.poll (s.mailbox.commit rule).commits)) := by
  have enters : (s.take (.caller t none)).2 =
      s.inside t s.mailbox (.writing rule rest .storeAddress) := by
    rw [take, callerTurn, waits]
    dsimp only
    rw [free]
    rfl
  simp only [List.replicate, run_cons, enters]
  iterate 8 rw [take_inside none (by nofun)]
  rfl

theorem access_poll_late (box : Mailbox) (number : UInt64) :
    Stage.access t rule (some 0) box (.poll number) =
      (none, box, .done (.of (box.checkApplied number))) := by
  rw [Stage.access, Mailbox.checkApplied]
  split <;> rfl

-- The engine steps while a caller is inside the lock.
theorem run_inside_idleTurns (rests : s.taking = .loadNumber) (box : Mailbox) (caller : Caller)
    (n : Nat) :
    ((s.inside t box caller).run (List.replicate n idleTurns).flatten).2 =
      { s with engine := { s.engine with mailbox := box }.idleSteps n }.inside t
        ({ s.engine with mailbox := box }.idleSteps n).mailbox caller :=
  run_replicate_idleTurns (s.inside t box caller) rests n

theorem run_inside_late (free : s.writer = none) (box : Mailbox) (number : UInt64) :
    ((s.inside t box (.writing rule rest (.poll number))).run
        [.caller t (some 0), .caller t none]).2 =
      (s.withMailbox box).withCaller t (.after rest (.of (box.checkApplied number))) := by
  have here : (s.inside t box (.writing rule rest
      (.done (.of (box.checkApplied number))))).callers t =
        .writing rule rest (.done (.of (box.checkApplied number))) := if_pos rfl
  rw [run_cons, take_inside _ (by nofun), access_poll_late, run_cons, take, callerTurn, here]
  show { ((s.withMailbox box).withCaller t _).withCaller t _ with writer := none } = _
  rw [withCaller_withCaller, ← free]
  rfl

theorem run_installTurns (rests : s.taking = .loadNumber) (free : s.writer = none)
    (waits : s.callers t = .waiting rule rest) (patience : Nat) :
    (s.run (installTurns t patience)).2 =
      { s with engine := (s.engine.install patience rule).2 }.withCaller t
        (.after rest (.of (s.engine.install patience rule).1)) := by
  rw [installTurns, run_append, run_append]
  dsimp only
  rw [run_commitTurns free waits, run_inside_idleTurns rests]
  exact @run_inside_late { s with engine := (s.engine.install patience rule).2 } t rule rest free _ _

/-- What a call does at once, with the engine alone taking turns meanwhile. -/
def Call.atOnce (patience : Nat) (engine : Engine) : Call → Outcome × Engine
  | .install rule =>
    let (result, after) := engine.install patience rule
    (.of result, after)
  | .update text action =>
    let (result, after) := engine.update patience text action
    (.of result, after)
  | .installAll keys =>
    let (result, after) := engine.installAll patience keys
    (.of result, after)

def installRules (patience : Nat) (engine : Engine) : List Rule → Outcome × Engine
  | [] => (.installed, engine)
  | rule :: rules =>
    match engine.install patience rule with
    | (.ok (), after) => installRules patience after rules
    | (.error fault, after) => (.failed fault, after)

theorem installRules_singleton (patience : Nat) (engine : Engine) (rule : Rule) :
    installRules patience engine [rule] =
      (.of (engine.install patience rule).1, (engine.install patience rule).2) := by
  rw [installRules]
  split
  case h_1 after answer => rw [answer]; rfl
  case h_2 fault after answer => rw [answer]; rfl

theorem installRules_map (patience : Nat) (engine : Engine) (keys : List RuleKey) :
    installRules patience engine (keys.map fun key => ⟨key, .forward⟩) =
      (.of (engine.installAll patience keys).1, (engine.installAll patience keys).2) := by
  induction keys generalizing engine with
  | nil => rfl
  | cons key keys ih =>
    rw [List.map_cons, installRules, Engine.installAll, installEach]
    split
    case h_1 after answer =>
      rw [answer]
      exact ih after
    case h_2 fault after answer =>
      rw [answer]
      rfl

theorem Call.atOnce_eq (patience : Nat) (engine : Engine) (call : Call) :
    call.atOnce patience engine =
      match call.rules with
      | .ok rules => installRules patience engine rules
      | .error fault => (.failed fault, engine) := by
  cases call with
  | install rule => exact (installRules_singleton patience engine rule).symm
  | installAll keys => exact (installRules_map patience engine keys).symm
  | update text action =>
    rw [atOnce, Engine.update, rules]
    cases keyToInstall text with
    | error fault => rfl
    | ok key =>
      refine Eq.trans ?_ (installRules_singleton patience engine ⟨key, action⟩).symm
      show (Outcome.of ((engine.install patience ⟨key, action⟩).1.map _), _) = _
      cases (engine.install patience ⟨key, action⟩).1 <;> rfl

-- By induction on the rules, up to the first that fails.
theorem run_installRules {rules : List Rule} (rests : s.taking = .loadNumber)
    (free : s.writer = none) (patience : Nat) (asks : s.callers t = .ofRules rules) :
    ∃ turns, (s.run turns).2 = { s with engine := (installRules patience s.engine rules).2 }.withCaller
      t (.returning (installRules patience s.engine rules).1) := by
  induction rules generalizing s with
  | nil =>
    refine ⟨[], ?_⟩
    have asks : s.callers t = .returning .installed := asks
    show s = s.withCaller t (.returning .installed)
    rw [← asks, withCaller_self]
  | cons rule rules ih =>
    have ran := run_installTurns rests free asks patience
    rw [installRules]
    split
    case h_1 after answer =>
      rw [answer] at ran
      obtain ⟨turns, rest⟩ := @ih ({ s with engine := after }.withCaller t (.ofRules rules)) rests
        free (if_pos rfl)
      refine ⟨installTurns t patience ++ turns, ?_⟩
      rw [run_append]
      dsimp only
      rw [ran]
      exact rest.trans
        (withCaller_withCaller { s with engine := (installRules patience after rules).2 } t _ _)
    case h_2 fault after answer =>
      rw [answer] at ran
      exact ⟨installTurns t patience, ran⟩

/-- **A call at once.**  Every call has a schedule during which the engine alone has turns besides
the caller, and there the call does what it does at once. -/
theorem run_call (rests : s.taking = .loadNumber) (free : s.writer = none)
    (away : s.callers t = .away) (patience : Nat) (call : Call) :
    ∃ turns events, s.run turns =
      (events ++ [.returned t (call.atOnce patience s.engine).1],
        { s with engine := (call.atOnce patience s.engine).2 }) := by
  let calling := s.withCaller t (.ofCall call)
  have calls : s.take (.call t call) = (some (.called t call), calling) := by
    rw [take, away]
  -- The call comes to its answer.
  obtain ⟨turns, ran⟩ : ∃ turns, (calling.run turns).2 =
      { s with engine := (call.atOnce patience s.engine).2 }.withCaller t
        (.returning (call.atOnce patience s.engine).1) := by
    rw [Call.atOnce_eq]
    cases asks : call.rules with
    | error fault =>
      refine ⟨[], ?_⟩
      show s.withCaller t (.ofCall call) = s.withCaller t (.returning (.failed fault))
      rw [Caller.ofCall, asks]
    | ok rules =>
      have waits : calling.callers t = .ofRules rules := by
        show (if t = t then Caller.ofCall call else s.callers t) = _
        rw [if_pos rfl, Caller.ofCall, asks]
      obtain ⟨turns, ran⟩ := @run_installRules calling t rules rests free patience waits
      exact ⟨turns, ran.trans
        (withCaller_withCaller { s with engine := (installRules patience s.engine rules).2 } t _ _)⟩
  let answered := { s with engine := (call.atOnce patience s.engine).2 }.withCaller t
    (.returning (call.atOnce patience s.engine).1)
  have returns : answered.take (.caller t none) =
      (some (.returned t (call.atOnce patience s.engine).1),
        { s with engine := (call.atOnce patience s.engine).2 }) := by
    have here : answered.callers t = .returning (call.atOnce patience s.engine).1 := if_pos rfl
    rw [take, callerTurn, here]
    refine Prod.ext rfl ((withCaller_withCaller _ t _ _).trans ?_)
    rw [← away]
    exact withCaller_self { s with engine := (call.atOnce patience s.engine).2 } t
  refine ⟨.call t call :: turns ++ [.caller t none], .called t call :: (calling.run turns).1, ?_⟩
  rw [List.cons_append, run_cons, run_append, calls]
  dsimp only
  rw [ran, run_cons, returns]
  rfl

end Handshake
end UdpGate
