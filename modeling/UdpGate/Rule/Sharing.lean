import UdpGate.Rule.Published

/-!
# A table shared by threads

Behind a published table stands a pointer to the version that readers see.  To write a rule a caller
takes the writer lock, reads the pointer, copies the version to a cell of its own, writes the rule to
the copy and swaps the pointer.  Readers read the pointer once, without the lock, and may keep the
version that they found.  Each of these is a step here, and a schedule says whose turn it is.

A write that nobody interrupts is `PublishedTable.insert` (`SharedTable.run_insertTurns`).
-/

namespace UdpGate
namespace SharedTable

/-! ## 1. Who does what -/

inductive Stage where
  | snapshot
  | copy (source : Nat)
  | write (cell : Nat)
  | swap (cell : Nat) (displaced : Option RuleKey)
  | unlock (displaced : Option RuleKey)

inductive Caller where
  | away
  | waiting (rule : Rule)
  | writing (rule : Rule) (stage : Stage)

inductive Event where
  | called (caller : Nat) (rule : Rule)
  | entered (caller : Nat) (rule : Rule)
  /-- The pointer was swapped, to a version with the rule. -/
  | swapped (caller : Nat) (rule : Rule)
  | returned (caller : Nat) (rule : Rule) (displaced : Option RuleKey)
  | looked (caller : Nat) (key : RuleKey) (action : Action)
  | snapped (caller : Nat) (cell : Nat)
deriving DecidableEq

inductive Turn where
  | insert (caller : Nat) (rule : Rule)
  | caller (caller : Nat)
  | lookup (caller : Nat) (key : RuleKey)
  | snapshot (caller : Nat)

end SharedTable

/-- The versions of a table, each in a cell, and the callers that use them. -/
structure SharedTable where
  cells : Nat → RuleTable
  fresh : Nat := 1
  current : Nat := 0
  writer : Option Nat := none
  callers : Nat → SharedTable.Caller := fun _ => .away

namespace SharedTable

def start (table : RuleTable) : SharedTable := { cells := fun _ => table }

variable (s : SharedTable)

def published : PublishedTable := ⟨s.cells s.current⟩

/-! ## 2. Steps -/

def withCaller (t : Nat) (caller : Caller) : SharedTable :=
  { s with callers := fun u => if u = t then caller else s.callers u }

def withCell (cell : Nat) (table : RuleTable) : SharedTable :=
  { s with cells := fun c => if c = cell then table else s.cells c }

/-- The turn of a caller.  One that waits for the lock while another is inside does nothing. -/
def callerTurn (t : Nat) : Option Event × SharedTable :=
  match s.callers t with
  | .away => (none, s)
  | .waiting rule =>
    match s.writer with
    | none =>
      (some (.entered t rule), { s.withCaller t (.writing rule .snapshot) with writer := some t })
    | some _ => (none, s)
  | .writing rule stage =>
    match stage with
    | .snapshot => (none, s.withCaller t (.writing rule (.copy s.current)))
    | .copy source =>
      (none, { (s.withCell s.fresh (s.cells source)).withCaller t (.writing rule (.write s.fresh)) with
        fresh := s.fresh + 1 })
    | .write cell =>
      (none, (s.withCell cell ((s.cells cell).insert rule)).withCaller t
        (.writing rule (.swap cell ((s.cells cell).displacedBy? rule.key))))
    | .swap cell displaced =>
      (some (.swapped t rule),
        { s.withCaller t (.writing rule (.unlock displaced)) with current := cell })
    | .unlock displaced =>
      (some (.returned t rule displaced), { s.withCaller t .away with writer := none })

def take : Turn → Option Event × SharedTable
  | .insert t rule =>
    match s.callers t with
    | .away => (some (.called t rule), s.withCaller t (.waiting rule))
    | _ => (none, s)
  | .caller t => s.callerTurn t
  | .lookup t key =>
    match s.callers t with
    | .away => (some (.looked t key (s.published.lookup key)), s)
    | _ => (none, s)
  | .snapshot t =>
    match s.callers t with
    | .away => (some (.snapped t s.current), s)
    | _ => (none, s)

def run (s : SharedTable) : List Turn → List Event × SharedTable
  | [] => ([], s)
  | turn :: turns =>
    let (event, after) := s.take turn
    let (events, last) := after.run turns
    (event.toList ++ events, last)

/-! ## 3. Without interruption -/

theorem run_cons (turn : Turn) (turns : List Turn) :
    s.run (turn :: turns) =
      ((s.take turn).1.toList ++ ((s.take turn).2.run turns).1, ((s.take turn).2.run turns).2) := rfl

theorem run_append (turns later : List Turn) :
    s.run (turns ++ later) =
      ((s.run turns).1 ++ ((s.run turns).2.run later).1, ((s.run turns).2.run later).2) := by
  induction turns generalizing s with
  | nil => rfl
  | cons turn turns ih => rw [List.cons_append, run_cons, run_cons, ih, List.append_assoc]

def insertTurns (t : Nat) (rule : Rule) : List Turn :=
  .insert t rule :: List.replicate 6 (.caller t)

variable {s}

theorem run_insertTurns {t : Nat} (away : s.callers t = .away) (free : s.writer = none)
    (rule : Rule) :
    (s.run (insertTurns t rule)).1 =
        [.called t rule, .entered t rule, .swapped t rule,
          .returned t rule (s.published.displacedBy? rule.key)] ∧
      (s.run (insertTurns t rule)).2.published = s.published.insert rule ∧
      (s.run (insertTurns t rule)).2.callers t = .away ∧
      (s.run (insertTurns t rule)).2.writer = none := by
  simp [insertTurns, List.replicate_succ, run, take, callerTurn, away, free, withCaller, withCell,
    published, PublishedTable.insert, PublishedTable.displacedBy?, PublishedTable.publish,
    PublishedTable.snapshot]

end SharedTable
end UdpGate
