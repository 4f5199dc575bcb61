import UdpGate.Proofs.WriterLock
import UdpGate.Rule.Sharing

/-!
# Writes to a shared table, in one order

Writers copy the version that readers see, and a writer that works on an old copy would lose what
others wrote meanwhile.  The lock excludes that: the copy is in a cell that nobody else knows, and
what it was copied from is still the current version when the pointer is swapped
(`SharedTable.Inside`).  So the table is at any time the initial one with the rules written to it in
the order of the lock, and whoever keeps a version keeps that of a point in this order
(`SharedTable.run_linearized`).
-/

namespace UdpGate
namespace SharedTable

/-! ## 1. What a history tells -/

def Event.swapped? : Event → Option Rule
  | .swapped _ rule => some rule
  | _ => none

def Event.entered? : Event → Option Rule
  | .entered _ rule => some rule
  | _ => none

def written (history : List Event) : List Rule := history.filterMap Event.swapped?

def entries (history : List Event) : List Rule := history.filterMap Event.entered?

def tableAfter (table : RuleTable) (history : List Event) : RuleTable :=
  (written history).foldl RuleTable.insert table

variable {s s' : SharedTable} {event : Event} {history : List Event} {table : RuleTable}

theorem written_append (history later : List Event) :
    written (history ++ later) = written history ++ written later := List.filterMap_append

theorem entries_append (history later : List Event) :
    entries (history ++ later) = entries history ++ entries later := List.filterMap_append

theorem written_concat (history : List Event) (quiet : event.swapped? = none) :
    written (history ++ [event]) = written history := by
  rw [written_append, written, written, List.filterMap_cons, quiet]
  exact List.append_nil _

theorem entries_concat (history : List Event) (quiet : event.entered? = none) :
    entries (history ++ [event]) = entries history := by
  rw [entries_append, entries, entries, List.filterMap_cons, quiet]
  exact List.append_nil _

theorem tableAfter_swapped (table : RuleTable) (history : List Event) (t : Nat) (rule : Rule) :
    tableAfter table (history ++ [.swapped t rule]) = (tableAfter table history).insert rule := by
  rw [tableAfter, written_append, List.foldl_append]
  rfl

/-! ## 2. What a turn can do -/

/-- A turn does nothing, or one of these. -/
inductive Step (s : SharedTable) : Option Event → SharedTable → Prop
  | nothing : Step s none s
  | call (t : Nat) (rule : Rule) (away : s.callers t = .away) :
    Step s (some (.called t rule)) (s.withCaller t (.waiting rule))
  | enter (t : Nat) (rule : Rule) (waits : s.callers t = .waiting rule) (free : s.writer = none) :
    Step s (some (.entered t rule))
      { s.withCaller t (.writing rule .snapshot) with writer := some t }
  | snapshot (t : Nat) (rule : Rule) (writes : s.callers t = .writing rule .snapshot) :
    Step s none (s.withCaller t (.writing rule (.copy s.current)))
  | copy (t : Nat) (rule : Rule) (source : Nat) (writes : s.callers t = .writing rule (.copy source)) :
    Step s none { (s.withCell s.fresh (s.cells source)).withCaller t (.writing rule (.write s.fresh)) with
      fresh := s.fresh + 1 }
  | write (t : Nat) (rule : Rule) (cell : Nat) (writes : s.callers t = .writing rule (.write cell)) :
    Step s none ((s.withCell cell ((s.cells cell).insert rule)).withCaller t
      (.writing rule (.swap cell ((s.cells cell).displacedBy? rule.key))))
  | swap (t : Nat) (rule : Rule) (cell : Nat) (displaced : Option RuleKey)
    (writes : s.callers t = .writing rule (.swap cell displaced)) :
    Step s (some (.swapped t rule))
      { s.withCaller t (.writing rule (.unlock displaced)) with current := cell }
  | unlock (t : Nat) (rule : Rule) (displaced : Option RuleKey)
    (writes : s.callers t = .writing rule (.unlock displaced)) :
    Step s (some (.returned t rule displaced)) { s.withCaller t .away with writer := none }
  | look (t : Nat) (key : RuleKey) :
    Step s (some (.looked t key (s.published.lookup key))) s
  | snap (t : Nat) : Step s (some (.snapped t s.current)) s

theorem step_take (s : SharedTable) (turn : Turn) : Step s (s.take turn).1 (s.take turn).2 := by
  cases turn with
  | insert t rule =>
    rw [take]
    split
    case h_1 away => exact .call t rule away
    case h_2 => exact .nothing
  | caller t =>
    rw [take, callerTurn]
    split
    case h_1 => exact .nothing
    case h_2 rule waits =>
      split
      case h_1 free => exact .enter t rule waits free
      case h_2 => exact .nothing
    case h_3 rule stage writes =>
      cases stage with
      | snapshot => exact .snapshot t rule writes
      | copy source => exact .copy t rule source writes
      | write cell => exact .write t rule cell writes
      | swap cell displaced => exact .swap t rule cell displaced writes
      | unlock displaced => exact .unlock t rule displaced writes
  | lookup t key =>
    rw [take]
    split
    case h_1 => exact .look t key
    case h_2 => exact .nothing
  | snapshot t =>
    rw [take]
    split
    case h_1 => exact .snap t
    case h_2 => exact .nothing

/-! ## 3. What a writer has come to -/

def Stage.hasSwapped : Stage → Bool
  | .unlock _ => true
  | _ => false

def Stage.Prepared (s : SharedTable) (now : RuleTable) (rule : Rule) : Stage → Prop
  | .snapshot => True
  | .copy source => source = s.current
  | .write cell => s.current < cell ∧ cell < s.fresh ∧ s.cells cell = now
  | .swap cell displaced => s.current < cell ∧ cell < s.fresh ∧
      s.cells cell = now.insert rule ∧ displaced = now.displacedBy? rule.key
  | .unlock _ => True

/-- A writer has come to a stage since it took the lock. -/
structure Inside (s : SharedTable) (table : RuleTable) (history : List Event) (t : Nat) (rule : Rule)
    (stage : Stage) : Prop where
  prepared : stage.Prepared s (tableAfter table history) rule
  entry : ∃ before since, history = before ++ .entered t rule :: since ∧ .called t rule ∈ before ∧
    written history = written before ++ (if stage.hasSwapped then [rule] else []) ∧
    ∀ displaced, stage = .unlock displaced →
      displaced = (tableAfter table before).displacedBy? rule.key
  order : entries history = written history ++ if stage.hasSwapped then [] else [rule]

/-- What was seen is right: an answer is that of the table at its place in the order. -/
def Event.Holds (s : SharedTable) (table : RuleTable) (before : List Event) : Event → Prop
  | .returned t rule displaced => ∃ earlier since, before = earlier ++ .entered t rule :: since ∧
      .called t rule ∈ earlier ∧ written before = written earlier ++ [rule] ∧
      displaced = (tableAfter table earlier).displacedBy? rule.key
  | .looked _ key action => action = (tableAfter table before).lookup key
  | .snapped _ cell => cell ≤ s.current ∧ s.cells cell = tableAfter table before
  | _ => True

def Caller.isWriting : Caller → Bool
  | .writing _ _ => true
  | _ => false

/-- The current version is the table with the rules written so far, a writer prepares the next one,
and what was seen is right. -/
structure Follows (s : SharedTable) (table : RuleTable) (history : List Event) : Prop where
  locked : LockedBy s.writer fun t => (s.callers t).isWriting
  current_lt : s.current < s.fresh
  current_eq : s.cells s.current = tableAfter table history
  free : s.writer = none → entries history = written history
  waiting : ∀ t rule, s.callers t = .waiting rule → .called t rule ∈ history
  inside : ∀ t rule stage, s.callers t = .writing rule stage → Inside s table history t rule stage
  seen : ∀ before event, before ++ [event] <+: history → event.Holds s table before

theorem follows_start (table : RuleTable) : (start table).Follows table [] where
  locked t := by simp [start, Caller.isWriting]
  current_lt := Nat.zero_lt_one
  current_eq := rfl
  free _ := rfl
  waiting _ _ waits := nomatch waits
  inside _ _ _ writes := nomatch writes
  seen before event shown := by simp at shown

/-! ## 4. A turn -/

theorem callers_withCaller (s : SharedTable) (t u : Nat) (caller : Caller) :
    (s.withCaller t caller).callers u = if u = t then caller else s.callers u := rfl

theorem isWriting_withCaller (s : SharedTable) (t u : Nat) (caller : Caller) :
    ((s.withCaller t caller).callers u).isWriting =
      if u = t then caller.isWriting else (s.callers u).isWriting := by
  rw [callers_withCaller]
  split <;> rfl

-- Versions that were published stay as they are.
theorem Event.Holds.later {before : List Event} (h : event.Holds s table before)
    (le : s.current ≤ s'.current) (kept : ∀ cell, cell ≤ s.current → s'.cells cell = s.cells cell) :
    event.Holds s' table before := by
  cases event with
  | snapped t cell =>
    obtain ⟨published, same⟩ := h
    exact ⟨Nat.le_trans published le, (kept cell published).trans same⟩
  | returned t rule displaced => exact h
  | looked t key action => exact h
  | _ => trivial

theorem seen_append {seen : Option Event}
    (old : ∀ before event, before ++ [event] <+: history → event.Holds s table before)
    (new : ∀ event, seen = some event → event.Holds s table history) :
    ∀ before event, before ++ [event] <+: history ++ seen.toList → event.Holds s table before := by
  intro before event shown
  cases seen with
  | none =>
    rw [Option.toList_none, List.append_nil] at shown
    exact old before event shown
  | some now =>
    rcases List.prefix_concat_iff.mp shown with whole | earlier
    · obtain ⟨rfl, last⟩ := List.append_inj' whole rfl
      cases last
      exact new event rfl
    · exact old before event earlier

-- Somebody outside the lock does something, and no version changes.
theorem Follows.outside (h : s.Follows table history) {seen : Option Event}
    (cells : s'.cells = s.cells) (fresh : s'.fresh = s.fresh) (current : s'.current = s.current)
    (writer : s'.writer = s.writer)
    (callers : ∀ t rule stage, s'.callers t = .writing rule stage ↔ s.callers t = .writing rule stage)
    (waiting : ∀ t rule, s'.callers t = .waiting rule → .called t rule ∈ history ++ seen.toList)
    (unwritten : written (history ++ seen.toList) = written history)
    (unentered : entries (history ++ seen.toList) = entries history)
    (new : ∀ event, seen = some event → event.Holds s' table history) :
    s'.Follows table (history ++ seen.toList) where
  locked := by
    rw [writer]
    refine h.locked.stay fun t => ?_
    cases was : s.callers t with
    | writing rule stage => rw [(callers t rule stage).mpr was]
    | _ =>
      cases goes : s'.callers t with
      | writing rule stage =>
        rw [(callers t rule stage).mp goes] at was
        cases was
      | _ => rfl
  current_lt := by
    rw [current, fresh]
    exact h.current_lt
  current_eq := by
    rw [cells, current, tableAfter, unwritten]
    exact h.current_eq
  free := by
    rw [writer, unwritten, unentered]
    exact h.free
  waiting := waiting
  inside := by
    intro t rule stage writes
    obtain ⟨prepared, ⟨before, since, shape, called, wrote, displaced⟩, order⟩ :=
      h.inside t rule stage ((callers t rule stage).mp writes)
    refine ⟨?_, ⟨before, since ++ seen.toList, ?_, called, ?_, displaced⟩, ?_⟩
    · have now : tableAfter table (history ++ seen.toList) = tableAfter table history := by
        rw [tableAfter, unwritten, tableAfter]
      rw [now]
      cases stage with
      | snapshot => trivial
      | unlock displaced => trivial
      | copy source => exact Eq.trans prepared current.symm
      | write cell => simpa only [Stage.Prepared, cells, fresh, current] using prepared
      | swap cell displaced => simpa only [Stage.Prepared, cells, fresh, current] using prepared
    · rw [shape, List.append_assoc, List.cons_append]
    · rw [unwritten, wrote]
    · rw [unwritten, unentered, order]
  seen := by
    refine seen_append (fun before event shown => ?_) new
    exact (h.seen before event shown).later (Nat.le_of_eq current.symm) fun cell _ => by rw [cells]

-- The writer goes on to its next stage.
theorem Follows.move (h : s.Follows table history) {seen : Option Event} {t : Nat} {rule : Rule}
    {stage next : Stage} (writes : s.callers t = .writing rule stage)
    (writer : s'.writer = s.writer)
    (callers : ∀ u, s'.callers u = if u = t then .writing rule next else s.callers u)
    (current_lt : s'.current < s'.fresh)
    (current_eq : s'.cells s'.current = tableAfter table (history ++ seen.toList))
    (inside : Inside s' table (history ++ seen.toList) t rule next)
    (le : s.current ≤ s'.current) (kept : ∀ cell, cell ≤ s.current → s'.cells cell = s.cells cell)
    (new : ∀ event, seen = some event → event.Holds s' table history) :
    s'.Follows table (history ++ seen.toList) := by
  exact {
    locked := by
      rw [writer]
      refine h.locked.stay fun u => ?_
      rw [callers]
      split
      case isTrue here =>
        rw [here, writes]
        rfl
      case isFalse => rfl
    current_lt := current_lt
    current_eq := current_eq
    free := by
      rw [writer, h.locked.holder_eq (by rw [writes]; rfl)]
      nofun
    waiting := by
      intro u r waits
      rw [callers] at waits
      split at waits
      case isTrue => cases waits
      case isFalse => exact List.mem_append_left _ (h.waiting u r waits)
    inside := by
      intro u r stage' goes
      rw [callers] at goes
      split at goes
      case isTrue here =>
        cases goes
        rw [here]
        exact inside
      case isFalse here =>
        exact absurd (h.locked.eq_of_inside (by rw [writes]; rfl) (by rw [goes]; rfl)) here
    seen := seen_append (fun before event shown => (h.seen before event shown).later le kept) new }

theorem Follows.enter (h : s.Follows table history) {t : Nat} {rule : Rule}
    (waits : s.callers t = .waiting rule) (free : s.writer = none) :
    { s.withCaller t (.writing rule .snapshot) with writer := some t }.Follows table
      (history ++ (some (Event.entered t rule)).toList) := by
  have unheld : LockedBy none fun u => (s.callers u).isWriting := free ▸ h.locked
  have unwritten : written (history ++ (some (Event.entered t rule)).toList) = written history :=
    written_concat history rfl
  exact {
    locked := unheld.enter fun u => s.isWriting_withCaller t u _
    current_lt := h.current_lt
    current_eq := by
      rw [tableAfter, unwritten]
      exact h.current_eq
    free := nofun
    waiting := by
      intro u r goes
      change (s.withCaller t _).callers u = _ at goes
      rw [callers_withCaller] at goes
      split at goes
      case isTrue => cases goes
      case isFalse => exact List.mem_append_left _ (h.waiting u r goes)
    inside := by
      intro u r stage goes
      change (s.withCaller t _).callers u = _ at goes
      rw [callers_withCaller] at goes
      split at goes
      case isTrue here =>
        cases goes
        rw [here]
        refine ⟨trivial, ⟨history, [], rfl, h.waiting t rule waits, ?_, nofun⟩, ?_⟩
        · rw [unwritten]
          exact (List.append_nil _).symm
        · rw [unwritten, entries_append, h.free free]
          rfl
      case isFalse =>
        have outside : (s.callers u).isWriting = false := unheld.outside_of_free u
        rw [goes] at outside
        cases outside
    seen := seen_append
      (fun before event shown =>
        (h.seen before event shown).later (Nat.le_refl _) fun _ _ => rfl)
      (by rintro _ ⟨⟩; trivial) }

theorem Follows.unlock (h : s.Follows table history) {t : Nat} {rule : Rule}
    {displaced : Option RuleKey} (writes : s.callers t = .writing rule (.unlock displaced)) :
    { s.withCaller t .away with writer := none }.Follows table
      (history ++ (some (Event.returned t rule displaced)).toList) := by
  have inside := h.inside t rule _ writes
  have held : LockedBy (some t) fun u => (s.callers u).isWriting :=
    h.locked.holder_eq (by rw [writes]; rfl) ▸ h.locked
  have unwritten : written (history ++ (some (Event.returned t rule displaced)).toList) =
      written history := written_concat history rfl
  exact {
    locked := held.leave fun u => s.isWriting_withCaller t u _
    current_lt := h.current_lt
    current_eq := by
      rw [tableAfter, unwritten]
      exact h.current_eq
    free := by
      intro _
      rw [unwritten, Option.toList_some, entries_concat history rfl, inside.order]
      exact List.append_nil _
    waiting := by
      intro u r goes
      change (s.withCaller t _).callers u = _ at goes
      rw [callers_withCaller] at goes
      split at goes
      case isTrue => cases goes
      case isFalse => exact List.mem_append_left _ (h.waiting u r goes)
    inside := by
      intro u r stage goes
      change (s.withCaller t _).callers u = _ at goes
      rw [callers_withCaller] at goes
      split at goes
      case isTrue => cases goes
      case isFalse here =>
        have outside : (s.callers u).isWriting = false := held.outside_of_ne here
        rw [goes] at outside
        cases outside
    seen := by
      refine seen_append (fun before event shown =>
        (h.seen before event shown).later (Nat.le_refl _) fun _ _ => rfl) ?_
      rintro _ ⟨⟩
      obtain ⟨before, since, shape, called, wrote, answer⟩ := inside.entry
      exact ⟨before, since, shape, called, wrote, answer displaced rfl⟩ }

-- The stages that nothing is seen of.
theorem Inside.silent {t : Nat} {rule : Rule} {stage next : Stage}
    (h : Inside s table history t rule stage) (before_swap : stage.hasSwapped = false)
    (still : next.hasSwapped = false)
    (prepared : next.Prepared s' (tableAfter table history) rule) :
    Inside s' table (history ++ (none : Option Event).toList) t rule next := by
  rw [Option.toList_none, List.append_nil]
  obtain ⟨before, since, shape, called, wrote, -⟩ := h.entry
  refine ⟨prepared, ⟨before, since, shape, called, ?_, ?_⟩, ?_⟩
  · rw [wrote, before_swap, still]
  · rintro displaced rfl
    cases still
  · rw [h.order, before_swap, still]

theorem Follows.swap (h : s.Follows table history) {t : Nat} {rule : Rule} {cell : Nat}
    {displaced : Option RuleKey} (writes : s.callers t = .writing rule (.swap cell displaced)) :
    { s.withCaller t (.writing rule (.unlock displaced)) with current := cell }.Follows table
      (history ++ (some (Event.swapped t rule)).toList) := by
  have inside := h.inside t rule _ writes
  obtain ⟨above, inside_cells, contents, displaced_eq⟩ := inside.prepared
  obtain ⟨before, since, shape, called, wrote, -⟩ := inside.entry
  have wrote : written history = written before := wrote.trans (List.append_nil _)
  have now : written (history ++ [.swapped t rule]) = written history ++ [rule] :=
    written_append history _
  refine h.move writes rfl (fun _ => rfl) inside_cells ?_ ?_ (Nat.le_of_lt above) (fun _ _ => rfl)
    (by rintro _ ⟨⟩; trivial)
  · rw [Option.toList_some, tableAfter_swapped]
    exact contents
  · refine ⟨trivial, ⟨before, since ++ [.swapped t rule], ?_, called, ?_, ?_⟩, ?_⟩
    · rw [shape, List.append_assoc, List.cons_append]
      rfl
    · rw [Option.toList_some, now, wrote]
      rfl
    · rintro _ ⟨⟩
      rw [displaced_eq, tableAfter, wrote, tableAfter]
    · rw [Option.toList_some, entries_concat history rfl, inside.order, now]
      exact (List.append_nil _).symm

theorem Follows.step (h : s.Follows table history) {seen : Option Event} (step : Step s seen s') :
    s'.Follows table (history ++ seen.toList) := by
  cases step with
  | nothing =>
    rw [Option.toList_none, List.append_nil]
    exact h
  | call t rule away =>
    refine h.outside rfl rfl rfl rfl ?_ ?_ (written_concat history rfl) (entries_concat history rfl)
      (by rintro _ ⟨⟩; trivial)
    · intro u r stage
      rw [callers_withCaller]
      split
      case isTrue here =>
        rw [here, away]
        exact ⟨nofun, nofun⟩
      case isFalse => rfl
    · intro u r waits
      rw [callers_withCaller] at waits
      split at waits
      case isTrue here =>
        cases waits
        rw [here]
        exact List.mem_append_right _ (List.mem_singleton_self _)
      case isFalse => exact List.mem_append_left _ (h.waiting u r waits)
  | enter t rule waits free => exact h.enter waits free
  | snapshot t rule writes =>
    refine h.move writes rfl (fun _ => rfl) h.current_lt ?_ ?_ (Nat.le_refl _) (fun _ _ => rfl) nofun
    · rw [Option.toList_none, List.append_nil]
      exact h.current_eq
    · exact (h.inside t rule _ writes).silent rfl rfl rfl
  | copy t rule source writes =>
    have inside := h.inside t rule _ writes
    obtain rfl : source = s.current := inside.prepared
    have elsewhere (cell : Nat) (old : cell ≤ s.current) :
        (s.withCell s.fresh (s.cells s.current)).cells cell = s.cells cell :=
      if_neg (Nat.ne_of_lt (Nat.lt_of_le_of_lt old h.current_lt))
    refine h.move writes rfl (fun _ => rfl) (Nat.lt_succ_of_lt h.current_lt) ?_ ?_ (Nat.le_refl _)
      elsewhere nofun
    · rw [Option.toList_none, List.append_nil, ← h.current_eq]
      exact elsewhere s.current (Nat.le_refl _)
    · refine inside.silent rfl rfl ⟨h.current_lt, Nat.lt_succ_self _, ?_⟩
      rw [← h.current_eq]
      exact if_pos rfl
  | write t rule cell writes =>
    have inside := h.inside t rule _ writes
    obtain ⟨above, inside_cells, contents⟩ := inside.prepared
    have elsewhere (c : Nat) (old : c ≤ s.current) :
        (s.withCell cell ((s.cells cell).insert rule)).cells c = s.cells c :=
      if_neg (Nat.ne_of_lt (Nat.lt_of_le_of_lt old above))
    refine h.move writes rfl (fun _ => rfl) h.current_lt ?_ ?_ (Nat.le_refl _) elsewhere nofun
    · rw [Option.toList_none, List.append_nil, ← h.current_eq]
      exact elsewhere s.current (Nat.le_refl _)
    · refine inside.silent rfl rfl ⟨above, inside_cells, ?_, ?_⟩
      · rw [← contents]
        exact if_pos rfl
      · rw [contents]
  | swap t rule cell displaced writes => exact h.swap writes
  | unlock t rule displaced writes => exact h.unlock writes
  | look t key =>
    refine h.outside rfl rfl rfl rfl (fun _ _ _ => Iff.rfl)
      (fun u r waits => List.mem_append_left _ (h.waiting u r waits)) (written_concat history rfl)
      (entries_concat history rfl) ?_
    rintro _ ⟨⟩
    exact congrArg (·.lookup key) h.current_eq
  | snap t =>
    refine h.outside rfl rfl rfl rfl (fun _ _ _ => Iff.rfl)
      (fun u r waits => List.mem_append_left _ (h.waiting u r waits)) (written_concat history rfl)
      (entries_concat history rfl) ?_
    rintro _ ⟨⟩
    exact ⟨Nat.le_refl _, h.current_eq⟩

theorem Follows.run (h : s.Follows table history) (turns : List Turn) :
    (s.run turns).2.Follows table (history ++ (s.run turns).1) := by
  induction turns generalizing s history with
  | nil =>
    rw [SharedTable.run, List.append_nil]
    exact h
  | cons turn turns ih =>
    rw [run_cons, ← List.append_assoc]
    exact ih (h.step (s.step_take turn))

/-! ## 5. A run -/

structure Linearized (s : SharedTable) (table : RuleTable) (history : List Event) : Prop where
  current_eq : s.published.current = tableAfter table history
  /-- The rules are written in the order of the lock, and none is lost. -/
  lock_order : written history <+: entries history ∧ (entries history).length ≤
    (written history).length + 1 ∧ (s.writer = none → written history = entries history)
  returned : ∀ before t rule displaced, before ++ [.returned t rule displaced] <+: history →
    ∃ earlier since, before = earlier ++ .entered t rule :: since ∧ .called t rule ∈ earlier ∧
      written before = written earlier ++ [rule] ∧
      displaced = (tableAfter table earlier).displacedBy? rule.key
  looked : ∀ before t key action, before ++ [.looked t key action] <+: history →
    action = (tableAfter table before).lookup key
  snapped : ∀ before t cell, before ++ [.snapped t cell] <+: history →
    s.cells cell = tableAfter table before
  /-- A version taken later has all rules of one taken before, and then those written between. -/
  snapped_later : ∀ before t cell between u later,
    before ++ .snapped t cell :: between ++ [.snapped u later] <+: history →
    s.cells later = (written between).foldl RuleTable.insert (s.cells cell)

theorem Follows.linearized (h : s.Follows table history) : s.Linearized table history where
  current_eq := h.current_eq
  lock_order := by
    cases writer : s.writer with
    | none =>
      rw [h.free writer]
      exact ⟨List.prefix_rfl, Nat.le_succ _, fun _ => rfl⟩
    | some t =>
      have writes : (s.callers t).isWriting = true := (h.locked t).mp writer
      cases caller : s.callers t with
      | writing rule stage =>
        rw [(h.inside t rule stage caller).order]
        refine ⟨List.prefix_append .., ?_, nofun⟩
        rw [List.length_append]
        split <;> simp
      | _ =>
        rw [caller] at writes
        cases writes
  returned before t rule displaced shown := h.seen before _ shown
  looked before t key action shown := h.seen before _ shown
  snapped before t cell shown := (h.seen before _ shown).2
  snapped_later := by
    intro before t cell between u later shown
    have first : before ++ [.snapped t cell] <+: history := by
      refine List.IsPrefix.trans ⟨between ++ [.snapped u later], ?_⟩ shown
      simp
    have held := (h.seen before _ first).2
    have unwritten : written (.snapped t cell :: between) = written between := rfl
    rw [held, (h.seen _ _ shown).2, tableAfter, written_append, unwritten, List.foldl_append,
      tableAfter]

/-! ## 6. A thread of its own -/

inductive Request where
  | setAction (rule : Rule)
  | actionFor (key : RuleKey)

inductive Answer where
  | displaced (key : Option RuleKey)
  | action (action : Action)
deriving DecidableEq

/-- What a plain table answers to calls one after the other. -/
def answers (table : RuleTable) : List Request → List Answer × RuleTable
  | [] => ([], table)
  | .setAction rule :: requests =>
    let (rest, last) := answers (table.insert rule) requests
    (.displaced (table.displacedBy? rule.key) :: rest, last)
  | .actionFor key :: requests =>
    let (rest, last) := answers table requests
    (.action (table.lookup key) :: rest, last)

def Request.turns (t : Nat) : Request → List Turn
  | .setAction rule => insertTurns t rule
  | .actionFor key => [.lookup t key]

def Event.answer? : Event → Option Answer
  | .returned _ _ displaced => some (.displaced displaced)
  | .looked _ _ action => some (.action action)
  | _ => none

theorem run_requests {t : Nat} (away : s.callers t = .away) (free : s.writer = none)
    (requests : List Request) :
    (s.run (requests.flatMap (Request.turns t))).1.filterMap Event.answer? =
        (answers s.published.current requests).1 ∧
      (s.run (requests.flatMap (Request.turns t))).2.published.current =
        (answers s.published.current requests).2 := by
  induction requests generalizing s with
  | nil => exact ⟨rfl, rfl⟩
  | cons request requests ih =>
    rw [List.flatMap_cons, run_append]
    cases request with
    | setAction rule =>
      obtain ⟨events, published, still_away, still_free⟩ := run_insertTurns away free rule
      obtain ⟨rest, last⟩ := ih still_away still_free
      rw [published] at rest last
      refine ⟨?_, last⟩
      show ((s.run (insertTurns t rule)).1 ++ ((s.run (insertTurns t rule)).2.run
        (requests.flatMap (Request.turns t))).1).filterMap Event.answer? = _
      rw [List.filterMap_append, events, rest]
      rfl
    | actionFor key =>
      have looked : s.run (Request.turns t (.actionFor key)) =
          ([.looked t key (s.published.lookup key)], s) := by
        rw [Request.turns, run_cons, take, away]
        rfl
      obtain ⟨rest, last⟩ := ih away free
      rw [looked]
      refine ⟨?_, last⟩
      rw [List.filterMap_append, rest]
      rfl

/-- **A shared table.**  Whatever the schedule, readers see the initial table with the rules written
in the order of the lock, every answer is that of a point in this order, and so is every version that
somebody keeps.  A thread of its own gets the answers of the plain table. -/
theorem run_linearized (table : RuleTable) :
    (∀ turns, ((start table).run turns).2.Linearized table ((start table).run turns).1) ∧
      ∀ t requests, ((start table).run (requests.flatMap (Request.turns t))).1.filterMap
        Event.answer? = (answers table requests).1 := by
  constructor
  · intro turns
    exact ((follows_start table).run turns).linearized
  · intro t requests
    exact (run_requests (s := start table) rfl rfl requests).1

-- Two keys of one slot.  The second writer waits for the lock, and takes the slot from the first.
example :
    ((start .standard).run
      ([.insert 0 ⟨⟨⟨0x0A000005⟩, 9000⟩, .forward⟩, .caller 0, .caller 0,
          .insert 1 ⟨⟨⟨0x0A000025⟩, 9000⟩, .drop⟩, .caller 1, .caller 0, .caller 0,
          .lookup 2 ⟨⟨0x0A000005⟩, 9000⟩, .caller 0, .lookup 2 ⟨⟨0x0A000005⟩, 9000⟩, .caller 0] ++
        List.replicate 6 (.caller 1))).1.filterMap Event.answer? =
      [.action .drop, .action .forward, .displaced none,
        .displaced (some ⟨⟨0x0A000005⟩, 9000⟩)] := by
  decide +kernel

end SharedTable
end UdpGate
