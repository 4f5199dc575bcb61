import UdpGate.Proofs.HandshakeRun

/-!
# Which commits are applied

The mailbox has one place.  A caller whose patience ends leaves the writer lock with its commit
still outstanding, and the next installation then replaces that commit: the rule is never written to
the table.  This is the only way (`Handshake.run_settles`).  As long as each installation finds all
commits acknowledged when it takes the lock, the rules written are those committed, each once and in
order.
-/

namespace UdpGate
namespace Handshake

variable {s s' : Handshake} {event : Option Event} {history : List Event} {table : RuleTable}

/-! ## 1. How installations ended -/

/-- An installation that ended well had its rule inserted and its number acknowledged; one that gave
up names its own number. -/
structure Ended (box : Mailbox) (book : Ledger) : Prop where
  inserted : ∀ i, book.outcomes[i]? = some .installed → i + 1 < UInt64.size →
    ∃ insertion ∈ book.inserted, insertion.commit = i + 1
  acknowledged : ∀ i, book.outcomes[i]? = some .installed → i + 1 < UInt64.size →
    i + 1 ≤ box.applied.toNat
  failed : ∀ (i : Nat) (fault : InstallFault), book.outcomes[i]? = some (.failed fault) →
    ∃ waited, fault = .timeout (UInt64.ofNat (i + 1)) waited

theorem ended_start (lane : Lane) : Ended (start lane).mailbox (ledger []) where
  inserted _ found := nomatch found
  acknowledged _ found := nomatch found
  failed _ _ found := nomatch found

theorem Ledger.inserted_note (book : Ledger) (event : Event) :
    book.inserted <+: (book.note event).inserted := by
  unfold note
  split
  case h_5 => exact List.prefix_append ..
  all_goals exact List.prefix_rfl

theorem Ledger.outcomes_note (book : Ledger) {event : Event}
    (stays : ∀ t rule outcome, event ≠ .left t rule outcome) :
    (book.note event).outcomes = book.outcomes := by
  unfold note
  split
  case h_3 t rule outcome => exact absurd rfl (stays t rule outcome)
  all_goals rfl

theorem Step.applied_le (step : Step s event s') : s.mailbox.applied ≤ s'.mailbox.applied := by
  cases step with
  | access t rule rest stage late writes busy =>
    exact UInt64.le_of_eq (stage.applied_access t rule late s.mailbox).symm
  | engine =>
    show s.engine.mailbox.applied ≤ (s.taking.access s.engine).2.1.mailbox.applied
    cases s.taking with
    | loadNumber =>
      rw [Taking.access]
      split <;> exact UInt64.le_refl _
    | acknowledge number => exact s.engine.mailbox.le_applied_acknowledge number
    | _ => exact UInt64.le_refl _
  | _ => exact UInt64.le_refl _

-- Whatever happens besides the end of an installation, insertions and acknowledgements stay.
theorem Ended.grow {box box' : Mailbox} {book book' : Ledger} (h : Ended box book)
    (outcomes : book'.outcomes = book.outcomes) (inserted : book.inserted <+: book'.inserted)
    (applied : box.applied ≤ box'.applied) : Ended box' book' where
  inserted i found few := by
    obtain ⟨insertion, mem, commit⟩ := h.inserted i (outcomes ▸ found) few
    exact ⟨insertion, inserted.subset mem, commit⟩
  acknowledged i found few :=
    Nat.le_trans (h.acknowledged i (outcomes ▸ found) few) (UInt64.le_iff_toNat_le.mp applied)
  failed i fault found := h.failed i fault (outcomes ▸ found)

theorem getElem?_concat_eq_some {α : Type} {l : List α} {a b : α} {i : Nat}
    (found : (l ++ [a])[i]? = some b) : l[i]? = some b ∨ i = l.length ∧ b = a := by
  rw [List.getElem?_append] at found
  split at found
  · exact .inl found
  · rw [List.getElem?_singleton] at found
    split at found
    · cases found
      exact .inr ⟨by omega, rfl⟩
    · cases found

theorem Ended.leave (h : Ended s.mailbox (ledger history)) (follows : s.Follows table history)
    {t : Nat} {rule : Rule} {rest : List Rule} {outcome : Outcome}
    (writes : s.callers t = .writing rule rest (.done outcome)) :
    Ended s.mailbox (ledger (history ++ [.left t rule outcome])) := by
  have inside := follows.recorded.inside t rule rest _ writes
  have length : (ledger history).stored.length = (ledger history).outcomes.length + 1 := inside.ended
  have counted : s.mailbox.commits = UInt64.ofNat ((ledger history).outcomes.length + 1) := by
    have committed := congrArg List.length inside.committed
    rw [List.length_map, length] at committed
    rw [follows.recorded.registers.commits_eq]
    exact congrArg UInt64.ofNat (committed.trans (congrArg List.length (List.append_nil _))).symm
  rw [ledger_concat]
  constructor
  case inserted =>
    intro i found few
    rcases getElem?_concat_eq_some found with before | ⟨rfl, rfl⟩
    · exact h.inserted i before few
    · obtain ⟨-, -, -, -, -, pending, -, -, mem⟩ := follows.installed writes (length ▸ few)
      exact ⟨_, mem, length⟩
  case acknowledged =>
    intro i found few
    rcases getElem?_concat_eq_some found with before | ⟨rfl, rfl⟩
    · exact h.acknowledged i before few
    · have applied : s.mailbox.commits ≤ s.mailbox.applied := inside.relies
      rw [counted, UInt64.le_iff_toNat_le, UInt64.toNat_ofNat_of_lt' few] at applied
      exact applied
  case failed =>
    intro i fault found
    rcases getElem?_concat_eq_some found with before | ⟨rfl, rfl⟩
    · exact h.failed i fault before
    · rw [← counted]
      exact inside.relies

theorem Ended.step (h : Ended s.mailbox (ledger history)) (follows : s.Follows table history)
    (step : Step s event s') : Ended s'.mailbox (ledger (history ++ event.toList)) := by
  cases event with
  | none =>
    rw [Option.toList_none, List.append_nil]
    exact h.grow rfl List.prefix_rfl step.applied_le
  | some event =>
    rw [Option.toList_some]
    by_cases leaves : ∃ t rule outcome, event = .left t rule outcome
    · obtain ⟨t, rule, outcome, rfl⟩ := leaves
      obtain ⟨rest, writes⟩ := step.of_left rfl
      exact (h.leave follows writes).grow rfl List.prefix_rfl step.applied_le
    · rw [ledger_concat]
      refine h.grow (Ledger.outcomes_note _ ?_) (Ledger.inserted_note _ event) step.applied_le
      exact fun t rule outcome is => leaves ⟨t, rule, outcome, is⟩

theorem Ended.run (h : Ended s.mailbox (ledger history)) (follows : s.Follows table history)
    (turns : List Turn) : Ended (s.run turns).2.mailbox (ledger (history ++ (s.run turns).1)) := by
  induction turns generalizing s history with
  | nil =>
    rw [Handshake.run, List.append_nil]
    exact h
  | cons turn turns ih =>
    rw [run_cons, ← List.append_assoc]
    exact ih (h.step follows (s.step_take turn)) (follows.take turn)

/-! ## 2. Taking the lock -/

theorem Follows.applied_le (h : s.Follows table history) :
    s.engine.applied.toNat ≤ (ledger history).stored.length := by
  rcases h.applied.reached with none_applied | ⟨insertion, mem, reached⟩
  · rw [none_applied]
    exact Nat.zero_le _
  · exact Nat.le_trans reached (commit_le_stored history insertion mem)

-- Outside the lock every triple stored is counted, and its installation has ended.
theorem Follows.commits_eq (h : s.Follows table history) (free : s.writer = none)
    (few : (ledger history).stored.length < UInt64.size) :
    s.mailbox.commits.toNat = (ledger history).outcomes.length := by
  obtain ⟨even, ended⟩ := h.recorded.free free
  rw [h.recorded.registers.commits_eq, ← even, List.length_map, ended]
  exact UInt64.toNat_ofNat_of_lt' (ended ▸ few)

/-- **Outstanding commits.**  Whoever takes the lock finds the latest commit acknowledged, or else
the installation before gave that commit up. -/
theorem Follows.entry (h : s.Follows table history) (ended : Ended s.mailbox (ledger history))
    (free : s.writer = none) (few : (ledger history).stored.length < UInt64.size) :
    s.mailbox.applied = s.mailbox.commits ∨ s.mailbox.applied < s.mailbox.commits ∧
      ∃ waited, (ledger history).outcomes.getLast? =
        some (.failed (.timeout s.mailbox.commits waited)) := by
  have commits := h.commits_eq free few
  have even := (h.recorded.free free).2
  have le : s.mailbox.applied ≤ s.mailbox.commits := by
    have := UInt64.le_iff_toNat_le.mp h.applied.acknowledged
    have := h.applied_le
    rw [UInt64.le_iff_toNat_le, commits]
    exact Nat.le_trans (Nat.le_trans ‹_› ‹_›) (Nat.le_of_eq even)
  by_cases same : s.mailbox.applied = s.mailbox.commits
  · exact .inl same
  · have less : s.mailbox.applied < s.mailbox.commits :=
      UInt64.lt_of_le_of_ne le same
    have behind := UInt64.lt_iff_toNat_lt.mp less
    rw [commits] at behind
    refine .inr ⟨less, ?_⟩
    have last : (ledger history).outcomes.length - 1 + 1 = (ledger history).outcomes.length := by omega
    rw [List.getLast?_eq_getElem?]
    cases found : (ledger history).outcomes[(ledger history).outcomes.length - 1]? with
    | none =>
      have := List.getElem?_eq_none_iff.mp found
      omega
    | some outcome =>
      cases outcome with
      | installed =>
        have := ended.acknowledged _ found (by omega)
        omega
      | failed fault =>
        obtain ⟨waited, rfl⟩ := ended.failed _ fault found
        refine ⟨waited, ?_⟩
        rw [last, ← commits, UInt64.ofNat_toNat]

/-! ## 3. Installations that find everything acknowledged -/

def entersInStep (s : Handshake) (turn : Turn) : Bool :=
  match (s.take turn).1 with
  | some (.entered _ _) => s.mailbox.applied == s.mailbox.commits
  | _ => true

/-- Whenever the lock is taken in a schedule, all commits are acknowledged. -/
def orderly (s : Handshake) : List Turn → Bool
  | [] => true
  | turn :: turns => s.entersInStep turn && (s.take turn).2.orderly turns

def Taking.InStep (applied : Nat) (book : Ledger) : Taking → Prop
  | .loadTriple number => number.toNat = applied + 1 ∧ book.stored.length = applied + 1 ∧
      book.committed.length = applied + 1
  | .insert pending => pending.number.toNat = applied + 1 ∧ book.taken = applied + 1 ∧
      book.committed.length = applied + 1
  | _ => True

/-- The commits are applied one by one, and nobody stores a triple before they are all applied. -/
structure InStep (s : Handshake) (book : Ledger) : Prop where
  inserted : book.inserted.map Insertion.commit = List.range' 1 s.engine.applied.toNat
  applied_le : s.engine.applied.toNat ≤ book.committed.length
  committed_le : book.committed.length ≤ s.engine.applied.toNat + 1
  early : ∀ t rule rest stage, s.callers t = .writing rule rest stage →
    stage.hasCommitted = false → book.committed.length = s.engine.applied.toNat
  taking : s.taking.InStep s.engine.applied.toNat book

theorem inStep_start (lane : Lane) : (start lane).InStep (ledger []) where
  inserted := rfl
  applied_le := Nat.le_refl 0
  committed_le := Nat.zero_le 1
  early _ _ _ _ writes := nomatch writes
  taking := trivial

-- A turn that commits nothing and is not the engine's.
theorem InStep.keep {book book' : Ledger} (h : s.InStep book)
    (inserted : book'.inserted = book.inserted) (committed : book'.committed = book.committed)
    (taken : book'.taken = book.taken) (engine : s'.engine.applied = s.engine.applied)
    (taking : s'.taking = s.taking)
    (stored : book'.stored = book.stored ∨ book.committed.length = s.engine.applied.toNat)
    (early : ∀ t rule rest stage, s'.callers t = .writing rule rest stage →
      stage.hasCommitted = false → book.committed.length = s.engine.applied.toNat) :
    s'.InStep book' where
  inserted := by rw [inserted, engine, h.inserted]
  applied_le := by rw [committed, engine]; exact h.applied_le
  committed_le := by rw [committed, engine]; exact h.committed_le
  early := by rw [committed, engine]; exact early
  taking := by
    have knows := h.taking
    rw [taking, engine]
    cases hand : s.taking with
    | loadTriple number =>
      rw [hand] at knows
      obtain ⟨number_eq, stored_eq, ahead⟩ := knows
      rcases stored with same | applied
      · exact ⟨number_eq, same ▸ stored_eq, committed ▸ ahead⟩
      · omega
    | insert pending =>
      rw [hand] at knows
      exact ⟨knows.1, taken ▸ knows.2.1, committed ▸ knows.2.2⟩
    | _ => trivial

-- A commit is counted while all earlier ones are applied.
theorem InStep.count {book : Ledger} (h : s.InStep book) (locked : s'.Locked) {t : Nat} {rule : Rule}
    {rest : List Rule} (applied : book.committed.length = s.engine.applied.toNat)
    (engine : s'.engine.applied = s.engine.applied) (taking : s'.taking = s.taking)
    (writes : s'.callers t = .writing rule rest .loadNumber) :
    s'.InStep { book with committed := book.committed ++ [rule] } where
  inserted := by rw [engine, h.inserted]
  applied_le := by
    rw [engine, List.length_append, applied]
    exact Nat.le_add_right _ _
  committed_le := by
    rw [engine, List.length_append, applied]
    exact Nat.le_refl _
  early := by
    intro u other others stage also uncounted
    obtain rfl := locked.eq_of_writing writes also
    rw [writes] at also
    cases also
    cases uncounted
  taking := by
    have knows := h.taking
    rw [taking, engine]
    cases hand : s.taking with
    | loadTriple number =>
      rw [hand] at knows
      have := knows.2.2
      omega
    | insert pending =>
      rw [hand] at knows
      have := knows.2.2
      omega
    | _ => trivial

theorem InStep.enter (h : s.InStep (ledger history)) (follows : s.Follows table history)
    (few : (ledger history).stored.length < UInt64.size) {t : Nat} {rule : Rule} {rest : List Rule}
    (free : s.writer = none) (acknowledged : s.mailbox.applied = s.mailbox.commits) :
    { s.withCaller t (.writing rule rest .storeAddress) with writer := some t }.InStep
      (ledger (history ++ [Event.entered t rule])) := by
  have applied : (ledger history).committed.length = s.engine.applied.toNat := by
    obtain ⟨even, ended⟩ := follows.recorded.free free
    have commits := follows.commits_eq free few
    have reached := UInt64.le_iff_toNat_le.mp follows.applied.acknowledged
    have le := h.applied_le
    have length := congrArg List.length even
    rw [List.length_map] at length
    change s.mailbox.applied.toNat ≤ _ at reached
    rw [acknowledged] at reached
    omega
  rw [ledger_concat]
  exact h.keep rfl rfl rfl rfl rfl (.inl rfl) (fun _ _ _ _ _ _ => applied)

theorem Stage.access_of_ne_count (t : Nat) (rule : Rule) (late : Option Nat) (box : Mailbox)
    {stage : Stage} (busy : ∀ outcome, stage ≠ .done outcome) (other : stage ≠ .count)
    (history : List Event) :
    (stage.access t rule late box).2.2.hasCommitted = stage.hasCommitted ∧
      (ledger (history ++ (stage.access t rule late box).1.toList)).committed =
        (ledger history).committed ∧
      ((ledger (history ++ (stage.access t rule late box).1.toList)).stored =
        (ledger history).stored ∨ stage.hasCommitted = false) := by
  rw [ledger_append]
  cases stage with
  | count => exact absurd rfl other
  | done outcome => exact absurd rfl (busy outcome)
  | poll number =>
    rw [Stage.access.eq_def]
    cases late <;> simp only <;> split <;> exact ⟨rfl, rfl, .inl rfl⟩
  | storeTriple address port => exact ⟨rfl, rfl, .inr rfl⟩
  | _ => exact ⟨rfl, rfl, .inl rfl⟩

theorem InStep.access (h : s.InStep (ledger history)) {t : Nat} {rule : Rule} {rest : List Rule}
    {stage : Stage} (late : Option Nat) (writes : s.callers t = .writing rule rest stage)
    (busy : ∀ outcome, stage ≠ .done outcome)
    (locked : ((s.withMailbox (stage.access t rule late s.mailbox).2.1).withCaller t
      (.writing rule rest (stage.access t rule late s.mailbox).2.2)).Locked) :
    ((s.withMailbox (stage.access t rule late s.mailbox).2.1).withCaller t
        (.writing rule rest (stage.access t rule late s.mailbox).2.2)).InStep
      (ledger (history ++ (stage.access t rule late s.mailbox).1.toList)) := by
  by_cases counts : stage = .count
  · subst counts
    have now : (ledger (history ++ (Stage.access t rule late s.mailbox .count).1.toList)) =
        { ledger history with committed := (ledger history).committed ++ [rule] } :=
      ledger_concat history _
    rw [now]
    exact h.count locked (h.early t rule rest .count writes rfl) rfl rfl (if_pos rfl)
  · obtain ⟨taken, inserted⟩ := stage.note_access t rule late s.mailbox history
    obtain ⟨side, committed, stored⟩ :=
      Stage.access_of_ne_count t rule late s.mailbox busy counts history
    refine h.keep inserted committed taken rfl rfl (stored.imp_right ?_) ?_
    · exact h.early t rule rest stage writes
    · intro u r others next goes uncounted
      rw [callers_withCaller] at goes
      split at goes
      case isTrue here =>
        cases goes
        exact h.early t rule rest stage writes (side ▸ uncounted)
      case isFalse => exact h.early u r others next goes uncounted

theorem InStep.withCaller {book book' : Ledger} (h : s.InStep book) {t : Nat} {caller : Caller}
    (outside : caller.isWriting = false) (same : book' = book) :
    (s.withCaller t caller).InStep book' := by
  subst same
  refine h.keep rfl rfl rfl rfl rfl (.inl rfl) ?_
  intro u rule rest stage writes uncounted
  rw [callers_withCaller] at writes
  split at writes
  case isTrue =>
    rw [writes] at outside
    cases outside
  case isFalse => exact h.early u rule rest stage writes uncounted

-- Where the engine loads a number that is not applied, every triple is counted: a caller that has
-- stored one and not counted it took the lock when everything was applied.
theorem InStep.loadNumber (h : s.InStep (ledger history)) (follows : s.Follows table history)
    (few : (ledger history).stored.length < UInt64.size)
    (waits : ¬ s.mailbox.commits ≤ s.engine.applied) :
    (Taking.loadTriple s.mailbox.commits).InStep s.engine.applied.toNat (ledger history) := by
  have committed_le := follows.recorded.committed_le follows.locked
  have commits : s.mailbox.commits.toNat = (ledger history).committed.length := by
    rw [follows.recorded.registers.commits_eq]
    exact UInt64.toNat_ofNat_of_lt' (Nat.lt_of_le_of_lt committed_le few)
  have behind : (ledger history).committed.length = s.engine.applied.toNat + 1 := by
    have := h.committed_le
    rw [UInt64.le_iff_toNat_le, commits] at waits
    omega
  have counted : (ledger history).stored.length = (ledger history).committed.length := by
    rw [← List.length_map Prod.snd]
    rcases follows.locked.free_or_writing with free | ⟨t, rule, rest, stage, writes⟩
    · rw [(follows.recorded.free free).1]
    · cases side : stage.hasCommitted with
      | false =>
        have := h.early t rule rest stage writes side
        omega
      | true =>
        rw [(follows.recorded.inside t rule rest stage writes).committed, side, Bool.not_true,
          Bool.and_false]
        exact congrArg List.length (List.append_nil _)
  exact ⟨commits.trans behind, counted.trans behind, behind⟩

theorem InStep.engine (h : s.InStep (ledger history)) (follows : s.Follows table history)
    (few : (ledger history).stored.length < UInt64.size) :
    { s with
        engine := (s.taking.access s.engine).2.1
        taking := (s.taking.access s.engine).2.2 }.InStep
      (ledger (history ++ (s.taking.access s.engine).1.toList)) := by
  have knows := h.taking
  cases hand : s.taking with
  | loadNumber =>
    rw [Taking.access]
    split
    case isTrue =>
      rw [Option.toList_none, List.append_nil]
      exact ⟨h.inserted, h.applied_le, h.committed_le, h.early, trivial⟩
    case isFalse waits =>
      rw [Option.toList_none, List.append_nil]
      exact ⟨h.inserted, h.applied_le, h.committed_le, h.early, h.loadNumber follows few waits⟩
  | loadTriple number =>
    rw [hand] at knows
    rw [Taking.access, Option.toList_some, ledger_concat]
    exact ⟨h.inserted, h.applied_le, h.committed_le, h.early, knows⟩
  | insert pending =>
    rw [hand] at knows
    obtain ⟨number, taken, behind⟩ := knows
    rw [Taking.access, Option.toList_some, ledger_concat]
    constructor
    case inserted =>
      show ((ledger history).inserted ++ [_]).map Insertion.commit =
        List.range' 1 pending.number.toNat
      rw [List.map_append, h.inserted, number, List.range'_concat, List.map_singleton, taken,
        Nat.one_mul, Nat.add_comm]
    case applied_le => exact Nat.le_of_eq (number.trans behind.symm)
    case committed_le =>
      show (ledger history).committed.length ≤ pending.number.toNat + 1
      omega
    case early =>
      intro t rule rest stage writes uncounted
      have := h.early t rule rest stage writes uncounted
      omega
    case taking => trivial
  | acknowledge number =>
    rw [Taking.access, Option.toList_some, ledger_concat]
    exact ⟨h.inserted, h.applied_le, h.committed_le, h.early, trivial⟩

theorem InStep.step (h : s.InStep (ledger history)) (follows : s.Follows table history)
    (few : (ledger history).stored.length < UInt64.size) (step : Step s event s')
    (orderly : ∀ t rule, event = some (.entered t rule) → s.mailbox.applied = s.mailbox.commits) :
    s'.InStep (ledger (history ++ event.toList)) := by
  have locked := follows.locked.step step
  cases step with
  | nothing =>
    rw [Option.toList_none, List.append_nil]
    exact h
  | call t call away => exact h.withCaller (isWriting_ofCall call) (ledger_concat history _)
  | enter t rule rest waits free => exact h.enter follows few free (orderly t rule rfl)
  | access t rule rest stage late writes busy => exact h.access late writes busy locked
  | leave t rule rest outcome writes =>
    have out : (s.withCaller t (.after rest outcome)).InStep (ledger history) :=
      h.withCaller (isWriting_after rest outcome) rfl
    rw [Option.toList_some, ledger_concat]
    exact ⟨out.inserted, out.applied_le, out.committed_le, out.early, out.taking⟩
  | finish t outcome returns => exact h.withCaller rfl (ledger_concat history _)
  | engine => exact h.engine follows few
  | pass chunk rests =>
    rw [Option.toList_some, ledger_concat]
    exact ⟨h.inserted, h.applied_le, h.committed_le, h.early, h.taking⟩

theorem orderly_append (s : Handshake) (turns later : List Turn) :
    s.orderly (turns ++ later) = (s.orderly turns && (s.run turns).2.orderly later) := by
  induction turns generalizing s with
  | nil => rfl
  | cons turn turns ih => rw [List.cons_append, orderly, orderly, ih, Bool.and_assoc, run_cons]

theorem entersInStep_iff (s : Handshake) (turn : Turn) :
    s.entersInStep turn ↔
      ∀ t rule, (s.take turn).1 = some (.entered t rule) → s.mailbox.applied = s.mailbox.commits := by
  rw [entersInStep]
  split
  case h_1 t rule entered => simp [entered]
  case h_2 other =>
    simp only [true_iff]
    exact fun t rule entered => absurd entered (other t rule)

theorem InStep.run (h : s.InStep (ledger history)) (follows : s.Follows table history)
    (turns : List Turn) (orderly : s.orderly turns)
    (few : (ledger (history ++ (s.run turns).1)).stored.length < UInt64.size) :
    (s.run turns).2.InStep (ledger (history ++ (s.run turns).1)) := by
  induction turns generalizing s history with
  | nil =>
    rw [Handshake.run, List.append_nil]
    exact h
  | cons turn turns ih =>
    rw [Handshake.orderly, Bool.and_eq_true, entersInStep_iff] at orderly
    have now := Nat.lt_of_le_of_lt (stored_extends history _).length_le few
    have next := h.step follows now (s.step_take turn) orderly.1
    rw [run_cons, ← List.append_assoc] at few ⊢
    exact ih next (follows.take turn) orderly.2 few

/-! ## 4. What is left behind a last step on an empty feed -/

-- No turn of the engine takes the lock.
theorem orderly_idleTurns (s : Handshake) : s.orderly idleTurns := by
  have passes (s : Handshake) : s.entersInStep .engine := by
    rw [entersInStep_iff]
    intro t rule entered
    rcases s.taking.event_access s.engine entered with ⟨_, other⟩ | ⟨_, other⟩ | ⟨_, other⟩ <;>
      cases other
  simp [idleTurns, orderly, passes]

-- Behind such a step the latest commit is applied.
theorem commits_le_applied (rests : s.taking = .loadNumber) :
    (s.run idleTurns).2.mailbox.commits ≤ (s.run idleTurns).2.engine.applied := by
  rw [run_idleTurns s rests]
  show s.engine.applyPending.mailbox.commits ≤ s.engine.applyPending.applied
  rw [Engine.applyPending, Engine.pending?, Mailbox.pending?]
  split
  case h_1 none_waits =>
    split at none_waits
    · assumption
    · cases none_waits
  case h_2 pending found =>
    split at found
    · cases found
    · cases found
      exact UInt64.le_refl _

theorem insertedRules_eq_take {engine : Engine} {taking : Taking} {book : Ledger}
    (h : Applied engine taking book) {n : Nat}
    (commits : book.inserted.map Insertion.commit = List.range' 1 n)
    (le : n ≤ book.stored.length) : book.insertedRules = (book.stored.map Prod.snd).take n := by
  have length : book.inserted.length = n := by
    have := congrArg List.length commits
    rwa [List.length_map, List.length_range'] at this
  refine List.ext_getElem (by rw [Ledger.insertedRules]; simp [length, le]) ?_
  intro i inside bound
  have here : i < book.inserted.length := by
    rwa [Ledger.insertedRules, List.length_map] at inside
  have commit : book.inserted[i].commit = i + 1 := by
    have := List.getElem_of_eq commits (by rwa [List.length_map] : i < _)
    rw [List.getElem_map, List.getElem_range'] at this
    omega
  obtain ⟨-, t, found⟩ := h.own book.inserted[i] (List.getElem_mem here)
  rw [commit, Nat.add_sub_cancel] at found
  obtain ⟨_, entry⟩ := List.getElem?_eq_some_iff.mp found
  simp [Ledger.insertedRules, entry]

/-! ## 5. Commits of a run -/

theorem Ledger.outcomes_foldl_note (book : Ledger) (events : List Event) :
    book.outcomes <+: (events.foldl note book).outcomes := by
  induction events generalizing book with
  | nil => exact List.prefix_rfl
  | cons event events ih =>
    refine List.IsPrefix.trans ?_ (ih (book.note event))
    unfold note
    split
    case h_3 => exact List.prefix_append ..
    all_goals exact List.prefix_rfl

-- If no installation has given up so far, the next one finds everything acknowledged.
theorem orderly_of_installed (follows : s.Follows table history)
    (ended : Ended s.mailbox (ledger history)) (turns : List Turn)
    (few : (ledger (history ++ (s.run turns).1)).stored.length < UInt64.size)
    (installed : ∀ outcome ∈ (ledger (history ++ (s.run turns).1)).outcomes, outcome = .installed) :
    s.orderly turns := by
  induction turns generalizing s history with
  | nil => rfl
  | cons turn turns ih =>
    have step := s.step_take turn
    rw [orderly, Bool.and_eq_true, entersInStep_iff]
    constructor
    · intro t rule entered
      have now := Nat.lt_of_le_of_lt (stored_extends history _).length_le few
      rcases follows.entry ended (step.of_entered entered).1 now with same | ⟨-, waited, last⟩
      · exact same
      · have mem := (Ledger.outcomes_foldl_note (ledger history) (s.run (turn :: turns)).1).subset
          (List.mem_of_getLast? last)
        rw [← ledger_append] at mem
        cases installed _ mem
    · rw [run_cons, ← List.append_assoc] at few installed
      exact ih (follows.take turn) (ended.step follows step) few installed

structure Settles (s : Handshake) (turns : List Turn) : Prop where
  entry : ∀ earlier turn later t rule, turns = earlier ++ turn :: later →
    ((s.run earlier).2.take turn).1 = some (.entered t rule) →
    (s.run earlier).2.mailbox.applied = (s.run earlier).2.mailbox.commits ∨
      (s.run earlier).2.mailbox.applied < (s.run earlier).2.mailbox.commits ∧
        ∃ waited, (ledger (s.run earlier).1).outcomes.getLast? =
          some (.failed (.timeout (s.run earlier).2.mailbox.commits waited))
  orderly_of_installed :
    (∀ outcome ∈ (ledger (s.run turns).1).outcomes, outcome = .installed) → s.orderly turns
  /-- Behind a last step on an empty feed the rules inserted are those committed, if every
  installation found all commits acknowledged when it took the lock. -/
  in_order : ∀ earlier, turns = earlier ++ idleTurns → (s.run earlier).2.taking = .loadNumber →
    s.orderly earlier →
    (ledger (s.run turns).1).insertedRules = (ledger (s.run turns).1).committed ∧
      (ledger (s.run turns).1).inserted.map Insertion.commit =
        List.range' 1 (ledger (s.run turns).1).committed.length
  /-- In any case a rule is lost only if its installation gave up and another one came behind. -/
  kept : ∀ earlier, turns = earlier ++ idleTurns → (s.run earlier).2.taking = .loadNumber →
    ∀ i rule, (ledger (s.run turns).1).committed[i]? = some rule →
    (∃ insertion ∈ (ledger (s.run turns).1).inserted,
      insertion.commit = i + 1 ∧ insertion.pending.rule = rule) ∨
    (∃ waited, (ledger (s.run turns).1).outcomes[i]? =
      some (.failed (.timeout (UInt64.ofNat (i + 1)) waited))) ∧
      i + 1 < (ledger (s.run turns).1).stored.length

theorem Follows.in_order (h : s.Follows table history) (inStep : s.InStep (ledger history))
    (few : (ledger history).stored.length < UInt64.size)
    (idle : s.mailbox.commits ≤ s.engine.applied) :
    (ledger history).insertedRules = (ledger history).committed ∧
      (ledger history).inserted.map Insertion.commit =
        List.range' 1 (ledger history).committed.length := by
  have among := h.recorded.committed_among h.locked
  have committed_le := h.recorded.committed_le h.locked
  have commits : s.mailbox.commits.toNat = (ledger history).committed.length := by
    rw [h.recorded.registers.commits_eq]
    exact UInt64.toNat_ofNat_of_lt' (Nat.lt_of_le_of_lt committed_le few)
  have all : s.engine.applied.toNat = (ledger history).committed.length := by
    rw [UInt64.le_iff_toNat_le, commits] at idle
    exact Nat.le_antisymm inStep.applied_le idle
  have numbers := inStep.inserted
  rw [all] at numbers
  refine ⟨?_, numbers⟩
  rw [insertedRules_eq_take h.applied numbers committed_le]
  exact (List.prefix_iff_eq_take.mp among).symm

theorem Follows.kept (h : s.Follows table history) (ended : Ended s.mailbox (ledger history))
    (few : (ledger history).stored.length < UInt64.size)
    (idle : s.mailbox.commits ≤ s.engine.applied) {i : Nat} {rule : Rule}
    (found : (ledger history).committed[i]? = some rule) :
    (∃ insertion ∈ (ledger history).inserted,
      insertion.commit = i + 1 ∧ insertion.pending.rule = rule) ∨
    (∃ waited, (ledger history).outcomes[i]? =
      some (.failed (.timeout (UInt64.ofNat (i + 1)) waited))) ∧
      i + 1 < (ledger history).stored.length := by
  have committed_le := h.recorded.committed_le h.locked
  obtain ⟨inside, -⟩ := List.getElem?_eq_some_iff.mp found
  -- An insertion of this commit is one of this rule.
  have own (insertion : Insertion) (mem : insertion ∈ (ledger history).inserted)
      (commit : insertion.commit = i + 1) : insertion.pending.rule = rule := by
    obtain ⟨-, t, stored⟩ := h.applied.own insertion mem
    rw [commit, Nat.add_sub_cancel] at stored
    have same := getElem?_extend (h.recorded.committed_among h.locked) found
    rw [List.getElem?_map, stored] at same
    exact Option.some.inj same
  by_cases last : i + 1 = (ledger history).stored.length
  · have applied : (ledger history).committed.length ≤ s.engine.applied.toNat := by
      rw [UInt64.le_iff_toNat_le, h.recorded.registers.commits_eq,
        UInt64.toNat_ofNat_of_lt' (Nat.lt_of_le_of_lt committed_le few)] at idle
      exact idle
    rcases h.applied.reached with none_applied | ⟨insertion, mem, reached⟩
    · rw [none_applied] at applied
      exact absurd (Nat.lt_of_lt_of_le inside applied) (Nat.not_lt_zero i)
    · have commit_le := commit_le_stored history insertion mem
      have commit : insertion.commit = i + 1 := by omega
      exact .inl ⟨insertion, mem, commit, own insertion mem commit⟩
  · have behind : i + 1 < (ledger history).stored.length := by omega
    cases outcome : (ledger history).outcomes[i]? with
    | none =>
      have := List.getElem?_eq_none_iff.mp outcome
      have := h.recorded.outcomes_length h.locked
      omega
    | some outcome_eq =>
      cases outcome_eq with
      | installed =>
        obtain ⟨insertion, mem, commit⟩ := ended.inserted i outcome (Nat.lt_trans behind few)
        exact .inl ⟨insertion, mem, commit, own insertion mem commit⟩
      | failed fault =>
        obtain ⟨waited, rfl⟩ := ended.failed i fault outcome
        exact .inr ⟨⟨waited, rfl⟩, behind⟩

/-- **Commits.**  In a schedule that ends with a step on an empty feed, the rules inserted are those
committed, each once and in order, if no installation began while a commit was outstanding; and this
happens only behind an installation that gave up. -/
theorem run_settles (lane : Lane) (turns : List Turn)
    (few : (ledger ((start lane).run turns).1).stored.length < UInt64.size) :
    (start lane).Settles turns := by
  have follows (turns : List Turn) : ((start lane).run turns).2.Follows lane.table
      ((start lane).run turns).1 := Follows.start_run lane turns
  have ended (turns : List Turn) : Ended ((start lane).run turns).2.mailbox
      (ledger ((start lane).run turns).1) :=
    (ended_start lane).run (follows_start lane) turns
  have idle {earlier : List Turn} (shape : turns = earlier ++ idleTurns)
      (rests : ((start lane).run earlier).2.taking = .loadNumber) :
      ((start lane).run turns).2.mailbox.commits ≤ ((start lane).run turns).2.engine.applied := by
    rw [shape, run_append]
    exact commits_le_applied rests
  constructor
  case entry =>
    intro earlier turn later t rule shape entered
    refine (follows earlier).entry (ended earlier) ((step_take _ turn).of_entered entered).1 ?_
    refine Nat.lt_of_le_of_lt ?_ few
    rw [shape, run_append]
    exact (stored_extends _ _).length_le
  case orderly_of_installed =>
    exact fun installed =>
      Handshake.orderly_of_installed (follows_start lane) (ended_start lane) turns few installed
  case in_order =>
    intro earlier shape rests orderly
    have all : (start lane).orderly turns := by
      rw [shape, orderly_append, orderly, orderly_idleTurns]
      rfl
    exact (follows turns).in_order
      ((inStep_start lane).run (follows_start lane) turns all few) few (idle shape rests)
  case kept =>
    intro earlier shape rests i rule found
    exact (follows turns).kept (ended turns) few (idle shape rests) found

-- One caller gives up at its first look and then installs another rule.  In the first schedule the
-- engine has applied the first rule in between, and in the second it has not had a turn.
def impatientCall (text : String) : List Turn :=
  .call 0 (.update text .forward) :: List.replicate 12 (.caller 0 (some 5))

def turnsInStep : List Turn :=
  impatientCall "10.0.0.5:9000" ++ idleTurns ++ impatientCall "10.0.0.6:9000"

def turnsOverrun : List Turn :=
  impatientCall "10.0.0.5:9000" ++ impatientCall "10.0.0.6:9000"

def emptyLane : Lane := ⟨.start {}, .standard, {}⟩

def firstRule : Rule := ⟨⟨⟨0x0A000005⟩, 9000⟩, .forward⟩

def secondRule : Rule := ⟨⟨⟨0x0A000006⟩, 9000⟩, .forward⟩

theorem run_settles_in_step :
    (ledger ((start emptyLane).run (turnsInStep ++ idleTurns)).1).stored.length < UInt64.size ∧
      (start emptyLane).orderly turnsInStep ∧
      (ledger ((start emptyLane).run (turnsInStep ++ idleTurns)).1).outcomes =
        [.failed (.timeout 1 5), .failed (.timeout 2 5)] ∧
      (ledger ((start emptyLane).run (turnsInStep ++ idleTurns)).1).insertedRules =
        [firstRule, secondRule] := by
  have few : (ledger ((start emptyLane).run (turnsInStep ++ idleTurns)).1).stored.length <
      UInt64.size := by decide +kernel
  have orderly : (start emptyLane).orderly turnsInStep := by decide +kernel
  have rests : ((start emptyLane).run turnsInStep).2.taking = .loadNumber := by decide +kernel
  have committed : (ledger ((start emptyLane).run (turnsInStep ++ idleTurns)).1).committed =
      [firstRule, secondRule] := by decide +kernel
  obtain ⟨inserted, -⟩ :=
    (run_settles emptyLane (turnsInStep ++ idleTurns) few).in_order turnsInStep rfl rests orderly
  exact ⟨few, orderly, by decide +kernel, inserted.trans committed⟩

-- The second installation begins while the first commit is outstanding, and the first rule is lost.
theorem committed_rule_lost :
    ((start emptyLane).run turnsOverrun).2.taking = .loadNumber ∧
      (start emptyLane).orderly turnsOverrun = false ∧
      (ledger ((start emptyLane).run (turnsOverrun ++ idleTurns)).1).committed =
        [firstRule, secondRule] ∧
      (ledger ((start emptyLane).run (turnsOverrun ++ idleTurns)).1).insertedRules =
        [secondRule] := by
  decide +kernel

end Handshake
end UdpGate
