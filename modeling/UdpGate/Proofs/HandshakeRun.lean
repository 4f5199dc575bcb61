import UdpGate.Proofs.HandshakeCallers

/-!
# A run of the handshake

The engine loads the number of commits first and the triple later, so it may insert a triple that is
newer than the number says.  It never inserts one that is older: a commit is counted behind its
triple, so `number` commits stand for `number` triples at least (`Handshake.Applied`).  An
installation that ends well has seen its own number acknowledged while nobody else could store a
triple, and then the triple that was inserted is its own (`Handshake.run_faithful`).
-/

namespace UdpGate
namespace Handshake

variable {s s' : Handshake} {event : Option Event} {history : List Event} {table : RuleTable}

/-! ## 1. Insertions in a history -/

-- A triple is inserted after it was loaded, and loaded after it was stored.
theorem Ledger.commit_le_foldl {ledger : Ledger} (taken : ledger.taken ≤ ledger.stored.length)
    (commits : ∀ insertion ∈ ledger.inserted, insertion.commit ≤ ledger.stored.length)
    (events : List Event) :
    ∀ insertion ∈ (events.foldl note ledger).inserted,
      insertion.commit ≤ (events.foldl note ledger).stored.length := by
  induction events generalizing ledger with
  | nil => exact commits
  | cons event events ih =>
    have grown := (ledger.stored_note event).length_le
    refine ih ?_ ?_
    · unfold note at grown ⊢
      split at grown
      case h_4 => exact Nat.le_refl _
      all_goals exact Nat.le_trans taken grown
    · unfold note at grown ⊢
      split at grown
      case h_5 =>
        intro insertion mem
        rcases List.mem_append.mp mem with before | now
        · exact commits insertion before
        · rw [List.mem_singleton.mp now]
          exact taken
      all_goals exact fun insertion mem => Nat.le_trans (commits insertion mem) grown

theorem commit_le_stored (history : List Event) :
    ∀ insertion ∈ (ledger history).inserted, insertion.commit ≤ (ledger history).stored.length :=
  Ledger.commit_le_foldl (Nat.le_refl 0) (by simp) history

theorem Ledger.mem_inserted_foldl {ledger : Ledger} {events : List Event} {insertion : Insertion}
    (mem : insertion ∈ (events.foldl note ledger).inserted) :
    insertion ∈ ledger.inserted ∨ .inserted insertion.pending ∈ events := by
  induction events generalizing ledger with
  | nil => exact .inl mem
  | cons event events ih =>
    rcases ih mem with noted | later
    · unfold note at noted
      split at noted
      case h_5 pending =>
        rcases List.mem_append.mp noted with before | now
        · exact .inl before
        · rw [List.mem_singleton.mp now]
          exact .inr List.mem_cons_self
      all_goals exact .inl noted
    · exact .inr (List.mem_cons_of_mem event later)

-- An insertion of a commit that was not stored yet has happened since.
theorem inserted_since {before since : List Event} {event : Event} {insertion : Insertion}
    (mem : insertion ∈ (ledger (before ++ event :: since)).inserted)
    (behind : (ledger before).stored.length < insertion.commit)
    (other : event ≠ .inserted insertion.pending) : .inserted insertion.pending ∈ since := by
  rw [ledger_append] at mem
  rcases Ledger.mem_inserted_foldl mem with earlier | later
  · exact absurd (commit_le_stored before _ earlier) (Nat.not_le_of_lt behind)
  · exact (List.mem_cons.mp later).resolve_left other.symm

/-! ## 2. What the engine has made of the commits -/

def Taking.Knows (applied : UInt64) (ledger : Ledger) : Taking → Prop
  | .loadNumber => True
  | .loadTriple number => applied < number ∧ number.toNat ≤ ledger.stored.length
  | .insert pending => applied < pending.number ∧ pending.number.toNat ≤ ledger.taken ∧
      ∃ t, ledger.stored[ledger.taken - 1]? = some (t, pending.rule)
  | .acknowledge number => number = applied

/-- Every rule in the table is that of one commit, the commits are inserted in their order, and the
triple is never older than the number. -/
structure Applied (engine : Engine) (taking : Taking) (ledger : Ledger) : Prop where
  own : ∀ insertion ∈ ledger.inserted, 0 < insertion.commit ∧
    ∃ t, ledger.stored[insertion.commit - 1]? = some (t, insertion.pending.rule)
  ordered : ledger.inserted.Pairwise fun first second =>
    first.commit ≤ second.commit ∧ first.pending.number < second.pending.number
  commit_le : ∀ insertion ∈ ledger.inserted, insertion.commit ≤ ledger.taken
  number_le : ∀ insertion ∈ ledger.inserted, insertion.pending.number ≤ engine.applied
  reached : engine.applied = 0 ∨
    ∃ insertion ∈ ledger.inserted, engine.applied.toNat ≤ insertion.commit
  taken_le : ledger.taken ≤ ledger.stored.length
  acknowledged : engine.mailbox.applied ≤ engine.applied
  knows : taking.Knows engine.applied ledger

variable {engine engine' : Engine} {taking taking' : Taking} {book book' : Ledger}

theorem applied_start (lane : Lane) : Applied { lane := lane } .loadNumber {} where
  own := nofun
  ordered := .nil
  commit_le := nofun
  number_le := nofun
  reached := .inl rfl
  taken_le := Nat.le_refl 0
  acknowledged := UInt64.le_refl 0
  knows := trivial

theorem getElem?_extend {α : Type} {short long : List α} {i : Nat} {a : α}
    (h : short <+: long) (found : short[i]? = some a) : long[i]? = some a := by
  obtain ⟨more, rfl⟩ := h
  obtain ⟨inside, -⟩ := List.getElem?_eq_some_iff.mp found
  rw [List.getElem?_append_left inside]
  exact found

theorem Taking.Knows.grow {applied : UInt64} (h : taking.Knows applied book)
    (stored : book.stored <+: book'.stored) (taken : book'.taken = book.taken) :
    taking.Knows applied book' := by
  cases taking with
  | loadNumber => trivial
  | loadTriple number => exact ⟨h.1, Nat.le_trans h.2 stored.length_le⟩
  | insert pending =>
    obtain ⟨newer, le, t, found⟩ := h
    exact ⟨newer, taken ▸ le, t, taken ▸ getElem?_extend stored found⟩
  | acknowledge number => exact h

-- Everybody else only adds to what is stored.
theorem Applied.grow (h : Applied engine taking book) (stored : book.stored <+: book'.stored)
    (taken : book'.taken = book.taken) (inserted : book'.inserted = book.inserted)
    (applied : engine'.applied = engine.applied)
    (acknowledged : engine'.mailbox.applied = engine.mailbox.applied) :
    Applied engine' taking book' where
  own := by
    rw [inserted]
    intro insertion mem
    obtain ⟨positive, t, found⟩ := h.own insertion mem
    exact ⟨positive, t, getElem?_extend stored found⟩
  ordered := inserted ▸ h.ordered
  commit_le := by
    rw [inserted, taken]
    exact h.commit_le
  number_le := by
    rw [inserted, applied]
    exact h.number_le
  reached := by
    rw [inserted, applied]
    exact h.reached
  taken_le := by
    rw [taken]
    exact Nat.le_trans h.taken_le stored.length_le
  acknowledged := by
    rw [acknowledged, applied]
    exact h.acknowledged
  knows := by
    rw [applied]
    exact h.knows.grow stored taken

-- The engine loads the latest triple, which is the one stored last.
theorem Applied.loadTriple {number : UInt64} (h : Applied engine (.loadTriple number) book)
    (registers : Registers engine.mailbox book.toCallerLedger) :
    Applied engine (.insert ⟨number, engine.mailbox.committed.rule⟩)
      { book with taken := book.stored.length } where
  own := h.own
  ordered := h.ordered
  commit_le insertion mem := Nat.le_trans (h.commit_le insertion mem) h.taken_le
  number_le := h.number_le
  reached := h.reached
  taken_le := Nat.le_refl _
  acknowledged := h.acknowledged
  knows := by
    obtain ⟨newer, le⟩ := h.knows
    refine ⟨newer, le, ?_⟩
    have positive : 0 < book.stored.length := by
      have := UInt64.lt_iff_toNat_lt.mp newer
      omega
    obtain ⟨⟨t, rule⟩, last⟩ : ∃ entry, book.stored.getLast? = some entry :=
      ⟨_, List.getLast?_eq_some_getLast (List.ne_nil_of_length_pos positive)⟩
    refine ⟨t, ?_⟩
    rw [← List.getLast?_eq_getElem?, last, registers.latest (t, rule) last]

theorem Applied.insert {pending : PendingRule} (h : Applied engine (.insert pending) book)
    (lane : Lane) :
    Applied { engine with lane := lane, applied := pending.number } (.acknowledge pending.number)
      { book with inserted := book.inserted ++ [⟨book.taken, pending⟩] } := by
  obtain ⟨newer, le, t, found⟩ := h.knows
  have positive : 0 < book.taken := by
    have := UInt64.lt_iff_toNat_lt.mp newer
    omega
  exact {
    own := by
      intro insertion mem
      rcases List.mem_append.mp mem with before | now
      · exact h.own insertion before
      · rw [List.mem_singleton.mp now]
        exact ⟨positive, t, found⟩
    ordered := by
      rw [List.pairwise_append]
      refine ⟨h.ordered, List.pairwise_singleton _ _, ?_⟩
      intro first mem second now
      rw [List.mem_singleton.mp now]
      exact ⟨h.commit_le first mem, UInt64.lt_of_le_of_lt (h.number_le first mem) newer⟩
    commit_le := by
      intro insertion mem
      rcases List.mem_append.mp mem with before | now
      · exact h.commit_le insertion before
      · cases List.mem_singleton.mp now
        exact Nat.le_refl _
    number_le := by
      intro insertion mem
      rcases List.mem_append.mp mem with before | now
      · exact UInt64.le_of_lt (UInt64.lt_of_le_of_lt (h.number_le insertion before) newer)
      · rw [List.mem_singleton.mp now]
        exact UInt64.le_refl _
    reached := .inr ⟨_, List.mem_append_right _ (List.mem_singleton_self _), le⟩
    taken_le := h.taken_le
    acknowledged := UInt64.le_of_lt (UInt64.lt_of_le_of_lt h.acknowledged newer)
    knows := rfl }

theorem Applied.access (h : Applied engine taking (ledger history))
    (registers : Registers engine.mailbox (ledger history).toCallerLedger)
    (committed : (ledger history).committed.length ≤ (ledger history).stored.length) :
    Applied (taking.access engine).2.1 (taking.access engine).2.2
      (ledger (history ++ (taking.access engine).1.toList)) := by
  cases taking with
  | loadNumber =>
    rw [Taking.access]
    split
    case isTrue =>
      rw [Option.toList_none, List.append_nil]
      exact h
    case isFalse waits =>
      rw [Option.toList_none, List.append_nil]
      exact { h with
        knows := ⟨UInt64.not_le.mp waits, Nat.le_trans registers.commits_le committed⟩ }
  | loadTriple number =>
    rw [Taking.access, Option.toList_some, ledger_concat]
    exact h.loadTriple registers
  | insert pending =>
    rw [Taking.access, Option.toList_some, ledger_concat]
    exact h.insert (engine.lane.insert pending.rule)
  | acknowledge number =>
    rw [Taking.access, Option.toList_some, ledger_concat]
    have number_eq : number = engine.applied := h.knows
    exact { h with
      acknowledged := by
        show (if engine.mailbox.applied ≤ number then number else _) ≤ engine.applied
        rw [number_eq, if_pos h.acknowledged]
        exact UInt64.le_refl _
      knows := trivial }

/-! ## 3. A turn -/

/-- Callers leave whole rules in the mailbox, the engine follows the commits, and the table has the
rules that were inserted. -/
structure Follows (s : Handshake) (table : RuleTable) (history : List Event) : Prop where
  locked : s.Locked
  recorded : s.Recorded history
  applied : Applied s.engine s.taking (ledger history)
  table_eq : s.table = (ledger history).insertedRules.foldl RuleTable.insert table

theorem follows_start (lane : Lane) :
    (start lane).Follows lane.table [] where
  locked t := by simp [start, Caller.isWriting]
  recorded := recorded_start lane
  applied := applied_start lane
  table_eq := rfl

theorem Stage.applied_access (t : Nat) (rule : Rule) (late : Option Nat) (box : Mailbox)
    (stage : Stage) : (stage.access t rule late box).2.1.applied = box.applied := by
  cases stage with
  | poll number =>
    rw [Stage.access.eq_def]
    cases late <;> simp only <;> split <;> rfl
  | _ => rfl

theorem Follows.keep (h : s.Follows table history) (locked : s'.Locked)
    (recorded : s'.Recorded (history ++ event.toList))
    (taken : (ledger (history ++ event.toList)).taken = (ledger history).taken)
    (inserted : (ledger (history ++ event.toList)).inserted = (ledger history).inserted)
    (taking : s'.taking = s.taking) (applied : s'.engine.applied = s.engine.applied)
    (acknowledged : s'.mailbox.applied = s.mailbox.applied) (same : s'.table = s.table) :
    s'.Follows table (history ++ event.toList) where
  locked := locked
  recorded := recorded
  applied := by
    rw [taking]
    exact h.applied.grow (stored_extends history _) taken inserted applied acknowledged
  table_eq := by
    rw [same, Ledger.insertedRules, inserted]
    exact h.table_eq

theorem Stage.note_access (t : Nat) (rule : Rule) (late : Option Nat) (box : Mailbox)
    (stage : Stage) (history : List Event) :
    (ledger (history ++ (stage.access t rule late box).1.toList)).taken = (ledger history).taken ∧
      (ledger (history ++ (stage.access t rule late box).1.toList)).inserted =
        (ledger history).inserted := by
  rw [ledger_append]
  cases stage with
  | poll number =>
    rw [Stage.access.eq_def]
    cases late <;> simp only <;> split <;> exact ⟨rfl, rfl⟩
  | _ => exact ⟨rfl, rfl⟩

theorem Follows.engineTurn (h : s.Follows table history) :
    { s with
        engine := (s.taking.access s.engine).2.1
        taking := (s.taking.access s.engine).2.2 }.Follows table
      (history ++ (s.taking.access s.engine).1.toList) where
  locked := h.locked
  recorded := h.recorded.engine
  applied := h.applied.access h.recorded.registers (h.recorded.committed_le h.locked)
  table_eq := by
    have table_eq : s.engine.lane.table = _ := h.table_eq
    rw [ledger_append]
    show (s.taking.access s.engine).2.1.lane.table = _
    cases s.taking with
    | loadNumber =>
      rw [Taking.access]
      split
      all_goals exact table_eq
    | loadTriple number => exact table_eq
    | insert pending =>
      show s.engine.lane.table.insert pending.rule = _
      rw [table_eq]
      simp [Taking.access, Ledger.note, Ledger.insertedRules]
    | acknowledge number => exact table_eq

theorem Follows.step (h : s.Follows table history) (step : Step s event s') :
    s'.Follows table (history ++ event.toList) := by
  have locked := h.locked.step step
  have recorded := h.recorded.step h.locked step
  cases step with
  | nothing =>
    rw [Option.toList_none, List.append_nil]
    exact h
  | access t rule rest stage late writes busy =>
    obtain ⟨taken, inserted⟩ := stage.note_access t rule late s.mailbox history
    exact h.keep locked recorded taken inserted rfl rfl (stage.applied_access _ _ _ _) rfl
  | engine => exact h.engineTurn
  | _ =>
    exact h.keep locked recorded (by rw [Option.toList_some, ledger_concat]; rfl)
      (by rw [Option.toList_some, ledger_concat]; rfl) rfl rfl rfl rfl

theorem Follows.take (h : s.Follows table history) (turn : Turn) :
    (s.take turn).2.Follows table (history ++ (s.take turn).1.toList) :=
  h.step (s.step_take turn)

/-! ## 4. A run -/

theorem Follows.run (h : s.Follows table history) (turns : List Turn) :
    (s.run turns).2.Follows table (history ++ (s.run turns).1) := by
  induction turns generalizing s history with
  | nil =>
    rw [Handshake.run, List.append_nil]
    exact h
  | cons turn turns ih =>
    rw [run_cons, ← List.append_assoc]
    exact ih (h.take turn)

-- What is seen in a run is seen at one of its turns.
theorem run_split (s : Handshake) {turns : List Turn} {before after : List Event} {event : Event}
    (seen : (s.run turns).1 = before ++ event :: after) :
    ∃ earlier turn later, turns = earlier ++ turn :: later ∧ (s.run earlier).1 = before ∧
      ((s.run earlier).2.take turn).1 = some event := by
  induction turns generalizing s before with
  | nil =>
    rw [Handshake.run] at seen
    simp at seen
  | cons turn turns ih =>
    rw [run_cons] at seen
    cases now : (s.take turn).1 with
    | none =>
      rw [now] at seen
      obtain ⟨earlier, here, later, rfl, ran, took⟩ := ih (s.take turn).2 seen
      refine ⟨turn :: earlier, here, later, rfl, ?_, took⟩
      rw [run_cons, now, ran]
      rfl
    | some first =>
      rw [now] at seen
      cases before with
      | nil =>
        cases seen
        exact ⟨[], turn, turns, rfl, rfl, now⟩
      | cons head before =>
        obtain ⟨rfl, rest⟩ := List.cons.inj seen
        obtain ⟨earlier, here, later, rfl, ran, took⟩ := ih (s.take turn).2 rest
        refine ⟨turn :: earlier, here, later, rfl, ?_, took⟩
        rw [run_cons, now, ran]
        rfl

/-! ## 5. What a run shows -/

-- Whoever has seen its own number acknowledged was alone with the mailbox, so the latest triple that
-- could be inserted under that number or a greater one is its own.
theorem Follows.installed (h : s.Follows table history) {t : Nat} {rule : Rule} {rest : List Rule}
    (writes : s.callers t = .writing rule rest (.done .installed))
    (few : (ledger history).stored.length < UInt64.size) :
    ∃ before since, history = before ++ .entered t rule :: since ∧ Asked t rule before ∧
      (ledger history).stored = (ledger before).stored ++ [(t, rule)] ∧
      ∃ pending, .inserted pending ∈ since ∧ pending.rule = rule ∧
        ⟨(ledger history).stored.length, pending⟩ ∈ (ledger history).inserted := by
  have inside := h.recorded.inside t rule rest _ writes
  obtain ⟨before, since, shape, asked, entry⟩ := inside.entered
  have stored : (ledger history).stored = (ledger before).stored ++ [(t, rule)] := entry
  refine ⟨before, since, shape, asked, stored, ?_⟩
  have length : (ledger history).stored.length = (ledger before).stored.length + 1 := by
    rw [stored, List.length_append]
    rfl
  -- The number of commits is the number of triples, and it is applied.
  have counted : (ledger history).committed.length = (ledger history).stored.length := by
    have committed := congrArg List.length inside.committed
    rw [List.length_map] at committed
    exact (committed.trans (congrArg List.length (List.append_nil _))).symm
  have number : s.mailbox.commits.toNat = (ledger history).stored.length := by
    rw [h.recorded.registers.commits_eq, counted]
    exact UInt64.toNat_ofNat_of_lt' few
  have applied : (ledger history).stored.length ≤ s.engine.applied.toNat := by
    rw [← number]
    exact UInt64.le_iff_toNat_le.mp (UInt64.le_trans inside.relies h.applied.acknowledged)
  rcases h.applied.reached with none_applied | ⟨⟨commit, pending⟩, mem, reached⟩
  · rw [none_applied, length] at applied
    exact absurd applied (Nat.not_succ_le_zero _)
  · have commit_le : commit ≤ (ledger history).stored.length := commit_le_stored history _ mem
    have latest : commit = (ledger history).stored.length :=
      Nat.le_antisymm commit_le (Nat.le_trans applied reached)
    subst latest
    have rule_eq : pending.rule = rule := by
      obtain ⟨-, u, found⟩ := h.applied.own _ mem
      rw [stored] at found
      simpa using congrArg (Option.map Prod.snd) found.symm
    refine ⟨pending, ?_, rule_eq, mem⟩
    -- At the time of the entry there was no such triple.
    have behind : (ledger before).stored.length < (ledger history).stored.length := by
      rw [length]
      exact Nat.lt_succ_self _
    have now : ⟨(ledger history).stored.length, pending⟩ ∈
        (ledger (before ++ .entered t rule :: since)).inserted := by
      rw [← shape]
      exact mem
    exact inserted_since now behind nofun

theorem Follows.start_run (lane : Lane) (turns : List Turn) :
    ((start lane).run turns).2.Follows lane.table
      ((start lane).run turns).1 :=
  (follows_start lane).run turns

theorem run_installed (lane : Lane) {turns : List Turn} {before after : List Event} {t : Nat}
    {rule : Rule} (shape : ((start lane).run turns).1 = before ++ .left t rule .installed :: after)
    (few : (ledger before).stored.length < UInt64.size) :
    ∃ earlier since, before = earlier ++ .entered t rule :: since ∧ Asked t rule earlier ∧
      (ledger before).stored = (ledger earlier).stored ++ [(t, rule)] ∧
      ∃ pending, .inserted pending ∈ since ∧ pending.rule = rule ∧
        ⟨(ledger before).stored.length, pending⟩ ∈ (ledger before).inserted := by
  obtain ⟨earlier, turn, later, -, ran, left⟩ := run_split _ shape
  have follows := Follows.start_run lane earlier
  rw [ran] at follows
  obtain ⟨rest, writes⟩ := (step_take _ turn).of_left left
  exact follows.installed writes few

/-! ## 6. What a call returns -/

theorem Stage.hasStored_access (t : Nat) (rule : Rule) (late : Option Nat) (box : Mailbox)
    (stage : Stage) (stored : (stage.access t rule late box).2.2.hasStored) :
    stage.hasStored ∨
      ∃ staged, (stage.access t rule late box).1 = some (.stored t rule (.triple staged)) := by
  cases stage with
  | storeTriple address port => exact .inr ⟨_, rfl⟩
  | count | loadNumber | poll | done => exact .inl rfl
  | _ => cases stored

def Event.isReturnOf (t : Nat) : Event → Bool
  | .returned u _ => u = t
  | _ => false

/-- How far a caller has come since a call that installs one rule, as long as the call has not
returned. -/
def Serves (t : Nat) (rule : Rule) (since : List Event) : Caller → Prop
  | .away => False
  | .waiting next rest => next = rule ∧ rest = []
  | .writing next rest stage => (next = rule ∧ rest = []) ∧
      (stage.hasStored → ∃ staged, .stored t rule (.triple staged) ∈ since)
  | .returning .installed => ∃ earlier later, since = earlier ++ .left t rule .installed :: later ∧
      ∃ staged, .stored t rule (.triple staged) ∈ earlier
  | .returning (.failed _) => True

section Serves

variable {t : Nat} {rule : Rule} {since : List Event} {caller : Caller}

theorem Serves.append (h : Serves t rule since caller) (later : List Event) :
    Serves t rule (since ++ later) caller := by
  cases caller with
  | writing next rest stage =>
    refine ⟨h.1, fun stored => ?_⟩
    obtain ⟨staged, mem⟩ := h.2 stored
    exact ⟨staged, List.mem_append_left later mem⟩
  | returning outcome =>
    cases outcome with
    | installed =>
      obtain ⟨earlier, after, rfl, staged⟩ := h
      exact ⟨earlier, after ++ later, List.append_assoc .., staged⟩
    | failed fault => trivial
  | _ => exact h

theorem Serves.step (h : Serves t rule since (s.callers t)) (step : Step s event s')
    (stays : ∀ seen ∈ event.toList, seen.isReturnOf t = false) :
    Serves t rule (since ++ event.toList) (s'.callers t) := by
  -- A turn of another caller leaves this one as it is.
  have other {u : Nat} {caller : Caller} (events : List Event) (different : t ≠ u) :
      Serves t rule (since ++ events) ((s.withCaller u caller).callers t) := by
    rw [callers_withCaller, if_neg different]
    exact h.append events
  cases step with
  | nothing => exact h.append []
  | call u call away =>
    by_cases here : t = u
    · rw [here, away] at h
      exact h.elim
    · exact other _ here
  | enter u next rest waits free =>
    by_cases here : t = u
    · subst here
      rw [waits] at h
      show Serves t rule _ ((s.withCaller t _).callers t)
      rw [callers_withCaller, if_pos rfl]
      exact ⟨h, nofun⟩
    · exact other _ here
  | access u next rest stage late writes busy =>
    by_cases here : t = u
    · subst here
      rw [writes] at h
      obtain ⟨⟨rfl, rfl⟩, stored⟩ := h
      rw [callers_withCaller, if_pos rfl]
      refine ⟨⟨rfl, rfl⟩, fun after => ?_⟩
      rcases stage.hasStored_access t next late s.mailbox after with before | ⟨staged, now⟩
      · obtain ⟨staged, mem⟩ := stored before
        exact ⟨staged, List.mem_append_left _ mem⟩
      · rw [now]
        exact ⟨staged, List.mem_append_right _ List.mem_cons_self⟩
    · exact other _ here
  | leave u next rest outcome writes =>
    by_cases here : t = u
    · subst here
      rw [writes] at h
      obtain ⟨⟨rfl, rfl⟩, stored⟩ := h
      show Serves t next _ ((s.withCaller t _).callers t)
      rw [callers_withCaller, if_pos rfl]
      cases outcome with
      | installed => exact ⟨since, [], rfl, stored rfl⟩
      | failed fault => trivial
    · exact other _ here
  | finish u outcome returns =>
    by_cases here : t = u
    · have ends := stays _ List.mem_cons_self
      exact absurd (decide_eq_true here.symm) (Bool.eq_false_iff.mp ends)
    · exact other _ here
  | engine => exact h.append _
  | pass chunk rests => exact h.append _

theorem Serves.run (h : Serves t rule since (s.callers t)) (turns : List Turn)
    (stays : ∀ seen ∈ (s.run turns).1, seen.isReturnOf t = false) :
    Serves t rule (since ++ (s.run turns).1) ((s.run turns).2.callers t) := by
  induction turns generalizing s since with
  | nil => exact h.append []
  | cons turn turns ih =>
    rw [run_cons] at stays ⊢
    rw [← List.append_assoc]
    have now := h.step (s.step_take turn) fun seen mem => stays seen (List.mem_append_left _ mem)
    exact ih now fun seen mem => stays seen (List.mem_append_right _ mem)

end Serves

theorem length_stored_of_mem {events : List Event} {t : Nat} {rule : Rule} {staged : StagedRule}
    (before : List Event) (mem : .stored t rule (.triple staged) ∈ events) :
    (ledger before).stored.length < (ledger (before ++ events)).stored.length := by
  obtain ⟨front, back, rfl⟩ := List.append_of_mem mem
  let own := before ++ front ++ [.stored t rule (.triple staged)]
  have split : before ++ (front ++ .stored t rule (.triple staged) :: back) = own ++ back := by
    simp [own]
  have added : (ledger own).stored = (ledger (before ++ front)).stored ++ [(t, rule)] := by
    rw [ledger_concat]
    rfl
  calc (ledger before).stored.length
      ≤ (ledger (before ++ front)).stored.length := (stored_extends before front).length_le
    _ < (ledger own).stored.length := by
      rw [added, List.length_append]
      exact Nat.lt_succ_self _
    _ ≤ (ledger (own ++ back)).stored.length := (stored_extends own back).length_le
    _ = _ := by rw [split]

-- What was stored since some point and in front of a last triple.
theorem exists_stored_between {before since : List Event} {stored : List (Nat × Rule)}
    {own : Nat × Rule} (last : (ledger (before ++ since)).stored = stored ++ [own])
    (grown : (ledger before).stored.length < (ledger (before ++ since)).stored.length) :
    ∃ others, stored = (ledger before).stored ++ others := by
  have known := stored_extends before since
  rw [last] at known grown
  rcases List.prefix_concat_iff.mp known with whole | ⟨others, split⟩
  · rw [whole] at grown
    exact absurd grown (Nat.lt_irrefl _)
  · exact ⟨others, split.symm⟩

-- By the time a call that installs one rule returns well, its installation has ended well.
theorem exists_left_of_returned {turns : List Turn} {before during after : List Event} {t : Nat}
    {call : Call} {rule : Rule}
    (shape : (s.run turns).1 = before ++ .called t call :: during ++ .returned t .installed :: after)
    (asks : call.rules = .ok [rule]) (stays : ∀ event ∈ during, event.isReturnOf t = false) :
    ∃ earlier later, during = earlier ++ .left t rule .installed :: later ∧
      ∃ staged, .stored t rule (.triple staged) ∈ earlier := by
  rw [List.append_assoc, List.cons_append] at shape
  obtain ⟨first, turn, rest, rfl, ran, calls⟩ := run_split s shape
  rw [run_append, run_cons, ran, calls] at shape
  have seen : (((s.run first).2.take turn).2.run rest).1 =
      during ++ .returned t .installed :: after :=
    (List.cons.inj (List.append_cancel_left shape)).2
  obtain ⟨until_return, last, -, -, served, returns⟩ := run_split _ seen
  have begins : Serves t rule [] (((s.run first).2.take turn).2.callers t) := by
    rw [(step_take _ turn).of_called calls, callers_withCaller, if_pos rfl, Caller.ofCall, asks]
    exact ⟨rfl, rfl⟩
  rw [← served] at stays
  have serves := begins.run until_return stays
  rw [((step_take _ last).of_returned returns).1, served] at serves
  exact serves

theorem run_returned (lane : Lane) {turns : List Turn} {before during after : List Event} {t : Nat}
    {call : Call} {rule : Rule}
    (shape : ((start lane).run turns).1 =
      before ++ .called t call :: during ++ .returned t .installed :: after)
    (asks : call.rules = .ok [rule]) (stays : ∀ event ∈ during, event.isReturnOf t = false)
    (few : (ledger (before ++ .called t call :: during)).stored.length < UInt64.size) :
    ∃ earlier later, during = earlier ++ .left t rule .installed :: later ∧
      ∃ others, (ledger (before ++ .called t call :: earlier)).stored =
        (ledger before).stored ++ others ++ [(t, rule)] ∧
      ∃ pending, .inserted pending ∈ earlier ∧ pending.rule = rule ∧
        ⟨(ledger (before ++ .called t call :: earlier)).stored.length, pending⟩ ∈
          (ledger (before ++ .called t call :: earlier)).inserted := by
  obtain ⟨earlier, later, rfl, staged, mem⟩ := exists_left_of_returned shape asks stays
  rw [← List.cons_append, ← List.append_assoc] at few shape
  have fewer := Nat.lt_of_le_of_lt (stored_extends _ _).length_le few
  rw [List.append_assoc _ (_ :: later), List.cons_append] at shape
  obtain ⟨front, -, -, -, stored, pending, -, rule_eq, inserted⟩ := run_installed lane shape fewer
  -- The triple that the caller stored since the call is the one that the installation stored last.
  have grown := length_stored_of_mem before (List.mem_cons_of_mem (.called t call) mem)
  obtain ⟨others, own⟩ := exists_stored_between stored grown
  exact ⟨earlier, later, rfl, others, by rw [stored, own], pending,
    inserted_since inserted grown nofun, rule_eq, inserted⟩

/-- What the history of a run says about its table, whoever's turn it was. -/
structure Faithful (table last : RuleTable) (history : List Event) : Prop where
  own : ∀ insertion ∈ (ledger history).inserted, 0 < insertion.commit ∧
    ∃ t, (ledger history).stored[insertion.commit - 1]? = some (t, insertion.pending.rule) ∧
      Asked t insertion.pending.rule history
  ordered : (ledger history).inserted.Pairwise fun first second =>
    first.commit ≤ second.commit ∧ first.pending.number < second.pending.number
  table_eq : last = (ledger history).insertedRules.foldl RuleTable.insert table
  installed : ∀ before t rule after, history = before ++ .left t rule .installed :: after →
    (ledger before).stored.length < UInt64.size →
    ∃ earlier since, before = earlier ++ .entered t rule :: since ∧ Asked t rule earlier ∧
      (ledger before).stored = (ledger earlier).stored ++ [(t, rule)] ∧
      ∃ pending, .inserted pending ∈ since ∧ pending.rule = rule ∧
        ⟨(ledger before).stored.length, pending⟩ ∈ (ledger before).inserted
  /-- Where a call that installs one rule returns well, it has stored its own triple since it began,
  and the engine has inserted the rule as the commit of that triple. -/
  returned : ∀ before t call rule during after, history =
      before ++ .called t call :: during ++ .returned t .installed :: after →
    call.rules = .ok [rule] → (∀ event ∈ during, event.isReturnOf t = false) →
    (ledger (before ++ .called t call :: during)).stored.length < UInt64.size →
    ∃ earlier later, during = earlier ++ .left t rule .installed :: later ∧
      ∃ others, (ledger (before ++ .called t call :: earlier)).stored =
        (ledger before).stored ++ others ++ [(t, rule)] ∧
      ∃ pending, .inserted pending ∈ earlier ∧ pending.rule = rule ∧
        ⟨(ledger (before ++ .called t call :: earlier)).stored.length, pending⟩ ∈
          (ledger (before ++ .called t call :: earlier)).inserted

/-- **The handshake.**  Whatever the schedule, the engine inserts whole rules that callers asked for,
in the order of their commits; and an installation that ends well, or a call that returns well, has
had its own rule inserted, even behind others that gave up. -/
theorem run_faithful (lane : Lane) (turns : List Turn) :
    Faithful lane.table ((start lane).run turns).2.table
      ((start lane).run turns).1 where
  own := by
    have follows := Follows.start_run lane turns
    intro insertion mem
    obtain ⟨positive, t, found⟩ := follows.applied.own insertion mem
    exact ⟨positive, t, found, follows.recorded.stored_asked _ (List.mem_of_getElem? found)⟩
  ordered := (Follows.start_run lane turns).applied.ordered
  table_eq := (Follows.start_run lane turns).table_eq
  installed := by
    intro before t rule after shape few
    exact run_installed lane shape few
  returned := by
    intro before t call rule during after shape asks stays few
    exact run_returned lane shape asks stays few

-- One caller gives up before the engine has loaded its triple.  The next one stores its triple while
-- the engine has the first number in hand, and is inserted under both numbers.
def ruleGivenUp : Rule := ⟨⟨⟨0x0A000005⟩, 9000⟩, .forward⟩

def ruleBehind : Rule := ⟨⟨⟨0x0A000006⟩, 53⟩, .drop⟩

def turnsAcrossTimeout : List Turn :=
  .call 0 (.install ruleGivenUp) :: .call 1 (.install ruleBehind) ::
    List.replicate 11 (.caller 0 (some 7)) ++ .engine :: List.replicate 7 (.caller 1 none) ++
    [.engine, .engine, .engine, .caller 1 none, .caller 1 none, .caller 1 none, .engine, .engine,
      .engine, .engine, .caller 1 none, .caller 1 none, .caller 1 none]

theorem run_faithful_across_timeout :
    let history := ((start ⟨.start {}, .standard, {}⟩).run turnsAcrossTimeout).1
    (ledger history).outcomes = [.failed (.timeout 1 7), .installed] ∧
      (ledger history).inserted = [⟨2, 1, ruleBehind⟩, ⟨2, 2, ruleBehind⟩] ∧
      (∃ before, history = before ++ [.left 1 ruleBehind .installed, .returned 1 .installed] ∧
        (ledger before).stored.length < UInt64.size ∧
        ∃ earlier since, before = earlier ++ .entered 1 ruleBehind :: since ∧
          ∃ pending, .inserted pending ∈ since ∧ pending.rule = ruleBehind) ∧
      ∃ during, history = [.called 0 (.install ruleGivenUp)] ++
          .called 1 (.install ruleBehind) :: during ++ [.returned 1 .installed] ∧
        ∃ earlier later, during = earlier ++ .left 1 ruleBehind .installed :: later ∧
          ∃ pending, .inserted pending ∈ earlier ∧ pending.rule = ruleBehind := by
  intro history
  have shape : history = history.take 21 ++
      [.left 1 ruleBehind .installed, .returned 1 .installed] := by decide +kernel
  have few : (ledger (history.take 21)).stored.length < UInt64.size := by decide +kernel
  have faithful := run_faithful ⟨.start {}, .standard, {}⟩ turnsAcrossTimeout
  obtain ⟨earlier, since, split, -, -, pending, inserted, rule, -⟩ :=
    faithful.installed _ _ _ _ shape few
  have call_shape : history = [.called 0 (.install ruleGivenUp)] ++
      .called 1 (.install ruleBehind) :: (history.take 22).drop 2 ++ [.returned 1 .installed] := by
    decide +kernel
  obtain ⟨front, later, left, -, -, own, own_inserted, own_rule, -⟩ :=
    faithful.returned _ _ _ _ _ _ call_shape rfl (by decide +kernel) (by decide +kernel)
  exact ⟨by decide +kernel, by decide +kernel,
    ⟨history.take 21, shape, few, earlier, since, split, pending, inserted, rule⟩,
    _, call_shape, front, later, left, own, own_inserted, own_rule⟩

end Handshake
end UdpGate
