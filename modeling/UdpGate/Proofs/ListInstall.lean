import UdpGate.Proofs.CommitOrder
import UdpGate.Proofs.TableHistory

/-!
# Installing a list of keys

A caller installs the keys of a list one after the other, and nobody else writes the registers
meanwhile; a commit of an earlier call may still be pending when it begins.  How far the caller has
come can be read off the stores that it has made (`Handshake.Installing`).  If it comes to the end,
every key is forwarded, because behind the insertion of a key only keys of the list are inserted; if
it gives up, it has installed the keys before, and has stored nothing of the keys behind
(`Handshake.run_installAll`).
-/

namespace UdpGate

def RuleKey.passes (key : RuleKey) : Rule := ⟨key, .forward⟩

-- Whatever was written before, rules that agree on an action decide about the keys that they name.
theorem RuleTable.lookup_foldl_insert_of_forall (table : RuleTable) (rules : List Rule)
    {action : Action} (agree : ∀ rule ∈ rules, rule.action = action) {rule : Rule}
    (mem : rule ∈ rules) : (rules.foldl insert table).lookup rule.key = action := by
  rw [lookup_eq, index_foldl_insert, rule?_foldl_insert]
  cases found : table.latest? rules (table.index rule.key) with
  | none => exact absurd rfl (latest?_eq_none_iff.mp found rule mem)
  | some latest => exact agree latest (mem_of_latest? found).1

namespace Handshake

/-! ## 1. Stores and insertions in a history -/

def Event.store? : Event → Option Store
  | .stored _ _ store => some store
  | _ => none

def Event.insertedRule? : Event → Option Rule
  | .inserted pending => some pending.rule
  | _ => none

def stores (history : List Event) : List Store := history.filterMap Event.store?

def insertedIn (history : List Event) : List Rule := history.filterMap Event.insertedRule?

def storesOf (rule : Rule) : List Store :=
  [.address rule.key.address.value, .port rule.key.port, .code rule.action.code,
    .triple rule.staged]

def Stage.storeCount : Stage → Nat
  | .storeAddress => 0
  | .storePort => 1
  | .storeCode => 2
  | .loadAddress | .loadPort _ | .storeTriple _ _ => 3
  | _ => 4

/-! ## 2. How far a caller has come -/

/-- No value is stored meanwhile, and no installation ends. -/
structure Still (history later : List Event) : Prop where
  stored : (ledger (history ++ later)).stored = (ledger history).stored
  outcomes : (ledger (history ++ later)).outcomes = (ledger history).outcomes
  stores_eq : stores later = []

theorem still_nil (history : List Event) : Still history [] := by
  constructor <;> first | rw [List.append_nil] | rfl

theorem still_singleton (history : List Event) {event : Event} (unstored : event.store? = none)
    (stays : ∀ t rule outcome, event ≠ .left t rule outcome) : Still history [event] where
  stored := by
    rw [ledger_concat]
    cases event with
    | stored t rule store => cases unstored
    | _ => rfl
  outcomes := by
    rw [ledger_concat]
    exact Ledger.outcomes_note _ stays
  stores_eq := by
    rw [stores, List.filterMap_cons, unstored]
    rfl

/-- What has happened since a call: the triples that the caller stored, all the values that it stored
on the way, and how its installations ended. -/
structure Progress (t : Nat) (history since : List Event) (triples : List Rule)
    (made : List Store) (ended : List Outcome) : Prop where
  stored : (ledger (history ++ since)).stored =
    (ledger history).stored ++ triples.map fun rule => (t, rule)
  outcomes : (ledger (history ++ since)).outcomes = (ledger history).outcomes ++ ended
  stores_eq : stores since = made

/-- How far a caller has come that installs rules since its call, by what it is about. -/
def Installing (t : Nat) (rules : List Rule) (history since : List Event) : Caller → Prop
  | .away => True
  | .waiting rule rest => ∃ before, rules = before ++ rule :: rest ∧
      Progress t history since before (before.flatMap storesOf)
        (List.replicate before.length .installed)
  | .writing rule rest stage => ∃ before, rules = before ++ rule :: rest ∧
      Progress t history since (before ++ if stage.hasStored then [rule] else [])
        (before.flatMap storesOf ++ (storesOf rule).take stage.storeCount)
        (List.replicate before.length .installed)
  | .returning .installed => Progress t history since rules (rules.flatMap storesOf)
      (List.replicate rules.length .installed)
  | .returning (.failed fault) => ∃ before rule rest, rules = before ++ rule :: rest ∧
      Progress t history since (before ++ [rule]) ((before ++ [rule]).flatMap storesOf)
        (List.replicate before.length .installed ++ [.failed fault])

structure Alone (s : Handshake) (t : Nat) (rules : List Rule) (history since : List Event) : Prop where
  away : ∀ u, u ≠ t → s.callers u = .away
  installing : Installing t rules history since (s.callers t)

variable {s s' : Handshake} {event : Option Event} {t : Nat} {rules : List Rule}
  {history since later : List Event} {table : RuleTable}

section Progress

variable {triples : List Rule} {made : List Store} {ended : List Outcome}

theorem Progress.still (h : Progress t history since triples made ended)
    (still : Still (history ++ since) later) :
    Progress t history (since ++ later) triples made ended where
  stored := by rw [← List.append_assoc, still.stored, h.stored]
  outcomes := by rw [← List.append_assoc, still.outcomes, h.outcomes]
  stores_eq := by
    rw [stores, List.filterMap_append]
    show stores since ++ stores later = made
    rw [still.stores_eq, List.append_nil, h.stores_eq]

theorem Progress.store (h : Progress t history since triples made ended) (rule : Rule)
    (store : Store)
    (same : (ledger (history ++ since)).note (.stored t rule store) = ledger (history ++ since)) :
    Progress t history (since ++ [.stored t rule store]) triples (made ++ [store]) ended where
  stored := by rw [← List.append_assoc, ledger_concat, same, h.stored]
  outcomes := by rw [← List.append_assoc, ledger_concat, same, h.outcomes]
  stores_eq := by
    rw [← h.stores_eq, stores, stores, List.filterMap_append]
    rfl

theorem Progress.storeTriple (h : Progress t history since triples made ended) (rule : Rule)
    (staged : StagedRule) :
    Progress t history (since ++ [.stored t rule (.triple staged)]) (triples ++ [rule])
      (made ++ [.triple staged]) ended where
  stored := by
    rw [← List.append_assoc, ledger_concat, List.map_append, ← List.append_assoc, ← h.stored]
    rfl
  outcomes := by
    rw [← List.append_assoc, ledger_concat]
    exact h.outcomes
  stores_eq := by
    rw [← h.stores_eq, stores, stores, List.filterMap_append]
    rfl

theorem Progress.leave (h : Progress t history since triples made ended) (rule : Rule)
    (outcome : Outcome) :
    Progress t history (since ++ [.left t rule outcome]) triples made (ended ++ [outcome]) where
  stored := by
    rw [← List.append_assoc, ledger_concat]
    exact h.stored
  outcomes := by
    rw [← List.append_assoc, ledger_concat, ← List.append_assoc, ← h.outcomes]
    rfl
  stores_eq := by
    rw [← h.stores_eq, stores, stores, List.filterMap_append]
    exact List.append_nil _

end Progress

theorem Installing.still {caller : Caller} (h : Installing t rules history since caller)
    (still : Still (history ++ since) later) :
    Installing t rules history (since ++ later) caller := by
  cases caller with
  | away => trivial
  | waiting rule rest =>
    obtain ⟨before, shape, progress⟩ := h
    exact ⟨before, shape, progress.still still⟩
  | writing rule rest stage =>
    obtain ⟨before, shape, progress⟩ := h
    exact ⟨before, shape, progress.still still⟩
  | returning outcome =>
    cases outcome with
    | installed => exact Progress.still h still
    | failed fault =>
      obtain ⟨before, rule, rest, shape, progress⟩ := h
      exact ⟨before, rule, rest, shape, progress.still still⟩

-- A caller inside the lock makes its next store, or none.
theorem Installing.access {rule : Rule} {rest : List Rule} {stage : Stage} {box : Mailbox}
    (h : Installing t rules history since (.writing rule rest stage))
    (relies : stage.Relies rule box) (busy : ∀ outcome, stage ≠ .done outcome) (late : Option Nat) :
    Installing t rules history (since ++ (stage.access t rule late box).1.toList)
      (.writing rule rest (stage.access t rule late box).2.2) := by
  obtain ⟨before, shape, progress⟩ := h
  refine ⟨before, shape, ?_⟩
  have assoc (made : List Store) (store : Store) :
      before.flatMap storesOf ++ made ++ [store] = before.flatMap storesOf ++ (made ++ [store]) :=
    List.append_assoc ..
  have silent := progress.still (still_nil _)
  cases stage with
  | storeAddress =>
    have next := progress.store rule (.address rule.key.address.value) rfl
    rw [assoc] at next
    exact next
  | storePort =>
    have next := progress.store rule (.port rule.key.port) rfl
    rw [assoc] at next
    exact next
  | storeCode =>
    have next := progress.store rule (.code rule.action.code) rfl
    rw [assoc] at next
    exact next
  | loadAddress => exact silent
  | loadPort address => exact silent
  | storeTriple address port =>
    obtain ⟨rfl, rfl⟩ := relies
    have next := progress.storeTriple rule rule.staged
    rw [assoc, List.append_assoc] at next
    exact next
  | count => exact progress.still (still_singleton _ rfl nofun)
  | loadNumber => exact silent
  | poll number =>
    by_cases applied : number ≤ box.applied
    · rw [show Stage.access t rule late box (.poll number) = _ from if_pos applied]
      exact silent
    · rw [show Stage.access t rule late box (.poll number) = _ from if_neg applied]
      cases late <;> exact silent
  | done outcome => exact absurd rfl (busy outcome)

-- A caller leaves the lock, to go on with the next rule or to return.
theorem Installing.leave {rule : Rule} {rest : List Rule} {outcome : Outcome}
    (h : Installing t rules history since (.writing rule rest (.done outcome))) :
    Installing t rules history (since ++ [.left t rule outcome]) (.after rest outcome) := by
  obtain ⟨before, shape, progress⟩ := h
  have next := progress.leave rule outcome
  have made : before.flatMap storesOf ++ storesOf rule = (before ++ [rule]).flatMap storesOf := by
    rw [List.flatMap_append, List.flatMap_singleton]
  change Progress t history _ (before ++ [rule]) (before.flatMap storesOf ++ storesOf rule) _ at next
  rw [made] at next
  cases outcome with
  | failed fault => exact ⟨before, rule, rest, shape, next⟩
  | installed =>
    have ended : List.replicate before.length Outcome.installed ++ [.installed] =
        List.replicate (before ++ [rule]).length .installed := by
      rw [List.length_append, List.length_singleton, List.replicate_succ']
    rw [ended] at next
    cases rest with
    | nil =>
      subst shape
      exact next
    | cons following rest =>
      refine ⟨before ++ [rule], ?_, next⟩
      rw [shape, List.append_assoc]
      rfl

/-! ## 3. A turn -/

-- Nobody else is about anything.
theorem Alone.eq_of_ne_away (h : s.Alone t rules history since) {u : Nat}
    (busy : s.callers u ≠ .away) : u = t :=
  Classical.byContradiction fun other => busy (h.away u other)

theorem Alone.withCaller (h : s.Alone t rules history since) {caller : Caller}
    (installing : Installing t rules history (since ++ later) caller) :
    (s.withCaller t caller).Alone t rules history (since ++ later) where
  away u other := (if_neg other).trans (h.away u other)
  installing := by
    rw [callers_withCaller, if_pos rfl]
    exact installing

theorem Alone.still (h : s.Alone t rules history since) (callers : s'.callers = s.callers)
    (still : Still (history ++ since) later) : s'.Alone t rules history (since ++ later) where
  away u other := by rw [callers, h.away u other]
  installing := by
    rw [callers]
    exact h.installing.still still

theorem Alone.step (h : s.Alone t rules history since)
    (follows : s.Follows table (history ++ since)) (step : Step s event s')
    (no_call : ∀ u call, event ≠ some (.called u call)) :
    s'.Alone t rules history (since ++ event.toList) := by
  have installing := h.installing
  cases step with
  | nothing => exact h.still rfl (still_nil _)
  | call u call away => exact absurd rfl (no_call u call)
  | enter u rule rest waits free =>
    obtain rfl := h.eq_of_ne_away (by rw [waits]; nofun)
    rw [waits] at installing
    have quiet : Still (history ++ since) [.entered u rule] := still_singleton _ rfl nofun
    obtain ⟨before, shape, progress⟩ := installing.still quiet
    have entered : Installing u rules history (since ++ [.entered u rule])
        (.writing rule rest .storeAddress) := by
      refine ⟨before, shape, ?_⟩
      show Progress u history _ (before ++ []) (before.flatMap storesOf ++ []) _
      rw [List.append_nil, List.append_nil]
      exact progress
    exact ⟨(h.withCaller entered).away, (h.withCaller entered).installing⟩
  | access u rule rest stage late writes busy =>
    obtain rfl := h.eq_of_ne_away (by rw [writes]; nofun)
    rw [writes] at installing
    have relies := (follows.recorded.inside u rule rest stage writes).relies
    have next := h.withCaller (installing.access relies busy late)
    exact ⟨next.away, next.installing⟩
  | leave u rule rest outcome writes =>
    obtain rfl := h.eq_of_ne_away (by rw [writes]; nofun)
    rw [writes] at installing
    have next := h.withCaller installing.leave
    exact ⟨next.away, next.installing⟩
  | finish u outcome returns =>
    obtain rfl := h.eq_of_ne_away (by rw [returns]; nofun)
    exact h.withCaller trivial
  | engine =>
    refine h.still rfl ?_
    cases seen : (s.taking.access s.engine).1 with
    | none => exact still_nil _
    | some event =>
      rcases s.taking.event_access s.engine seen with ⟨_, rfl⟩ | ⟨_, rfl⟩ | ⟨_, rfl⟩ <;>
        exact still_singleton _ rfl nofun
  | pass chunk rests => exact h.still rfl (still_singleton _ rfl nofun)

def Turn.isCall : Turn → Bool
  | .call _ _ => true
  | _ => false

theorem take_ne_called (s : Handshake) {turn : Turn} (no_call : turn.isCall = false) (u : Nat)
    (call : Call) : (s.take turn).1 ≠ some (.called u call) := by
  intro seen
  cases turn with
  | call t call => cases no_call
  | caller t late =>
    rw [take, callerTurn] at seen
    split at seen
    case h_1 => cases seen
    case h_2 =>
      split at seen <;> cases seen
    case h_3 =>
      split at seen
      case h_1 => cases seen
      case h_2 => rcases Stage.event_access _ _ _ _ _ seen with ⟨_, other⟩ | other <;> cases other
    case h_4 => cases seen
  | engine =>
    rcases s.taking.event_access s.engine seen with ⟨_, other⟩ | ⟨_, other⟩ | ⟨_, other⟩ <;> cases other
  | chunk chunk =>
    rw [take] at seen
    split at seen <;> cases seen

theorem Alone.run (h : s.Alone t rules history since)
    (follows : s.Follows table (history ++ since)) (turns : List Turn)
    (no_call : ∀ turn ∈ turns, turn.isCall = false) :
    (s.run turns).2.Alone t rules history (since ++ (s.run turns).1) := by
  induction turns generalizing s since with
  | nil =>
    rw [Handshake.run, List.append_nil]
    exact h
  | cons turn turns ih =>
    have next := h.step follows (s.step_take turn)
      (s.take_ne_called (no_call turn List.mem_cons_self))
    have goes := follows.take turn
    rw [List.append_assoc] at goes
    rw [run_cons, ← List.append_assoc]
    exact ih next goes fun turn mem => no_call turn (List.mem_cons_of_mem _ mem)

/-! ## 4. What was inserted since -/

theorem Ledger.inserted_foldl_note (book : Ledger) (events : List Event) :
    ∃ news, (events.foldl note book).inserted = book.inserted ++ news ∧
      news.map (·.pending.rule) = insertedIn events := by
  induction events generalizing book with
  | nil => exact ⟨[], (List.append_nil _).symm, rfl⟩
  | cons event events ih =>
    obtain ⟨news, split, rules⟩ := ih (book.note event)
    cases event with
    | inserted pending =>
      refine ⟨⟨book.taken, pending⟩ :: news, ?_, ?_⟩
      · rw [List.foldl_cons, split]
        exact List.append_assoc ..
      · rw [List.map_cons, rules]
        rfl
    | stored u rule store =>
      refine ⟨news, ?_, rules⟩
      rw [List.foldl_cons, split]
      cases store <;> rfl
    | _ => exact ⟨news, split, rules⟩

-- Insertions in the order of their commits, among which are those of some commits in a row.
theorem sublist_of_commits {insertions : List Insertion}
    (ordered : insertions.Pairwise fun first second => first.commit ≤ second.commit)
    {rules : List Rule} {base : Nat}
    (own : ∀ insertion ∈ insertions, ∀ i rule, insertion.commit = base + i + 1 →
      rules[i]? = some rule → insertion.pending.rule = rule)
    (found : ∀ i, i < rules.length → ∃ insertion ∈ insertions, insertion.commit = base + i + 1) :
    rules.Sublist (insertions.map (·.pending.rule)) := by
  induction rules generalizing insertions base with
  | nil => exact List.nil_sublist _
  | cons rule rules ih =>
    obtain ⟨insertion, mem, commit⟩ := found 0 (Nat.succ_pos _)
    obtain ⟨before, after, rfl⟩ := List.append_of_mem mem
    obtain ⟨-, later, across⟩ := List.pairwise_append.mp ordered
    rw [List.pairwise_cons] at later
    have head : insertion.pending.rule = rule := own insertion mem 0 rule commit rfl
    -- The other commits were inserted behind this one.
    have rest : rules.Sublist (after.map (·.pending.rule)) := by
      refine @ih after later.2 (base + 1) ?_ ?_
      · intro next inside i other commit found
        refine own next ?_ (i + 1) other (by omega) found
        exact List.mem_append_right _ (List.mem_cons_of_mem _ inside)
      · intro i inside
        obtain ⟨next, mem, next_commit⟩ := found (i + 1) (Nat.succ_lt_succ inside)
        refine ⟨next, ?_, by omega⟩
        rcases List.mem_append.mp mem with early | late
        · have := across next early insertion List.mem_cons_self
          omega
        · rcases List.mem_cons.mp late with rfl | behind
          · omega
          · exact behind
    rw [List.map_append, List.map_cons, head]
    exact (rest.cons_cons rule).trans (List.sublist_append_right _ _)

/-- What was inserted since some point, when a caller stored these triples since. -/
structure News (history since : List Event) (triples : List Rule) (news : List Insertion) : Prop where
  split : (ledger (history ++ since)).inserted = (ledger history).inserted ++ news
  rules : news.map (·.pending.rule) = insertedIn since
  ordered : news.Pairwise fun first second => first.commit ≤ second.commit
  own : ∀ insertion ∈ news, ∀ i rule, insertion.commit = (ledger history).stored.length + i + 1 →
    triples[i]? = some rule → insertion.pending.rule = rule
  behind : ∀ insertion ∈ news, (ledger history).stored.length < insertion.commit →
    insertion.pending.rule ∈ triples

theorem Follows.news (h : s.Follows table (history ++ since)) {triples : List Rule}
    (stored : (ledger (history ++ since)).stored =
      (ledger history).stored ++ triples.map fun rule => (t, rule)) :
    ∃ news, News history since triples news := by
  obtain ⟨news, split, rules⟩ := (ledger history).inserted_foldl_note since
  rw [← ledger_append] at split
  -- An insertion of a commit since then is one of a triple stored since then.
  have own (insertion : Insertion) (mem : insertion ∈ news) (i : Nat)
      (commit : insertion.commit = (ledger history).stored.length + i + 1) :
      triples[i]? = some insertion.pending.rule := by
    obtain ⟨-, u, found⟩ := h.applied.own insertion (split ▸ List.mem_append_right _ mem)
    rw [commit, Nat.add_sub_cancel, stored,
      List.getElem?_append_right (Nat.le_add_right _ _), Nat.add_sub_cancel_left,
      List.getElem?_map, Option.map_eq_some_iff] at found
    obtain ⟨rule, found, same⟩ := found
    cases same
    exact found
  refine ⟨news, split, rules, ?_, ?_, ?_⟩
  · have ordered := h.applied.ordered
    rw [split] at ordered
    exact (List.pairwise_append.mp ordered).2.1.imp And.left
  · intro insertion mem i rule commit found
    rw [own insertion mem i commit, Option.some.injEq] at found
    exact found
  · intro insertion mem behind
    refine List.mem_of_getElem?
      (own insertion mem (insertion.commit - (ledger history).stored.length - 1) ?_)
    omega

/-! ## 5. The call -/

/-- How far the keys of a list have come since a call: so many were inserted in their order, and so
many were stored and committed. -/
structure Reached (before after : Handshake) (since : List Event) (keys : List RuleKey)
    (inserted committed : Nat) : Prop where
  commits : after.mailbox.commits.toNat = before.mailbox.commits.toNat + committed
  inserted : ((keys.take inserted).map RuleKey.passes).Sublist (insertedIn since)
  stores : stores since = ((keys.take committed).map RuleKey.passes).flatMap storesOf

-- The installations that ended well have their insertions among those since the call.
theorem News.found {triples : List Rule} {made : List Store} {ended : List Outcome}
    {news : List Insertion} {box : Mailbox} (h : News history since triples news)
    (progress : Progress t history since triples made ended)
    (even : (ledger history).stored.length = (ledger history).outcomes.length)
    (all : Ended box (ledger (history ++ since))) {i : Nat} (installed : ended[i]? = some .installed)
    (few : (ledger history).stored.length + i + 1 < UInt64.size) :
    ∃ insertion ∈ news, insertion.commit = (ledger history).stored.length + i + 1 := by
  have outcome : (ledger (history ++ since)).outcomes[(ledger history).stored.length + i]? =
      some .installed := by
    rw [progress.outcomes, even, List.getElem?_append_right (Nat.le_add_right _ _),
      Nat.add_sub_cancel_left, installed]
  obtain ⟨insertion, mem, commit⟩ := all.inserted _ outcome few
  rw [h.split] at mem
  rcases List.mem_append.mp mem with old | new
  · have := commit_le_stored history insertion old
    omega
  · exact ⟨insertion, new, commit⟩

-- Behind the insertion of a key only rules of the list are inserted.
theorem News.lookup {news : List Insertion} {keys : List RuleKey}
    (h : News history since (keys.map RuleKey.passes) news)
    (found : ∀ i, i < keys.length →
      ∃ insertion ∈ news, insertion.commit = (ledger history).stored.length + i + 1)
    (table : RuleTable) {key : RuleKey} (mem : key ∈ keys) :
    ((ledger (history ++ since)).insertedRules.foldl RuleTable.insert table).lookup key =
      .forward := by
  obtain ⟨i, inside, rfl⟩ := List.getElem_of_mem mem
  obtain ⟨insertion, new, commit⟩ := found i inside
  have rule : insertion.pending.rule = keys[i].passes := by
    refine h.own insertion new i _ commit ?_
    rw [List.getElem?_map, List.getElem?_eq_getElem inside]
    rfl
  obtain ⟨before, after, split⟩ := List.append_of_mem new
  have ordered := h.ordered
  rw [split, List.pairwise_append, List.pairwise_cons] at ordered
  obtain ⟨-, ⟨later, -⟩, -⟩ := ordered
  have forwards : ∀ rule ∈ (insertion :: after).map (·.pending.rule), rule.action = .forward := by
    intro rule mem
    obtain ⟨next, among, rfl⟩ := List.mem_map.mp mem
    have behind : (ledger history).stored.length < next.commit := by
      rcases List.mem_cons.mp among with rfl | after
      · omega
      · have := later next after
        omega
    have listed := h.behind next (split ▸ List.mem_append_right _ among) behind
    obtain ⟨key, -, same⟩ := List.mem_map.mp listed
    rw [← same]
    rfl
  rw [Ledger.insertedRules, h.split, split, List.map_append, List.map_append, List.foldl_append,
    List.foldl_append]
  have decided := RuleTable.lookup_foldl_insert_of_forall
    ((before.map (·.pending.rule)).foldl RuleTable.insert
      (((ledger history).inserted.map (·.pending.rule)).foldl RuleTable.insert table))
    _ forwards (List.mem_map_of_mem List.mem_cons_self)
  rw [rule] at decided
  exact decided

/-- What a caller that installs a list of keys has done when it returns. -/
def ListAnswer (before after : Handshake) (since : List Event) (keys : List RuleKey) :
    Outcome → Prop
  | .installed => (∀ key ∈ keys, after.table.lookup key = .forward) ∧
      Reached before after since keys keys.length keys.length
  | .failed fault => ∃ j waited, j < keys.length ∧ fault = .timeout after.mailbox.commits waited ∧
      Reached before after since keys j (j + 1)

section Call

variable {before after : Handshake} {keys : List RuleKey}

theorem Follows.commits_since (first : before.Follows table history)
    (h : after.Follows table (history ++ since)) (ready : before.writer = none)
    (free : after.writer = none) {triples : List Rule} {made : List Store} {ended : List Outcome}
    (progress : Progress t history since triples made ended)
    (few : (ledger history).stored.length + triples.length < UInt64.size) :
    after.mailbox.commits.toNat = before.mailbox.commits.toNat + ended.length := by
  have length : (ledger (history ++ since)).stored.length =
      (ledger history).stored.length + triples.length := by
    rw [progress.stored, List.length_append, List.length_map]
  rw [h.commits_eq free (by omega), first.commits_eq ready (by omega), progress.outcomes,
    List.length_append]

theorem Follows.listAnswer (first : before.Follows table history)
    (h : after.Follows table (history ++ since)) (ended : Ended after.mailbox (ledger (history ++ since)))
    (ready : before.writer = none) (alone : after.Alone t (keys.map RuleKey.passes) history since)
    (few : (ledger history).stored.length + keys.length < UInt64.size) {outcome : Outcome}
    (returns : after.callers t = .returning outcome) :
    ListAnswer before (after.withCaller t .away) since keys outcome := by
  have free : after.writer = none := by
    refine LockedBy.free_of_outside h.locked fun u => ?_
    by_cases here : u = t
    · rw [here, returns]
      rfl
    · rw [alone.away u here]
      rfl
  have even := (first.recorded.free ready).2
  have installing := alone.installing
  rw [returns] at installing
  cases outcome with
  | installed =>
    have progress : Progress t history since _ _ _ := installing
    obtain ⟨news, found⟩ := h.news progress.stored
    have all : ∀ i, i < keys.length →
        ∃ insertion ∈ news, insertion.commit = (ledger history).stored.length + i + 1 := by
      intro i inside
      refine found.found progress even ended ?_ (by omega)
      rw [List.getElem?_replicate, List.length_map, if_pos inside]
    have commits := first.commits_since h ready free progress (by rwa [List.length_map])
    rw [List.length_replicate, List.length_map] at commits
    refine ⟨?_, commits, ?_, ?_⟩
    · intro key mem
      show after.table.lookup key = .forward
      rw [h.table_eq]
      exact found.lookup all table mem
    · rw [List.take_length, ← found.rules]
      exact sublist_of_commits found.ordered found.own fun i inside =>
        all i (by rwa [List.length_map] at inside)
    · rw [List.take_length]
      exact progress.stores_eq
  | failed fault =>
    obtain ⟨done, rule, rest, shape, progress⟩ := installing
    obtain ⟨news, found⟩ := h.news progress.stored
    have length := congrArg List.length shape
    rw [List.length_map, List.length_append, List.length_cons] at length
    have prior : (keys.take done.length).map RuleKey.passes = done := by
      rw [List.map_take, shape, List.take_left]
    have tried : (keys.take (done.length + 1)).map RuleKey.passes = done ++ [rule] := by
      rw [List.map_take, shape, List.take_length_add_append]
      rfl
    have commits := first.commits_since h ready free progress (by
      rw [List.length_append, List.length_singleton]
      omega)
    rw [List.length_append, List.length_replicate, List.length_singleton] at commits
    -- The fault names the commit that was made last.
    obtain ⟨waited, timeout⟩ := ended.failed ((ledger history).outcomes.length + done.length) fault (by
      rw [progress.outcomes, List.getElem?_append_right (Nat.le_add_right _ _),
        Nat.add_sub_cancel_left, List.getElem?_append_right (Nat.le_of_eq List.length_replicate),
        List.length_replicate, Nat.sub_self]
      rfl)
    have number : UInt64.ofNat ((ledger history).outcomes.length + done.length + 1) =
        after.mailbox.commits := by
      rw [← UInt64.ofNat_toNat (x := after.mailbox.commits), commits,
        first.commits_eq ready (by omega), Nat.add_assoc]
    rw [number] at timeout
    refine ⟨done.length, waited, by omega, timeout, commits, ?_, ?_⟩
    · rw [prior, ← found.rules]
      refine @sublist_of_commits news found.ordered done (ledger history).stored.length ?_ ?_
      · intro insertion mem i other commit entry
        exact found.own insertion mem i other commit
          (getElem?_extend (List.prefix_append done [rule]) entry)
      · intro i inside
        refine found.found progress even ended ?_ (by omega)
        rw [List.getElem?_append_left (by rwa [List.length_replicate]), List.getElem?_replicate,
          if_pos inside]
    · rw [tried]
      exact progress.stores_eq

end Call

/-- **A list of keys.**  Behind any schedule that left no caller busy, a caller installs the keys of a
list while the engine steps as it likes.  When the call ends well, every key of the list is
forwarded; when it gives up at a key, the keys before have been inserted in order, and no value of a
key behind has been stored. -/
theorem run_installAll (lane : Lane) (earlier : List Turn) (t : Nat) (keys : List RuleKey)
    (later : List Turn) (last : Turn) (outcome : Outcome)
    (away : ∀ u, ((start lane).run earlier).2.callers u = .away)
    (few : (ledger ((start lane).run earlier).1).stored.length + keys.length < UInt64.size)
    (no_call : ∀ turn ∈ later, turn.isCall = false)
    (returned : ((((start lane).run earlier).2.run (.call t (.installAll keys) :: later)).2.take
      last).1 = some (.returned t outcome)) :
    ListAnswer ((start lane).run earlier).2
      ((((start lane).run earlier).2.run (.call t (.installAll keys) :: later)).2.take last).2
      (((start lane).run earlier).2.run (.call t (.installAll keys) :: later)).1 keys outcome := by
  have first := Follows.start_run lane earlier
  have ended_first := (ended_start lane).run (follows_start lane) earlier
  rw [List.nil_append] at ended_first
  generalize ((start lane).run earlier).2 = before at *
  generalize ((start lane).run earlier).1 = history at *
  have ready : before.writer = none :=
    LockedBy.free_of_outside first.locked fun u => by rw [away u]; rfl
  have calls : before.take (.call t (.installAll keys)) = (some (.called t (.installAll keys)),
      before.withCaller t (.ofRules (keys.map RuleKey.passes))) := by
    rw [take, away t]
    rfl
  -- The call has been made, and nothing has happened since.
  have alone : (before.withCaller t (.ofRules (keys.map RuleKey.passes))).Alone t
      (keys.map RuleKey.passes) history [.called t (.installAll keys)] := by
    refine ⟨fun u other => (if_neg other).trans (away u), ?_⟩
    have progress : Progress t history [.called t (.installAll keys)] [] [] [] := by
      constructor
      · rw [ledger_concat]
        exact (List.append_nil _).symm
      · rw [ledger_concat]
        exact (List.append_nil _).symm
      · rfl
    rw [callers_withCaller, if_pos rfl]
    cases keys with
    | nil => exact progress
    | cons key keys => exact ⟨[], rfl, progress⟩
  have follows := first.take (.call t (.installAll keys))
  have ended := ended_first.step first (before.step_take (.call t (.installAll keys)))
  rw [calls] at follows ended
  have follows_all := follows.run later
  have ended_all := ended.run follows later
  have alone_all := alone.run follows later no_call
  rw [List.append_assoc] at follows_all ended_all
  rw [run_cons, calls] at returned ⊢
  obtain ⟨returns, now⟩ := (step_take _ last).of_returned returned
  rw [now]
  exact first.listAnswer follows_all ended_all ready alone_all few returns

-- A rule that drops a key in the slot of all keys listed is pending.  The engine has it in hand when
-- the first key is stored, and inserts it then.  The second key is given up, or all are installed.
def pendingDrop : List Turn :=
  .call 0 (.install ⟨RuleTable.neighbourKey, .drop⟩) :: List.replicate 12 (.caller 0 (some 5))

def listedKeys : List RuleKey := [Lane.sampleKey, RuleTable.neighbourKey, Lane.sampleKey]

def turnsToSecondKey : List Turn :=
  [.engine, .engine] ++ List.replicate 9 (.caller 0 none) ++ [.engine, .engine] ++ idleTurns ++
    List.replicate 11 (.caller 0 none)

def turnsToTimeout : List Turn := turnsToSecondKey ++ [.caller 0 (some 7), .caller 0 none]

def turnsToEnd : List Turn :=
  turnsToSecondKey ++ idleTurns ++ List.replicate 11 (.caller 0 none) ++ idleTurns ++
    List.replicate 2 (.caller 0 none)

theorem run_installAll_pending_drop :
    let before := ((start emptyLane).run pendingDrop).2
    let ends := fun later => before.run (.call 0 (.installAll listedKeys) :: later)
    (∀ u, before.callers u = .away) ∧ before.mailbox.commits = 1 ∧ before.mailbox.applied = 0 ∧
      (ledger ((start emptyLane).run pendingDrop).1).stored.length + listedKeys.length <
        UInt64.size ∧
      ((ends turnsToEnd).2.take (.caller 0 none)).1 = some (.returned 0 .installed) ∧
      ((ends turnsToTimeout).2.take (.caller 0 none)).1 =
        some (.returned 0 (.failed (.timeout 3 7))) ∧
      insertedIn (ends turnsToEnd).1 =
        ⟨RuleTable.neighbourKey, .drop⟩ :: listedKeys.map RuleKey.passes ∧
      (∀ key ∈ listedKeys,
        ((ends turnsToEnd).2.take (.caller 0 none)).2.table.lookup key = .forward) ∧
      ListAnswer before ((ends turnsToTimeout).2.take (.caller 0 none)).2 (ends turnsToTimeout).1
        listedKeys (.failed (.timeout 3 7)) := by
  intro before ends
  have away (u : Nat) : before.callers u = .away := by
    cases u with
    | zero => rfl
    | succ u => rfl
  have few : (ledger ((start emptyLane).run pendingDrop).1).stored.length + listedKeys.length <
      UInt64.size := by decide +kernel
  have ended : ((ends turnsToEnd).2.take (.caller 0 none)).1 = some (.returned 0 .installed) := by
    decide +kernel
  have gave_up : ((ends turnsToTimeout).2.take (.caller 0 none)).1 =
      some (.returned 0 (.failed (.timeout 3 7))) := by decide +kernel
  have all := run_installAll emptyLane pendingDrop 0 listedKeys turnsToEnd (.caller 0 none)
    .installed away few (by decide) ended
  have some_keys := run_installAll emptyLane pendingDrop 0 listedKeys turnsToTimeout (.caller 0 none)
    (.failed (.timeout 3 7)) away few (by decide) gave_up
  exact ⟨away, by decide +kernel, by decide +kernel, few, ended, gave_up, by decide +kernel, all.1,
    some_keys⟩

end Handshake
end UdpGate
