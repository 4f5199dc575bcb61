import UdpGate.Proofs.MailboxRun
import UdpGate.Proofs.WordPairs

/-!
# What the registers show

Words are written and read, commits are looked at and acknowledged, and packets are counted, in any
order.  What the registers show is then said by the writes and the packets alone: a counter has grown
by what the packets add to it, and a rule register holds the word that was written to it last, as far
as it has room for it.  An access that only looks could as well be left out (`Console.run_shows`).
-/

namespace UdpGate
namespace Console

/-! ## 1. Accesses -/

inductive Access where
  | write (word : WordWrite)
  | read (offset : UInt32)
  | readPair (offset : UInt32)
  | readCounters
  | pending (applied : UInt64)
  | acknowledge (number : UInt64)
  | record (packet : PacketCount)
deriving DecidableEq

inductive Answer where
  | nothing
  | word (value : UInt32)
  | pair (value? : Option UInt64)
  | counters (tally : Tally)
  | pending (pending? : Option PendingRule)
deriving DecidableEq

def answer (console : Console) : Access → Answer × Console
  | .write word => (.nothing, console.write word.offset word.value)
  | .read offset => (.word (console.read offset), console)
  | .readPair offset => (.pair (console.readPair? offset), console)
  | .readCounters => (.counters console.counters, console)
  | .pending applied => (.pending (console.mailbox.pending? applied), console)
  | .acknowledge number =>
    (.nothing, { console with mailbox := console.mailbox.acknowledge number })
  | .record packet =>
    (.nothing, { console with tally := console.tally.record packet.chunks packet.forwarded })

def run (console : Console) : List Access → List Answer × Console
  | [] => ([], console)
  | access :: accesses =>
    let (answer, after) := console.answer access
    let (answers, last) := after.run accesses
    (answer :: answers, last)

namespace Access

def acts : Access → Bool
  | write _ | acknowledge _ | record _ => true
  | read _ | readPair _ | readCounters | pending _ => false

def write? : Access → Option WordWrite
  | write word => some word
  | _ => none

def packet? : Access → Option PacketCount
  | record packet => some packet
  | _ => none

end Access

def writes (accesses : List Access) : List WordWrite := accesses.filterMap Access.write?

def packets (accesses : List Access) : List PacketCount := accesses.filterMap Access.packet?

theorem writes_concat (accesses : List Access) (access : Access) :
    writes (accesses ++ [access]) = writes accesses ++ access.write?.toList := by
  rw [writes, List.filterMap_append, writes]
  cases access <;> rfl

theorem packets_concat (accesses : List Access) (access : Access) :
    packets (accesses ++ [access]) = packets accesses ++ access.packet?.toList := by
  rw [packets, List.filterMap_append, packets]
  cases access <;> rfl

/-! ## 2. What an access keeps -/

structure Follows (console : Console) (first : Tally) (history : List Access) : Prop where
  holds : console.mailbox.Holds (writes history)
  tally_eq : console.tally = first.recordAll (packets history)

variable {console : Console} {first : Tally} {history : List Access}

theorem tally_write (console : Console) (offset value : UInt32) :
    (console.write offset value).tally = console.tally := by
  unfold write
  split_ifs <;> rfl

theorem follows_fresh (first : Tally) : Follows { tally := first } first [] :=
  ⟨Mailbox.holds_fresh, rfl⟩

-- Nothing that a history tells of is changed by an access that neither writes nor counts.
theorem Follows.pass (h : console.Follows first history) {after : Console} {access : Access}
    (no_write : access.write? = none) (no_packet : access.packet? = none)
    (holds : after.mailbox.Holds (writes history)) (tally_eq : after.tally = console.tally) :
    after.Follows first (history ++ [access]) where
  holds := by
    rw [writes_concat, no_write, Option.toList_none, List.append_nil]
    exact holds
  tally_eq := by
    rw [packets_concat, no_packet, Option.toList_none, List.append_nil, tally_eq]
    exact h.tally_eq

theorem Follows.answer (h : console.Follows first history) (access : Access) :
    (console.answer access).2.Follows first (history ++ [access]) := by
  cases access with
  | write word =>
    constructor
    · rw [writes_concat]
      exact h.holds.write word.offset word.value
    · rw [packets_concat]
      show (console.write word.offset word.value).tally = first.recordAll (packets history ++ [])
      rw [tally_write, List.append_nil]
      exact h.tally_eq
  | record packet =>
    constructor
    · rw [writes_concat]
      show console.mailbox.Holds (writes history ++ [])
      rw [List.append_nil]
      exact h.holds
    · rw [packets_concat, Tally.recordAll]
      show _ = (packets history ++ [packet]).foldl _ first
      rw [List.foldl_concat, ← Tally.recordAll, ← h.tally_eq]
      rfl
  | acknowledge number =>
    exact h.pass rfl rfl ⟨h.holds.staged, h.holds.committed, h.holds.commits⟩ rfl
  | read | readPair | readCounters | pending => exact h.pass rfl rfl h.holds rfl

theorem Follows.run (h : console.Follows first history) (accesses : List Access) :
    (console.run accesses).2.Follows first (history ++ accesses) := by
  induction accesses generalizing console history with
  | nil =>
    rw [List.append_nil]
    exact h
  | cons access accesses ih =>
    have rest := ih (h.answer access)
    rw [List.append_assoc] at rest
    exact rest

/-! ## 3. What is shown -/

/-- The registers show a history: each counter what the packets add up to, by itself and among all,
and each rule register the word written last, cut to 32, 16 and 8 bits. -/
structure Shows (console : Console) (first : Tally) (history : List Access) : Prop where
  counter : ∀ counter : Counter, counter.read console.tally =
    counter.read first + UInt64.ofNat (counter.total (packets history))
  pair : ∀ counter : Counter, console.readPair? counter.offset = some (counter.read console.tally)
  counters : console.counters = console.tally
  address : console.read addressOffset = lastWritten addressOffset (writes history)
  port : (console.read portOffset).toNat = (lastWritten portOffset (writes history)).toNat % 2 ^ 16
  action : (console.read actionOffset).toNat =
    (lastWritten actionOffset (writes history)).toNat % 2 ^ 8

theorem readPair?_offset (console : Console) (counter : Counter) :
    console.readPair? counter.offset = some (counter.read console.tally) := by
  unfold readPair?
  rw [if_pos (by cases counter <;> decide), read_low, read_high, joinWords_lowWord_highWord]

theorem Follows.shows (h : console.Follows first history) : console.Shows first history where
  counter counter := by
    rw [h.tally_eq]
    exact counter.read_recordAll first (packets history)
  pair := console.readPair?_offset
  counters := console.counters_eq
  address := congrArg StagedRule.address h.holds.staged
  port := by
    show console.mailbox.staged.port.toUInt32.toNat = _
    rw [h.holds.staged, UInt16.toNat_toUInt32]
    exact UInt32.toNat_toUInt16 _
  action := by
    show console.mailbox.staged.code.toUInt32.toNat = _
    rw [h.holds.staged, UInt8.toNat_toUInt32]
    exact UInt32.toNat_toUInt8 _

/-! ## 4. A run -/

theorem answer_of_looks (console : Console) {access : Access} (looks : access.acts = false) :
    (console.answer access).2 = console := by
  cases access with
  | write | acknowledge | record => cases looks
  | read | readPair | readCounters | pending => rfl

theorem run_filter_acts (console : Console) (accesses : List Access) :
    (console.run (accesses.filter Access.acts)).2 = (console.run accesses).2 := by
  induction accesses generalizing console with
  | nil => rfl
  | cons access accesses ih =>
    show _ = ((console.answer access).2.run accesses).2
    cases kind : access.acts with
    | true =>
      rw [List.filter_cons_of_pos kind]
      exact ih (console.answer access).2
    | false =>
      rw [List.filter_cons_of_neg (by rw [kind]; exact Bool.false_ne_true),
        console.answer_of_looks kind]
      exact ih console

-- Each answer is given by the console that the accesses in front of it have left.
theorem answers_run (console : Console) (accesses : List Access) :
    (console.run accesses).1 =
      accesses.mapIdx fun i access => ((console.run (accesses.take i)).2.answer access).1 := by
  induction accesses generalizing console with
  | nil => rfl
  | cons access accesses ih =>
    rw [List.mapIdx_cons]
    exact congrArg _ (ih (console.answer access).2)

/-- **Registers as views.**  Behind any accesses, from fresh registers and counters of any value, the
registers show just what was written and counted; the same accesses without those that only look
lead to the same console; and each access is answered by the console that it finds. -/
theorem run_shows (first : Tally) (accesses : List Access) :
    (run { tally := first } accesses).2.Shows first accesses ∧
      (run { tally := first } (accesses.filter Access.acts)).2 =
        (run { tally := first } accesses).2 ∧
      (run { tally := first } accesses).1 = accesses.mapIdx fun i access =>
        ((run { tally := first } (accesses.take i)).2.answer access).1 := by
  have follows := (follows_fresh first).run accesses
  rw [List.nil_append] at follows
  exact ⟨follows.shows, run_filter_acts _ accesses, answers_run _ accesses⟩

-- A counter takes no word, and a port only the lower half of one.
example : (run {} [.record ⟨0x100000002, true⟩, .write ⟨0x40, 99⟩, .write ⟨portOffset, 0xFFFF2328⟩,
    .readPair 0x40, .read portOffset]).1 =
      [.nothing, .nothing, .nothing, .pair (some 0x100000002), .word 9000] := by decide

end Console
end UdpGate
