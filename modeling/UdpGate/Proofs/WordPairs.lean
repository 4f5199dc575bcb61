import Mathlib
import UdpGate.Traffic

/-!
# A counter read in two words

The high word of a counter is read later than the low one.  What the two words show together is
never less than the counter was at the low word.  It is more than the counter is at the high word
exactly if the low words of the two values are out of order, that is, if the packets in between
carried into the high word without bringing the low one back to where it was
(`Traffic.readPair?_bounds`).  A reading of all counters consists of such pairs.
-/

namespace UdpGate

/-! ## 1. What packets add to a counter -/

def PacketCount.amount (packet : PacketCount) : Counter → Nat
  | .packetsIn => 1
  | .chunksIn => packet.chunks.toNat
  | .packetsForwarded => if packet.forwarded then 1 else 0
  | .packetsDropped => if packet.forwarded then 0 else 1

namespace Counter

def total (counter : Counter) (packets : List PacketCount) : Nat :=
  (packets.map (·.amount counter)).sum

theorem read_record (counter : Counter) (tally : Tally) (packet : PacketCount) :
    counter.read (tally.record packet.chunks packet.forwarded) =
      counter.read tally + UInt64.ofNat (packet.amount counter) := by
  cases counter with
  | packetsIn => rfl
  | chunksIn =>
    show tally.chunksIn + packet.chunks = tally.chunksIn + UInt64.ofNat packet.chunks.toNat
    rw [UInt64.ofNat_toNat]
  | packetsForwarded =>
    unfold read Tally.record PacketCount.amount
    cases packet.forwarded <;> rfl
  | packetsDropped =>
    unfold read Tally.record PacketCount.amount
    cases packet.forwarded <;> rfl

theorem read_recordAll (counter : Counter) (tally : Tally) (packets : List PacketCount) :
    counter.read (tally.recordAll packets) =
      counter.read tally + UInt64.ofNat (counter.total packets) := by
  induction packets generalizing tally with
  | nil => exact (UInt64.add_zero _).symm
  | cons packet packets ih =>
    have rest := ih (tally.record packet.chunks packet.forwarded)
    rw [read_record, UInt64.add_assoc, ← UInt64.ofNat_add] at rest
    exact rest

end Counter

/-! ## 2. Two words -/

namespace Traffic

variable {traffic : Traffic} {counter : Counter} {moment : Nat}

theorem toNat_value_succ
    (steady : (traffic.value counter moment).toNat + counter.total (traffic.packets moment) <
      UInt64.size) :
    (traffic.value counter (moment + 1)).toNat =
      (traffic.value counter moment).toNat + counter.total (traffic.packets moment) := by
  have grown : traffic.value counter (moment + 1) =
      traffic.value counter moment + UInt64.ofNat (counter.total (traffic.packets moment)) :=
    counter.read_recordAll _ _
  have added : (UInt64.ofNat (counter.total (traffic.packets moment))).toNat =
      counter.total (traffic.packets moment) := UInt64.toNat_ofNat_of_lt' (by omega)
  rw [grown, UInt64.toNat_add, added]
  exact Nat.mod_eq_of_lt steady

-- The pair takes its high word from the later value and its low word from the earlier one.
theorem toNat_counterFrom (traffic : Traffic) (moment : Nat) (counter : Counter) :
    (traffic.counterFrom moment counter).toNat =
      (traffic.value counter (moment + 1)).toNat / UInt32.size * UInt32.size +
        (traffic.value counter moment).toNat % UInt32.size := by
  unfold counterFrom
  rw [Console.read_low, Console.read_high, toNat_joinWords, toNat_highWord, toNat_lowWord]
  rfl

/-- **A pair of words.**  Packets are counted between the two words of a counter, and the counter
does not wrap.  The pair shows at least the value at the low word.  It shows at most the value at the
high word just if the low words of the two values are in order, and otherwise too much by the
distance of these, which is less than a word holds.  Readings of all counters show such pairs. -/
theorem readPair?_bounds (traffic : Traffic) (counter : Counter) (moment : Nat)
    (steady : (traffic.value counter moment).toNat + counter.total (traffic.packets moment) <
      UInt64.size) :
    ∃ pair, traffic.readPair? moment counter.offset = some pair ∧
      (∀ n, lowMoment n counter = moment → counter.read (traffic.reading n) = pair) ∧
      (traffic.value counter moment).toNat ≤ pair.toNat ∧
      (pair.toNat ≤ (traffic.value counter (moment + 1)).toNat ↔
        (traffic.value counter moment).toNat % UInt32.size ≤
          (traffic.value counter (moment + 1)).toNat % UInt32.size) ∧
      pair.toNat + (traffic.value counter (moment + 1)).toNat % UInt32.size =
        (traffic.value counter (moment + 1)).toNat +
          (traffic.value counter moment).toNat % UInt32.size := by
  have pair := toNat_counterFrom traffic moment counter
  have grown := toNat_value_succ steady
  refine ⟨traffic.counterFrom moment counter, readPair?_offset traffic counter moment, ?_, ?_⟩
  · rintro n rfl
    exact traffic.read_reading counter n
  · unfold UInt32.size at *
    omega

-- A packet of one chunk carries into the high word while the chunks are read: 4294967295 and
-- 4294967296 give the words of 8589934591.
def carryTraffic : Traffic where
  console := { tally := { chunksIn := 4294967295 } }
  packets moment := if moment = 2 then [⟨1, true⟩] else []

theorem readPair?_bounds_carry :
    (carryTraffic.value .chunksIn 2).toNat + Counter.chunksIn.total (carryTraffic.packets 2) <
        UInt64.size ∧
      ∃ pair, carryTraffic.readPair? 2 Counter.chunksIn.offset = some pair ∧
        (carryTraffic.reading 0).chunksIn = pair ∧
        (carryTraffic.value .chunksIn 2).toNat ≤ pair.toNat ∧
        ¬ pair.toNat ≤ (carryTraffic.value .chunksIn 3).toNat ∧
        pair.toNat = 4294967296 + 4294967295 := by
  have steady : (carryTraffic.value .chunksIn 2).toNat +
      Counter.chunksIn.total (carryTraffic.packets 2) < UInt64.size := by decide
  obtain ⟨pair, read, shown, least, most, surplus⟩ :=
    readPair?_bounds carryTraffic .chunksIn 2 steady
  exact ⟨steady, pair, read, shown 0 rfl, least, mt most.mp (by decide), surplus⟩

theorem pair_above_both_values :
    ¬ ∀ (traffic : Traffic) (counter : Counter) (moment : Nat),
      (traffic.value counter moment).toNat + counter.total (traffic.packets moment) < UInt64.size →
        ∃ pair, traffic.readPair? moment counter.offset = some pair ∧
          traffic.value counter moment ≤ pair ∧ pair ≤ traffic.value counter (moment + 1) := by
  intro between
  obtain ⟨pair, read, -, most⟩ := between carryTraffic .chunksIn 2 (by decide)
  have torn : carryTraffic.readPair? 2 Counter.chunksIn.offset = some 8589934591 := by decide
  rw [torn, Option.some.injEq] at read
  subst read
  exact absurd most (by decide)

end Traffic
end UdpGate
