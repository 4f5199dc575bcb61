import UdpGate.Tally
import UdpGate.Text.Decimal

/-!
# Rates

A rate is a quotient in binary64, written with one decimal.  The exact value of the quotient is
rounded, a half to the even neighbour, and all digits in front of the point are written out.
-/

namespace UdpGate

/-- A number of times that fits `den` into `num`, to the nearest; a half goes to the even one. -/
def roundHalfEven (num den : Nat) : Nat :=
  let low := num / den
  let twice := 2 * (num % den)
  if twice < den then low
  else if den < twice then low + 1
  else if low % 2 = 0 then low else low + 1

def tenthsText (tenths : Nat) : String :=
  Text.decimal (tenths / 10) ++ "." ++ Text.decimal (tenths % 10)

/-- The exact value of a non-negative finite binary64 number, as a numerator and a power of two
as its denominator. -/
def binaryFraction (bits : UInt64) : Nat × Nat :=
  let field := bits.toNat / Nat.pow 2 52 % Nat.pow 2 11
  let fraction := bits.toNat % Nat.pow 2 52
  let exponent := max field 1
  let significand := if field = 0 then fraction else Nat.pow 2 52 + fraction
  if exponent < 1075 then (significand, Nat.pow 2 (1075 - exponent))
  else (significand * Nat.pow 2 (exponent - 1075), 1)

structure Span where
  seconds : UInt64
  nanoseconds : UInt32 := 0
deriving DecidableEq

namespace Span

def ofNanoseconds (n : Nat) : Span where
  seconds := UInt64.ofNat (n / Nat.pow 10 9)
  nanoseconds := UInt32.ofNat (n % Nat.pow 10 9)

def toFloat (span : Span) : Float :=
  span.seconds.toFloat + span.nanoseconds.toFloat / 1e9

end Span

/-- The growth of a counter per second; a dash if no time has passed. -/
def rateText (growth : UInt64) (span : Span) : String :=
  let seconds := span.toFloat
  if 0.0 < seconds then
    let (num, den) := binaryFraction (growth.toFloat / seconds).toBits
    tenthsText (roundHalfEven (10 * num) den)
  else "-"

end UdpGate
