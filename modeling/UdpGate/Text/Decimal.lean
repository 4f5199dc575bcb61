/-!
# Decimal numbers

Numbers are written with the digits 0 to 9, without leading zeros, and read with or without them.
Reading what was written gives the number back.
-/

namespace UdpGate.Text

/-! ## 1. Writing -/

def digitChar (digit : Nat) : Char := Char.ofNat ('0'.toNat + digit)

def digits (n : Nat) : List Char :=
  if n < 10 then [digitChar n] else digits (n / 10) ++ [digitChar (n % 10)]
termination_by n

def decimal (n : Nat) : String := String.ofList (digits n)

/-! ## 2. Reading -/

def digitValue? (c : Char) : Option Nat :=
  if '0' ≤ c ∧ c ≤ '9' then some (c.toNat - '0'.toNat) else none

def digitsValue? (start : Nat) (text : List Char) : Option Nat :=
  text.foldlM (fun sum c => (digitValue? c).map (10 * sum + ·)) start

def number? (text : List Char) : Option Nat :=
  if text.isEmpty then none else digitsValue? 0 text

/-- A run of digits after an optional plus sign, if its value is at most `limit`. -/
def unsigned? (limit : Nat) (text : List Char) : Option Nat :=
  (number? (if text.head? = some '+' then text.tail else text)).filter (· ≤ limit)

/-! ## 3. Reading what was written -/

theorem digitValue?_digitChar {digit : Nat} (h : digit < 10) :
    digitValue? (digitChar digit) = some digit := by
  have cases : ∀ d < 10, digitValue? (digitChar d) = some d := by decide
  exact cases digit h

theorem digitsValue?_append (start : Nat) (front back : List Char) :
    digitsValue? start (front ++ back) =
      (digitsValue? start front).bind fun sum => digitsValue? sum back := by
  simp [digitsValue?, List.foldlM_append]

theorem digitsValue?_digits (n : Nat) : digitsValue? 0 (digits n) = some n := by
  fun_induction digits n with
  | case1 n small => simp [digitsValue?, digitValue?_digitChar small]
  | case2 n _ ih =>
    have low : n % 10 < 10 := Nat.mod_lt n (by decide)
    rw [digitsValue?_append, ih]
    simp [digitsValue?, digitValue?_digitChar low]
    omega

theorem digits_ne_nil (n : Nat) : digits n ≠ [] := by
  rw [digits]
  split <;> simp

theorem number?_digits (n : Nat) : number? (digits n) = some n := by
  unfold number?
  rw [if_neg (by simpa using digits_ne_nil n)]
  exact digitsValue?_digits n

end UdpGate.Text
