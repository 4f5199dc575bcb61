import Mathlib
import UdpGate.Rule.Text

/-!
# The grammar of rules

What a rule looks like is said here without a reader: numerals by the value of their digits, and
addresses, ports and rules by what they are put together from.  `RuleKey.Reads` is the answer that
each text asks for, a rule or the first of its faults; reading gives that answer for every text, and
gives back each rule that was written (`RuleKey.ofText_grammar`).
-/

namespace UdpGate

/-! ## 1. Numerals -/

namespace Text

/-- The value of digits by their places, the last digit counting ones. -/
def placeValue (text : List Char) : Nat :=
  Nat.ofDigits 10 (text.reverse.map fun c => c.toNat - '0'.toNat)

/-- One or more digits that write a number, leading zeros allowed. -/
structure Numeral (text : List Char) (n : Nat) : Prop where
  nonempty : text ≠ []
  digit : ∀ c ∈ text, '0' ≤ c ∧ c ≤ '9'
  value : placeValue text = n

inductive SignedNumeral : List Char → Nat → Prop where
  | plain {text : List Char} {n : Nat} : Numeral text n → SignedNumeral text n
  | plus {text : List Char} {n : Nat} : Numeral text n → SignedNumeral ('+' :: text) n

theorem placeValue_cons (c : Char) (rest : List Char) :
    placeValue (c :: rest) = (c.toNat - '0'.toNat) * 10 ^ rest.length + placeValue rest := by
  unfold placeValue
  rw [List.reverse_cons, List.map_append, Nat.ofDigits_append, List.map_singleton,
    Nat.ofDigits_singleton, List.length_map, List.length_reverse, Nat.mul_comm, Nat.add_comm]

theorem digitValue?_eq_some_iff {c : Char} {d : Nat} :
    digitValue? c = some d ↔ ('0' ≤ c ∧ c ≤ '9') ∧ c.toNat - '0'.toNat = d := by
  unfold digitValue?
  by_cases digit : '0' ≤ c ∧ c ≤ '9'
  · simp [digit]
  · simp [digit]

-- By induction on the digits: each one multiplies what came before it by ten.
theorem digitsValue?_eq_some_iff {start n : Nat} {text : List Char} :
    digitsValue? start text = some n ↔
      (∀ c ∈ text, '0' ≤ c ∧ c ≤ '9') ∧ start * 10 ^ text.length + placeValue text = n := by
  induction text generalizing start with
  | nil => simp [digitsValue?, placeValue]
  | cons c rest ih =>
    have step : digitsValue? start (c :: rest) =
        (digitValue? c).bind fun d => digitsValue? (10 * start + d) rest := by
      unfold digitsValue?
      rw [List.foldlM_cons]
      cases digitValue? c <;> rfl
    have place : ∀ d, (10 * start + d) * 10 ^ rest.length + placeValue rest =
        start * 10 ^ (rest.length + 1) + (d * 10 ^ rest.length + placeValue rest) := by
      intro d
      ring
    rw [step, Option.bind_eq_some_iff, List.forall_mem_cons, placeValue_cons, List.length_cons]
    constructor
    · rintro ⟨d, here, behind⟩
      obtain ⟨digit, rfl⟩ := digitValue?_eq_some_iff.mp here
      obtain ⟨digits, total⟩ := ih.mp behind
      exact ⟨⟨digit, digits⟩, by rw [← place, total]⟩
    · rintro ⟨⟨digit, digits⟩, total⟩
      exact ⟨_, digitValue?_eq_some_iff.mpr ⟨digit, rfl⟩, ih.mpr ⟨digits, by rw [place, total]⟩⟩

theorem number?_eq_some_iff {text : List Char} {n : Nat} :
    number? text = some n ↔ Numeral text n := by
  unfold number?
  by_cases empty : text = []
  · rw [if_pos (List.isEmpty_iff.mpr empty)]
    exact ⟨nofun, fun h => absurd empty h.nonempty⟩
  · rw [if_neg (mt List.isEmpty_iff.mp empty), digitsValue?_eq_some_iff, Nat.zero_mul, Nat.zero_add]
    exact ⟨fun h => ⟨empty, h.1, h.2⟩, fun h => ⟨h.digit, h.value⟩⟩

theorem numeral_digits (n : Nat) : Numeral (digits n) n := number?_eq_some_iff.mp (number?_digits n)

theorem Numeral.notMem {text : List Char} {n : Nat} (h : Numeral text n) {c : Char}
    (other : ¬ ('0' ≤ c ∧ c ≤ '9')) : c ∉ text := fun mem => other (h.digit c mem)

theorem unsigned?_eq_some_iff {limit n : Nat} {text : List Char} :
    unsigned? limit text = some n ↔ SignedNumeral text n ∧ n ≤ limit := by
  unfold unsigned?
  rw [Option.filter_eq_some_iff, number?_eq_some_iff, decide_eq_true_iff]
  refine and_congr_left' ?_
  cases text with
  | nil =>
    refine ⟨SignedNumeral.plain, fun h => ?_⟩
    cases h with
    | plain h => exact h
  | cons c rest =>
    by_cases signed : c = '+'
    · subst signed
      refine ⟨SignedNumeral.plus, fun h => ?_⟩
      cases h with
      | plain h => exact absurd List.mem_cons_self (h.notMem (by decide))
      | plus h => exact h
    · rw [if_neg (by simpa using signed)]
      refine ⟨SignedNumeral.plain, fun h => ?_⟩
      cases h with
      | plain h => exact h
      | plus h => exact absurd rfl signed

-- A number is at least as large as its highest digit makes it.
theorem Numeral.pow_le {c : Char} {rest : List Char} {n : Nat} (h : Numeral (c :: rest) n)
    (nonzero : c ≠ '0') : 10 ^ rest.length ≤ n := by
  have least := (h.digit c List.mem_cons_self).1
  have one_le : 1 ≤ c.toNat - '0'.toNat := by
    have above : '0'.toNat ≤ c.toNat := least
    have other : c.toNat ≠ '0'.toNat := fun same => nonzero (Char.toNat_inj.mp same)
    omega
  rw [← h.value, placeValue_cons]
  calc 10 ^ rest.length ≤ (c.toNat - '0'.toNat) * 10 ^ rest.length := Nat.le_mul_of_pos_left _ one_le
    _ ≤ _ := Nat.le_add_right _ _

theorem head?_digits_ne_zero {n : Nat} (h : 0 < n) : (digits n).head? ≠ some '0' := by
  fun_induction digits n with
  | case1 n small =>
    have nonzero : ∀ d < 10, 0 < d → [digitChar d].head? ≠ some '0' := by decide
    exact nonzero n small h
  | case2 n _ ih =>
    rw [List.head?_append_of_ne_nil _ (digits_ne_nil _)]
    exact ih (by omega)

end Text

/-! ## 2. Addresses -/

/-- A part of an address as it is written: at most 255, and no zero in front. -/
structure Octet (text : List Char) (n : Nat) : Prop where
  numeral : Text.Numeral text n
  small : n ≤ 255
  plain : text.head? = some '0' → text = ['0']

inductive Address.Dotted : List Char → Address → Prop where
  | mk {a b c d : List Char} {i j k l : Nat} {address : Address} :
      Octet a i → Octet b j → Octet c k → Octet d l →
      address.value.toNat = ((i * 256 + j) * 256 + k) * 256 + l →
      Dotted (a ++ '.' :: (b ++ '.' :: (c ++ '.' :: d))) address

theorem Octet.length_le {text : List Char} {n : Nat} (h : Octet text n) : text.length ≤ 3 := by
  cases text with
  | nil => exact Nat.zero_le _
  | cons c rest =>
    by_cases zero : c = '0'
    · rw [h.plain (by rw [zero]; rfl)]
      decide
    · by_contra long
      have large : 10 ^ 3 ≤ 10 ^ rest.length := by
        apply Nat.pow_le_pow_right (by decide)
        rw [List.length_cons] at long
        omega
      have := h.numeral.pow_le zero
      have := h.small
      omega

theorem toNat_byte_of_le {n : Nat} (h : n ≤ 255) : (UInt8.ofNat n).toNat = n :=
  UInt8.toNat_ofNat_of_lt' (Nat.lt_succ_of_le h)

theorem addressPart?_eq_some_iff {text : List Char} {part : UInt8} :
    addressPart? text = some part ↔ Octet text part.toNat := by
  unfold addressPart?
  constructor
  · intro h
    split at h
    · rename_i shape
      obtain ⟨n, kept, rfl⟩ := Option.map_eq_some_iff.mp h
      obtain ⟨number, small⟩ := Option.filter_eq_some_iff.mp kept
      rw [decide_eq_true_iff] at small
      rw [toNat_byte_of_le small]
      refine ⟨Text.number?_eq_some_iff.mp number, small, fun zero => ?_⟩
      obtain ⟨c, rfl⟩ := List.length_eq_one_iff.mp (shape.2 zero)
      exact congrArg (fun c => [c]) (Option.some.inj zero)
    · cases h
  · intro h
    have number := Text.number?_eq_some_iff.mpr h.numeral
    have kept : (Text.number? text).filter (· ≤ 255) = some part.toNat :=
      Option.filter_eq_some_iff.mpr ⟨number, decide_eq_true h.small⟩
    rw [if_pos ⟨h.length_le, fun zero => by rw [h.plain zero]; rfl⟩, kept, Option.map_some,
      UInt8.ofNat_toNat]

theorem Octet.notMem {text : List Char} {n : Nat} (h : Octet text n) {c : Char}
    (other : ¬ ('0' ≤ c ∧ c ≤ '9')) : c ∉ text := h.numeral.notMem other

theorem Octet.part {text : List Char} {n : Nat} (h : Octet text n) :
    addressPart? text = some (UInt8.ofNat n) := by
  rw [addressPart?_eq_some_iff, toNat_byte_of_le h.small]
  exact h

namespace Address

variable {text : List Char} {address : Address}

theorem dotted_of_ofText? (h : ofText? text = some address) : Dotted text address := by
  unfold ofText? at h
  split at h
  · rename_i a b c d parts
    simp only [Option.bind_eq_bind, Option.bind_eq_some_iff, Option.some.injEq] at h
    obtain ⟨i, first, j, second, k, third, l, fourth, rfl⟩ := h
    have whole := Text.unsplit_split '.' text
    rw [parts] at whole
    rw [← whole]
    apply Dotted.mk
    · exact addressPart?_eq_some_iff.mp first
    · exact addressPart?_eq_some_iff.mp second
    · exact addressPart?_eq_some_iff.mp third
    · exact addressPart?_eq_some_iff.mp fourth
    · exact toNat_ofParts i j k l
  · cases h

-- No part has a dot in it, so the parts are what the dots leave.
theorem Dotted.ofText?_eq (h : Dotted text address) : ofText? text = some address := by
  cases h with
  | @mk a b c d i j k l _ first second third fourth value =>
    have parts : Text.split '.' (a ++ '.' :: (b ++ '.' :: (c ++ '.' :: d))) = [a, b, c, d] := by
      rw [Text.split_append (first.notMem (by decide)), Text.split_append (second.notMem (by decide)),
        Text.split_append (third.notMem (by decide)), Text.split_of_notMem (fourth.notMem (by decide))]
    have same : ofParts (UInt8.ofNat i) (UInt8.ofNat j) (UInt8.ofNat k) (UInt8.ofNat l) =
        address := by
      apply ofParts_eq
      rw [toNat_byte_of_le first.small, toNat_byte_of_le second.small,
        toNat_byte_of_le third.small, toNat_byte_of_le fourth.small, value]
    unfold ofText?
    rw [parts]
    simp only [first.part, second.part, third.part, fourth.part, Option.bind_eq_bind,
      Option.bind_some, same]

theorem ofText?_eq_some_iff : ofText? text = some address ↔ Dotted text address :=
  ⟨dotted_of_ofText?, Dotted.ofText?_eq⟩

theorem ofText?_eq_none_iff : ofText? text = none ↔ ∀ address : Address, ¬ Dotted text address := by
  rw [Option.eq_none_iff_forall_ne_some]
  exact forall_congr' fun address => not_congr ofText?_eq_some_iff

theorem Dotted.notMem_colon (h : Dotted text address) : ':' ∉ text := by
  cases h with
  | mk first second third fourth =>
    simp [first.notMem, second.notMem, third.notMem, fourth.notMem]

end Address

/-! ## 3. Ports and rules -/

theorem port?_eq_some_iff {text : List Char} {port : UInt16} :
    port? text = some port ↔ Text.SignedNumeral text port.toNat := by
  unfold port?
  rw [Option.map_eq_some_iff]
  constructor
  · rintro ⟨n, number, rfl⟩
    obtain ⟨numeral, small⟩ := Text.unsigned?_eq_some_iff.mp number
    rwa [UInt16.toNat_ofNat_of_lt' (Nat.lt_succ_of_le small)]
  · intro numeral
    have small : port.toNat ≤ 65535 := Nat.le_of_lt_succ port.toNat_lt
    exact ⟨_, Text.unsigned?_eq_some_iff.mpr ⟨numeral, small⟩, UInt16.ofNat_toNat⟩

theorem port?_eq_none_iff {text : List Char} :
    port? text = none ↔ ∀ n ≤ 65535, ¬ Text.SignedNumeral text n := by
  unfold port?
  rw [Option.map_eq_none_iff, Option.eq_none_iff_forall_ne_some]
  constructor
  · intro none n small numeral
    exact none n (Text.unsigned?_eq_some_iff.mpr ⟨numeral, small⟩)
  · intro none n number
    obtain ⟨numeral, small⟩ := Text.unsigned?_eq_some_iff.mp number
    exact none n small numeral

namespace RuleKey

/-- The answer that a text asks for: the rule that it writes, or the first of its faults.  The text
in front of the first colon is meant for an address, the text behind it for a port. -/
inductive Reads (text : String) : Except RuleFault RuleKey → Prop where
  | rule {front back : List Char} {key : RuleKey} :
      text.toList = front ++ ':' :: back → key.address.Dotted front →
      Text.SignedNumeral back key.port.toNat → key.port ≠ 0 → Reads text (.ok key)
  | missingColon : ':' ∉ text.toList → Reads text (.error (.missingColon text))
  | invalidAddress {front back : List Char} :
      text.toList = front ++ ':' :: back → ':' ∉ front →
      (∀ address : Address, ¬ address.Dotted front) →
      Reads text (.error (.invalidAddress text (String.ofList front)))
  | invalidPort {front back : List Char} {address : Address} :
      text.toList = front ++ ':' :: back → address.Dotted front →
      (∀ n ≤ 65535, ¬ Text.SignedNumeral back n) →
      Reads text (.error (.invalidPort text (String.ofList back)))
  | zeroPort {front back : List Char} {address : Address} :
      text.toList = front ++ ':' :: back → address.Dotted front →
      Text.SignedNumeral back 0 → Reads text (.error (.zeroPort text))

variable {text : String} {front back : List Char}

theorem ofText_of_address_none (cut : text.toList = front ++ ':' :: back) (first : ':' ∉ front)
    (none : Address.ofText? front = none) :
    ofText text = .error (.invalidAddress text (String.ofList front)) := by
  simp only [ofText, cut, Text.cut_append first, none]

theorem ofText_of_port_none {address : Address} (cut : text.toList = front ++ ':' :: back)
    (dotted : address.Dotted front) (none : port? back = none) :
    ofText text = .error (.invalidPort text (String.ofList back)) := by
  simp only [ofText, cut, Text.cut_append dotted.notMem_colon, dotted.ofText?_eq, none]

theorem ofText_of_parts {address : Address} {port : UInt16}
    (cut : text.toList = front ++ ':' :: back) (dotted : address.Dotted front)
    (some : port? back = some port) :
    ofText text = if port = 0 then .error (.zeroPort text) else .ok ⟨address, port⟩ := by
  simp only [ofText, cut, Text.cut_append dotted.notMem_colon, dotted.ofText?_eq, some]

-- Reading a text meets its parts in the order in which the faults stand.
theorem reads_ofText (text : String) : Reads text (ofText text) := by
  by_cases colon : ':' ∈ text.toList
  · obtain ⟨front, back, cut, first⟩ := List.eq_append_cons_of_mem colon
    cases address_eq : Address.ofText? front with
    | none =>
      rw [ofText_of_address_none cut first address_eq]
      exact .invalidAddress cut first (Address.ofText?_eq_none_iff.mp address_eq)
    | some address =>
      have dotted := Address.dotted_of_ofText? address_eq
      cases port_eq : port? back with
      | none =>
        rw [ofText_of_port_none cut dotted port_eq]
        exact .invalidPort cut dotted (port?_eq_none_iff.mp port_eq)
      | some port =>
        rw [ofText_of_parts cut dotted port_eq]
        have numeral := port?_eq_some_iff.mp port_eq
        by_cases zero : port = 0
        · rw [if_pos zero]
          rw [zero] at numeral
          exact .zeroPort cut dotted numeral
        · rw [if_neg zero]
          exact .rule cut dotted numeral zero
  · rw [ofText, Text.cut_of_notMem colon]
    exact .missingColon colon

theorem Reads.ofText_eq {result : Except RuleFault RuleKey} (h : Reads text result) :
    ofText text = result := by
  cases h with
  | missingColon none => simp only [ofText, Text.cut_of_notMem none]
  | invalidAddress cut first none =>
    exact ofText_of_address_none cut first (Address.ofText?_eq_none_iff.mpr none)
  | invalidPort cut dotted none => exact ofText_of_port_none cut dotted (port?_eq_none_iff.mpr none)
  | zeroPort cut dotted zero =>
    have port : port? _ = some 0 := port?_eq_some_iff.mpr zero
    exact ofText_of_parts cut dotted port
  | rule cut dotted numeral nonzero =>
    rw [ofText_of_parts cut dotted (port?_eq_some_iff.mpr numeral)]
    exact if_neg nonzero

end RuleKey

/-! ## 4. Rules that were written -/

theorem octet_digits {n : Nat} (h : n ≤ 255) : Octet (Text.digits n) n where
  numeral := Text.numeral_digits n
  small := h
  plain zero := by
    cases n with
    | zero =>
      rw [Text.digits]
      rfl
    | succ n => exact absurd zero (Text.head?_digits_ne_zero n.succ_pos)

namespace Address

theorem toList_intercalate_parts (a b c d : UInt8) :
    (".".intercalate ([a, b, c, d].map fun part => Text.decimal part.toNat)).toList =
      Text.digits a.toNat ++ '.' ::
        (Text.digits b.toNat ++ '.' :: (Text.digits c.toNat ++ '.' :: Text.digits d.toNat)) := by
  rw [String.toList_intercalate]
  simp [Text.decimal, List.intercalate]

theorem dotted_text (address : Address) : address.Dotted address.text.toList := by
  obtain ⟨a, b, c, d, parts, value⟩ := address.value_parts
  have octet (part : UInt8) : Octet (Text.digits part.toNat) part.toNat :=
    octet_digits (Nat.le_of_lt_succ part.toNat_lt)
  rw [text, parts, toList_intercalate_parts]
  exact .mk (octet a) (octet b) (octet c) (octet d) value

end Address

/-- **Rules as text.**  A text reads as the rule that it writes or as the first of its faults, and as
nothing else.  What is written for a key reads as the key, unless the port is zero. -/
theorem RuleKey.ofText_grammar :
    (∀ (text : String) (result : Except RuleFault RuleKey),
      ofText text = result ↔ Reads text result) ∧
    ∀ key : RuleKey, key.port ≠ 0 → ofText key.text = .ok key := by
  constructor
  · intro text result
    refine ⟨?_, Reads.ofText_eq⟩
    rintro rfl
    exact reads_ofText text
  · intro key nonzero
    have written : key.text.toList =
        key.address.text.toList ++ ':' :: Text.digits key.port.toNat := by
      simp [RuleKey.text, Text.decimal]
    have port := Text.SignedNumeral.plain (Text.numeral_digits key.port.toNat)
    exact (Reads.rule written key.address.dotted_text port nonzero).ofText_eq

-- A plus sign and leading zeros are read, though never written.
example : RuleKey.ofText "10.0.0.5:+09000" = .ok ⟨⟨0x0A000005⟩, 9000⟩ := by rfl

end UdpGate
