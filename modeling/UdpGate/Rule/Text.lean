import UdpGate.Rule.Key
import UdpGate.Text.Split

/-!
# Rule text

A rule is written as an address, a colon and a port, such as `10.0.0.5:9000`.  The address has
four decimal parts without leading zeros.  The port may have a plus sign and leading zeros, and is
not zero.  A text that is no rule has exactly one fault: the first of the four below that applies.
-/

namespace UdpGate

/-! ## 1. Parts of a rule -/

/-- A part of an address: at most three digits, no leading zero, at most 255. -/
def addressPart? (text : List Char) : Option UInt8 :=
  if text.length ≤ 3 ∧ (text.head? = some '0' → text.length = 1) then
    ((Text.number? text).filter (· ≤ 255)).map UInt8.ofNat
  else none

def Address.ofText? (text : List Char) : Option Address :=
  match Text.split '.' text with
  | [a, b, c, d] => do
    some (.ofParts (← addressPart? a) (← addressPart? b) (← addressPart? c) (← addressPart? d))
  | _ => none

/-- A port number, zero included. -/
def port? (text : List Char) : Option UInt16 := (Text.unsigned? 65535 text).map UInt16.ofNat

/-! ## 2. Rules -/

inductive RuleFault where
  | missingColon (text : String)
  | invalidAddress (text address : String)
  | invalidPort (text port : String)
  | zeroPort (text : String)
deriving DecidableEq

def RuleFault.message : RuleFault → String
  | .missingColon text => "rule '" ++ text ++ "' is missing the ':' separator"
  | .invalidAddress text address =>
    "rule '" ++ text ++ "' has an invalid IPv4 address '" ++ address ++ "'"
  | .invalidPort text port => "rule '" ++ text ++ "' has an invalid UDP port '" ++ port ++ "'"
  | .zeroPort text => "rule '" ++ text ++ "' uses port 0"

/-- Reads a rule.  The first colon ends the address. -/
def RuleKey.ofText (text : String) : Except RuleFault RuleKey :=
  match Text.cut ':' text.toList with
  | (_, none) => .error (.missingColon text)
  | (front, some back) =>
    match Address.ofText? front with
    | none => .error (.invalidAddress text (String.ofList front))
    | some address =>
      match port? back with
      | none => .error (.invalidPort text (String.ofList back))
      | some port => if port = 0 then .error (.zeroPort text) else .ok ⟨address, port⟩

end UdpGate
