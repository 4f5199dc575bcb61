import UdpGate.Text.Decimal

/-!
# Rules

A rule names a UDP endpoint, an IPv4 address with a port, and says what happens to its packets.
-/

namespace UdpGate

/-- An IPv4 address as the number whose bytes are its four parts, first part highest. -/
structure Address where
  value : UInt32
deriving DecidableEq, Inhabited

namespace Address

def ofParts (a b c d : UInt8) : Address :=
  ⟨UInt32.ofNat (((a.toNat * 256 + b.toNat) * 256 + c.toNat) * 256 + d.toNat)⟩

def parts (address : Address) : List UInt8 :=
  [24, 16, 8, 0].map fun shift => UInt8.ofNat (address.value.toNat / Nat.pow 2 shift)

def text (address : Address) : String :=
  ".".intercalate (address.parts.map fun part => Text.decimal part.toNat)

theorem toNat_ofParts (a b c d : UInt8) :
    (ofParts a b c d).value.toNat =
      ((a.toNat * 256 + b.toNat) * 256 + c.toNat) * 256 + d.toNat := by
  have := a.toNat_lt
  have := b.toNat_lt
  have := c.toNat_lt
  have := d.toNat_lt
  apply UInt32.toNat_ofNat_of_lt'
  show _ < 4294967296
  omega

theorem ofParts_eq {a b c d : UInt8} {address : Address}
    (value : address.value.toNat =
      ((a.toNat * 256 + b.toNat) * 256 + c.toNat) * 256 + d.toNat) :
    ofParts a b c d = address := by
  cases address
  exact congrArg Address.mk (UInt32.toNat_inj.mp ((toNat_ofParts a b c d).trans value.symm))

theorem value_parts (address : Address) :
    ∃ a b c d : UInt8, address.parts = [a, b, c, d] ∧
      address.value.toNat =
        ((a.toNat * 256 + b.toNat) * 256 + c.toNat) * 256 + d.toNat := by
  refine ⟨_, _, _, _, rfl, ?_⟩
  have bound : address.value.toNat < 4294967296 := address.value.toNat_lt
  simp only [UInt8.toNat_ofNat']
  show _ = ((address.value.toNat / 16777216 % 256 * 256 + address.value.toNat / 65536 % 256) * 256 +
    address.value.toNat / 256 % 256) * 256 + address.value.toNat / 1 % 256
  omega

end Address

structure RuleKey where
  address : Address
  port : UInt16
deriving DecidableEq, Inhabited

def RuleKey.text (key : RuleKey) : String :=
  key.address.text ++ ":" ++ Text.decimal key.port.toNat

/-- What happens to a packet.  A packet that no rule speaks of is dropped. -/
inductive Action where
  | drop
  | forward
deriving DecidableEq, Inhabited

namespace Action

def code : Action → UInt8
  | .drop => 0
  | .forward => 1

/-- Code 1 forwards; every other code drops. -/
def ofCode (code : UInt8) : Action :=
  if code = 1 then .forward else .drop

def name : Action → String
  | .drop => "drop"
  | .forward => "forward"

@[simp] theorem ofCode_code (action : Action) : ofCode action.code = action := by
  cases action <;> rfl

theorem ofCode_eq_forward_iff {code : UInt8} : ofCode code = .forward ↔ code = 1 := by
  unfold ofCode
  split <;> simp [*]

end Action

structure Rule where
  key : RuleKey
  action : Action
deriving DecidableEq, Inhabited

end UdpGate
