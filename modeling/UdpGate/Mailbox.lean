import UdpGate.Rule.Key

/-!
# The rule mailbox

The control side stages an address, a port and an action code; writing the action commits the
three together under the next sequence number.  The data path takes the latest commit that it has
not applied yet and acknowledges its number.  There is one place for a commit, so a later commit
replaces one that was not taken.
-/

namespace UdpGate

structure StagedRule where
  address : UInt32 := 0
  port : UInt16 := 0
  code : UInt8 := 0
deriving DecidableEq

def StagedRule.rule (staged : StagedRule) : Rule where
  key := ⟨⟨staged.address⟩, staged.port⟩
  action := .ofCode staged.code

/-- A triple in one word: the code in the lowest byte, above it the port, above that the address. -/
def StagedRule.pack (staged : StagedRule) : UInt64 :=
  staged.address.toUInt64 <<< 24 ||| staged.port.toUInt64 <<< 8 ||| staged.code.toUInt64

def StagedRule.unpack (word : UInt64) : StagedRule where
  address := (word >>> 24).toUInt32
  port := (word >>> 8).toUInt16
  code := word.toUInt8

-- No part of a packed triple reaches into another: bit by bit, the parts below one have ended
-- where it begins, and those above begin where it ends.
@[simp] theorem StagedRule.unpack_pack (staged : StagedRule) : unpack staged.pack = staged := by
  obtain ⟨address, port, code⟩ := staged
  simp only [unpack, pack, StagedRule.mk.injEq]
  refine ⟨?address, ?port, ?code⟩
  case address =>
    apply UInt32.toBitVec_inj.mp
    ext i inside
    have word : 24 + i < 64 := by omega
    have half : i < 64 := by omega
    have port_ended : port.toBitVec.getLsbD (24 + i - 8) = false :=
      BitVec.getLsbD_of_ge _ _ (by omega)
    have code_ended : code.toBitVec.getLsbD (24 + i) = false :=
      BitVec.getLsbD_of_ge _ _ (by omega)
    simp [word, half, port_ended, code_ended, BitVec.getLsbD_eq_getElem inside]
  case port =>
    apply UInt16.toBitVec_inj.mp
    ext i inside
    have word : 8 + i < 64 := by omega
    have half : i < 64 := by omega
    have before_address : 8 + i < 24 := by omega
    simp [word, half, before_address, BitVec.getLsbD_eq_getElem inside]
  case code =>
    apply UInt8.toBitVec_inj.mp
    ext i inside
    simp

structure Mailbox where
  staged : StagedRule := {}
  /-- The triple of the latest commit, packed so that it changes as a whole. -/
  captured : UInt64 := 0
  commits : UInt64 := 0
  applied : UInt64 := 0
deriving DecidableEq

structure PendingRule where
  number : UInt64
  rule : Rule
deriving DecidableEq

namespace Mailbox

def committed (box : Mailbox) : StagedRule := .unpack box.captured

def stageAddress (box : Mailbox) (address : UInt32) : Mailbox :=
  { box with staged := { box.staged with address := address } }

def stagePort (box : Mailbox) (port : UInt16) : Mailbox :=
  { box with staged := { box.staged with port := port } }

def stageCode (box : Mailbox) (code : UInt8) : Mailbox :=
  { box with staged := { box.staged with code := code } }

def capture (box : Mailbox) : Mailbox := { box with captured := box.staged.pack }

def countCommit (box : Mailbox) : Mailbox := { box with commits := box.commits + 1 }

def commitCode (box : Mailbox) (code : UInt8) : Mailbox :=
  ((box.stageCode code).capture).countCommit

def commit (box : Mailbox) (rule : Rule) : Mailbox :=
  ((box.stageAddress rule.key.address.value).stagePort rule.key.port).commitCode rule.action.code

/-- The latest commit, if its number is greater than `applied`. -/
def pending? (box : Mailbox) (applied : UInt64) : Option PendingRule :=
  if box.commits ≤ applied then none
  else some { number := box.commits, rule := box.committed.rule }

/-- Acknowledges a number; the greatest one stays. -/
def acknowledge (box : Mailbox) (number : UInt64) : Mailbox :=
  { box with applied := max box.applied number }

@[simp] theorem rule_committed_commit (box : Mailbox) (rule : Rule) :
    (box.commit rule).committed.rule = rule := by
  obtain ⟨⟨⟨address⟩, port⟩, action⟩ := rule
  simp [commit, commitCode, countCommit, capture, stageCode, stagePort, stageAddress, committed,
    StagedRule.rule]

end Mailbox
end UdpGate
