import UdpGate.Engine
import UdpGate.Rule.Text

/-!
# Installing rules

To install a rule is to commit it and to wait until the data path has acknowledged the commit.
The wait ends when the patience is used up: the commit then stands, and the installation reports
that it was not applied in time.  Patience is counted in empty polls that the data path makes
meanwhile; without any, only a commit that is already acknowledged counts as applied.
-/

namespace UdpGate

inductive InstallFault where
  | rule (fault : RuleFault)
  | timeout (number : UInt64) (waited : Nat)
deriving DecidableEq

def InstallFault.message : InstallFault → String
  | .rule fault => "invalid rule: " ++ fault.message
  | .timeout number waited =>
    "rule commit " ++ Text.decimal number.toNat ++ " was not applied within " ++ Text.decimal waited ++ " ms"

def keyToInstall (text : String) : Except InstallFault RuleKey :=
  (RuleKey.ofText text).mapError .rule

/-- Installs keys one after the other and stops at the first one that fails. -/
def installEach (install : σ → RuleKey → Except InstallFault Unit × σ) (state : σ) :
    List RuleKey → Except InstallFault Unit × σ
  | [] => (.ok (), state)
  | key :: keys =>
    match install state key with
    | (.ok (), after) => installEach install after keys
    | (.error fault, after) => (.error fault, after)

/-! ## 1. Without patience -/

namespace Mailbox

def checkApplied (box : Mailbox) (number : UInt64) : Except InstallFault Unit :=
  if number ≤ box.applied then .ok () else .error (.timeout number 0)

/-- Commits a rule and looks once whether it is acknowledged. -/
def install (box : Mailbox) (rule : Rule) : Except InstallFault Unit × Mailbox :=
  let committed := box.commit rule
  (committed.checkApplied committed.commits, committed)

def update (box : Mailbox) (text : String) (action : Action) :
    Except InstallFault RuleKey × Mailbox :=
  match keyToInstall text with
  | .error fault => (.error fault, box)
  | .ok key =>
    let (result, after) := box.install ⟨key, action⟩
    (result.map fun _ => key, after)

def installAll (box : Mailbox) (keys : List RuleKey) : Except InstallFault Unit × Mailbox :=
  installEach (fun box key => box.install ⟨key, .forward⟩) box keys

end Mailbox

/-! ## 2. While the data path polls -/

namespace Engine

def idleSteps (engine : Engine) : Nat → Engine
  | 0 => engine
  | n + 1 => engine.idleStep.2.idleSteps n

/-- Commits a rule, lets the engine find its feed empty `patience` times, and looks whether the
commit is acknowledged. -/
def install (patience : Nat) (engine : Engine) (rule : Rule) : Except InstallFault Unit × Engine :=
  let committed := { engine with mailbox := engine.mailbox.commit rule }
  let after := committed.idleSteps patience
  (after.mailbox.checkApplied committed.mailbox.commits, after)

def update (patience : Nat) (engine : Engine) (text : String) (action : Action) :
    Except InstallFault RuleKey × Engine :=
  match keyToInstall text with
  | .error fault => (.error fault, engine)
  | .ok key =>
    let (result, after) := engine.install patience ⟨key, action⟩
    (result.map fun _ => key, after)

def installAll (patience : Nat) (engine : Engine) (keys : List RuleKey) :
    Except InstallFault Unit × Engine :=
  installEach (fun engine key => engine.install patience ⟨key, .forward⟩) engine keys

/-- Steps on empty feeds until nothing is pending.  One step is enough: it applies the latest
commit. -/
def settle (engine : Engine) : Engine := engine.applyPending

end Engine
end UdpGate
