import UdpGate.Rule.Table

/-!
# Published tables

Several workers read one table while rules are written.  A writer takes a snapshot, writes its
rule to the copy and publishes the copy; readers look only at the published version, so a snapshot
keeps its answers whatever is written later.
-/

namespace UdpGate

structure PublishedTable where
  current : RuleTable := RuleTable.standard

namespace PublishedTable

def snapshot (published : PublishedTable) : RuleTable := published.current

def publish (_ : PublishedTable) (version : RuleTable) : PublishedTable := ⟨version⟩

/-- Writes a rule to a copy of the table and publishes the copy. -/
def insert (published : PublishedTable) (rule : Rule) : PublishedTable :=
  published.publish (published.snapshot.insert rule)

def lookup (published : PublishedTable) (key : RuleKey) : Action := published.snapshot.lookup key

def displacedBy? (published : PublishedTable) (key : RuleKey) : Option RuleKey :=
  published.snapshot.displacedBy? key

end PublishedTable
end UdpGate
