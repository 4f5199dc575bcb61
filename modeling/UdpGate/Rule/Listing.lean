import UdpGate.Rule.Text
import UdpGate.Text.Blank

/-!
# Lists of rules

Rules are listed with commas between them.  Blanks around an item do not count, and neither do
items that hold nothing else.  One item that is no rule spoils the list.
-/

namespace UdpGate

/-- The items of a list of rules, without blanks around them and without empty ones. -/
def ruleItems (text : String) : List String :=
  ((Text.split ',' text.toList).map Text.trim).filterMap fun item =>
    if item.isEmpty then none else some (String.ofList item)

/-- Reads a list of rules; the first item that is no rule gives the fault. -/
def rulesOfText (text : String) : Except RuleFault (List RuleKey) :=
  (ruleItems text).mapM RuleKey.ofText

end UdpGate
