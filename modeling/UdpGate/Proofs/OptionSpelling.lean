import UdpGate.CommandLine
import UdpGate.Proofs.RuleGrammar

/-!
# Ways to give an option

A value stands behind the letter of its option or behind an equals sign, or in an argument of its
own, and it is a text of a form that its option takes.  What is relied on of a reader of command lines
is said in these terms (`CommandReader.Documented`).
-/

namespace UdpGate

/-! ## 1. Arguments -/

namespace CliOption

def letterArgument (letter : Char) : String := String.ofList ['-', letter]

def nameArgument (option : CliOption) : String := "--" ++ option.name

end CliOption

/-- A text that is not taken for an option where it has an argument of its own. -/
def Argument.IsWord (text : String) : Prop := text.toList.head? = some '-' → text.toList = ['-']

/-- The arguments that give an option a text.  Joined to a letter, the text may not be empty or begin
with an equals sign, which would not count. -/
inductive CliOption.Spelled (option : CliOption) (text : String) : List String → Prop where
  | joined {letter : Char} : option.letter? = some letter → text ≠ "" →
      text.toList.head? ≠ some '=' → Spelled option text [letterArgument letter ++ text]
  | letterEquals {letter : Char} : option.letter? = some letter →
      Spelled option text [letterArgument letter ++ "=" ++ text]
  | letterApart {letter : Char} : option.letter? = some letter → Argument.IsWord text →
      Spelled option text [letterArgument letter, text]
  | nameEquals : Spelled option text [option.nameArgument ++ "=" ++ text]
  | nameApart : Argument.IsWord text → Spelled option text [option.nameArgument, text]

theorem CliOption.Spelled.ne_nil {option : CliOption} {text : String} {form : List String}
    (h : option.Spelled text form) : form ≠ [] := by
  cases h <;> exact List.cons_ne_nil _ _

inductive Given : List CliOption → List String → Prop where
  | nil : Given [] []
  | value {options : List CliOption} {option : CliOption} {text : String}
      {arguments form : List String} : Given options arguments → option.takesValue →
      option.Spelled text form → Given (options ++ [option]) (arguments ++ form)
  | flag {options : List CliOption} {arguments : List String} : Given options arguments →
      Given (options ++ [.noStats]) (arguments ++ [CliOption.noStats.nameArgument])

/-! ## 2. Values -/

def SpellsWord (text : String) (n : Nat) : Prop :=
  Text.SignedNumeral text.toList n ∧ n < UInt64.size

/-- A queue number as text: a numeral, or zeros behind a minus sign. -/
inductive SpellsQueue : List Char → UInt16 → Prop where
  | number {text : List Char} {queue : UInt16} :
      Text.SignedNumeral text queue.toNat → SpellsQueue text queue
  | negatedZero {text : List Char} : Text.Numeral text 0 → SpellsQueue ('-' :: text) 0

/-- The request that an option makes of another if it takes the text for its value. -/
def Request.Takes (request : Request) (text : String) (after : Request) : CliOption → Prop
  | .queueBase => ∃ n, SpellsQueue text.toList n ∧ after = { request with queueBase := n }
  | .workers => ∃ n, SpellsWord text n ∧ after = { request with workers := n }
  | .duration => ∃ n, SpellsWord text n ∧ after = { request with duration := n }
  | .filter => after = { request with filter := some text }
  | .chunkWidth => ∃ n, SpellsWord text n ∧ after = { request with chunkWidth := n }
  | .keyEndpoint =>
    ∃ endpoint, Endpoint.ofName text = .ok endpoint ∧
      after = { request with keyEndpoint := endpoint }
  | .reportInterval => ∃ n, SpellsWord text n ∧ after = { request with reportInterval := n }
  | .tableCapacity => ∃ n, SpellsWord text n ∧ after = { request with tableCapacity := n }
  | .noStats | .help => False

theorem Request.Takes.takesValue {request after : Request} {text : String} {option : CliOption}
    (h : request.Takes text after option) : option.takesValue := by
  cases option with
  | noStats | help => exact h.elim
  | _ => rfl

/-! ## 3. Readers -/

/-- What is relied on of a reader: defaults where nothing is given, and then one option after the
other.  Behind arguments that it reads, an option that they do not give takes its value from any text
that spells one, in any of the forms, and leaves the other values as they are. -/
structure CommandReader.Documented (read : CommandReader) : Prop where
  defaults : read [] = .ok {}
  value {options : List CliOption} {arguments form : List String} {request after : Request}
    {option : CliOption} {text : String} : Given options arguments →
    read arguments = .ok request → option ∉ options → option.Spelled text form →
    request.Takes text after option → read (arguments ++ form) = .ok after
  flag {options : List CliOption} {arguments : List String} {request : Request} :
    Given options arguments → read arguments = .ok request → .noStats ∉ options →
    read (arguments ++ [CliOption.noStats.nameArgument]) = .ok { request with noStats := true }

end UdpGate
