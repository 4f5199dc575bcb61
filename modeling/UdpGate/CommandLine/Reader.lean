import UdpGate.CommandLine

/-!
# A reader of the command line

Options are given by a letter (`-q5`, `-q=5`, `-q 5`) or by a name (`--queue-base=5`,
`--queue-base 5`), each at most once and in any order; there are no other arguments.  A value that
is joined to its option is checked on the spot.  A value in an argument of its own is checked when
the next option is met, or at the end; so an argument that is no option is reported before it.
-/

namespace UdpGate

/-! ## 1. Values -/

def wordValue? (text : String) : Option Nat := Text.unsigned? (UInt64.size - 1) text.toList

/-- A queue number, read as a signed number that has to lie in range; so a minus sign is accepted
in front of zero. -/
def queueValue? (text : String) : Option UInt16 :=
  match text.toList with
  | '-' :: digits => (Text.number? digits).bind fun n => if n = 0 then some 0 else none
  | chars => (Text.unsigned? 65535 chars).map UInt16.ofNat

def Request.read? (request : Request) (option : CliOption) (value : String) : Option Request :=
  match option with
  | .queueBase => (queueValue? value).map fun n => { request with queueBase := n }
  | .workers => (wordValue? value).map fun n => { request with workers := n }
  | .duration => (wordValue? value).map fun n => { request with duration := n }
  | .filter => some { request with filter := some value }
  | .chunkWidth => (wordValue? value).map fun n => { request with chunkWidth := n }
  | .keyEndpoint =>
    match Endpoint.ofName value with
    | .ok endpoint => some { request with keyEndpoint := endpoint }
    | .error _ => none
  | .reportInterval => (wordValue? value).map fun n => { request with reportInterval := n }
  | .tableCapacity => (wordValue? value).map fun n => { request with tableCapacity := n }
  | .noStats | .help => none

/-! ## 2. Arguments -/

def CliOption.ofName? (name : String) : Option CliOption := all.find? (·.name = name)

def CliOption.ofLetter? (letter : Char) : Option CliOption :=
  all.find? (·.letter? = some letter)

inductive Argument where
  | endOfOptions
  | named (name : String) (value : Option String)
  | letters (letters : List Char)
  | word (text : String)
deriving DecidableEq

/-- An argument with two dashes and more is a name, up to a first equals sign; one with a single
dash and more is a run of letters; all others, a lone dash among them, are words. -/
def Argument.ofString (text : String) : Argument :=
  match text.toList with
  | '-' :: '-' :: [] => .endOfOptions
  | '-' :: '-' :: rest =>
    let (name, value) := Text.cut '=' rest
    .named (String.ofList name) (value.map String.ofList)
  | '-' :: c :: rest => .letters (c :: rest)
  | _ => .word text

-- An equals sign behind the letter does not belong to the value.
def joinedValue? : List Char → Option String
  | [] => none
  | '=' :: rest => some (String.ofList rest)
  | rest => some (String.ofList rest)

/-! ## 3. Reading -/

/-- How far a command line was read.  An option may wait for its value, or with it. -/
structure Reading where
  request : Request := {}
  given : List CliOption := []
  waiting : Option (CliOption × Option String) := none
  optionsEnded : Bool := false

namespace Reading

-- A repeated option is refused before its value is read.
def give (reading : Reading) (option : CliOption) (value : String) : Except Refusal Reading :=
  if option ∈ reading.given then .error .repeated
  else
    match reading.request.read? option value with
    | some request => .ok { reading with request := request, given := option :: reading.given }
    | none => .error .badValue

def settle (reading : Reading) : Except Refusal Reading :=
  match reading.waiting with
  | none => .ok reading
  | some (_, none) => .error .missingValue
  | some (option, some value) => { reading with waiting := none }.give option value

def meet (reading : Reading) (option : CliOption) (joined : Option String) :
    Except Refusal Reading := do
  let reading ← reading.settle
  match joined with
  | some value => reading.give option value
  | none => .ok { reading with waiting := some (option, none) }

def flag (reading : Reading) (option : CliOption) : Except Refusal Reading :=
  if option = .help then .error .help
  else if option ∈ reading.given then .error .repeated
  else
    .ok
      { reading with
        request := { reading.request with noStats := true }
        given := option :: reading.given }

def raise (reading : Reading) (option : CliOption) : Except Refusal Reading := do
  let reading ← reading.settle
  reading.flag option

def readLetters (reading : Reading) : List Char → Except Refusal Reading
  | [] => .ok reading
  | letter :: rest =>
    match CliOption.ofLetter? letter with
    | none => .error .unknownArgument
    | some option =>
      if option.takesValue then reading.meet option (joinedValue? rest)
      else
        match reading.raise option with
        | .ok reading => reading.readLetters rest
        | .error refusal => .error refusal

def readName (reading : Reading) (name : String) (value : Option String) :
    Except Refusal Reading :=
  match CliOption.ofName? name with
  | none => .error .unknownArgument
  | some option =>
    if option.takesValue then reading.meet option value
    else if value.isSome then .error .unexpectedValue
    else reading.raise option

-- A word is the value of the option in front of it, and of no use anywhere else.
def readWord (reading : Reading) (text : String) : Except Refusal Reading :=
  match reading.waiting with
  | some (option, none) => .ok { reading with waiting := some (option, some text) }
  | _ => .error .unknownArgument

def next (reading : Reading) (text : String) : Except Refusal Reading :=
  if reading.optionsEnded then .error .unknownArgument
  else
    match Argument.ofString text with
    | .endOfOptions => .ok { reading with optionsEnded := true }
    | .named name value => reading.readName name value
    | .letters letters => reading.readLetters letters
    | .word text => reading.readWord text

def readAll (reading : Reading) (arguments : List String) : Except Refusal Reading :=
  arguments.foldlM next reading >>= settle

end Reading

def Request.ofArguments : CommandReader := fun arguments =>
  (Reading.readAll {} arguments).map Reading.request

end UdpGate
