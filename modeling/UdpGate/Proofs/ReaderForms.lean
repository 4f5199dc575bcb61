import UdpGate.CommandLine.Reader
import UdpGate.Proofs.OptionSpelling

/-!
# What the reader reads

However an option is written, its arguments have the effect of settling what was read before and then
giving the option its text (`Reading.readAll_spelled`).  So the reader is one that can be relied on
(`Request.ofArguments_documented`).
-/

namespace UdpGate

/-! ## 1. Arguments by their shape -/

namespace Argument

variable {text : String}

theorem ofString_of_letters {letter : Char} {rest : List Char}
    (shape : text.toList = '-' :: letter :: rest) (other : letter ≠ '-') :
    ofString text = .letters (letter :: rest) := by
  simp [ofString, shape, other]

theorem ofString_of_name {rest : List Char} (shape : text.toList = '-' :: '-' :: rest)
    (some_name : rest ≠ []) :
    ofString text = .named (String.ofList (Text.cut '=' rest).1)
      ((Text.cut '=' rest).2.map String.ofList) := by
  obtain ⟨c, rest, rfl⟩ := List.exists_cons_of_ne_nil some_name
  simp [ofString, shape]

theorem ofString_of_isWord (h : IsWord text) : ofString text = .word text := by
  unfold IsWord at h
  cases shape : text.toList with
  | nil => simp [ofString, shape]
  | cons first rest =>
    rw [shape] at h
    by_cases dash : first = '-'
    · obtain ⟨-, rfl⟩ := List.cons.inj (h (congrArg some dash))
      simp [ofString, shape, dash]
    · simp [ofString, shape, dash]

end Argument

namespace CliOption

variable {option : CliOption} {letter : Char}

theorem ofName?_name (option : CliOption) : ofName? option.name = some option := by
  cases option <;> rfl

theorem ofLetter?_of_letter? (h : option.letter? = some letter) :
    ofLetter? letter = some option := by
  cases option <;> cases h <;> rfl

theorem letter_ne_dash (h : option.letter? = some letter) : letter ≠ '-' := by
  cases option <;> cases h <;> decide

theorem toList_nameArgument (option : CliOption) (tail : String) :
    (option.nameArgument ++ tail).toList = '-' :: '-' :: (option.name.toList ++ tail.toList) := by
  simp [nameArgument]

theorem toList_letterArgument (letter : Char) (tail : String) :
    (letterArgument letter ++ tail).toList = '-' :: letter :: tail.toList := by
  simp [letterArgument]

theorem name_ne_nil (option : CliOption) : option.name.toList ≠ [] := by
  cases option <;> decide

theorem notMem_equals_name (option : CliOption) : '=' ∉ option.name.toList := by
  cases option <;> decide

theorem ofString_nameArgument (option : CliOption) :
    Argument.ofString option.nameArgument = .named option.name none := by
  have shape := option.toList_nameArgument ""
  rw [String.append_empty, String.toList_empty, List.append_nil] at shape
  rw [Argument.ofString_of_name shape option.name_ne_nil,
    Text.cut_of_notMem option.notMem_equals_name, String.ofList_toList]
  rfl

theorem ofString_nameArgument_equals (option : CliOption) (text : String) :
    Argument.ofString (option.nameArgument ++ "=" ++ text) = .named option.name (some text) := by
  have shape : (option.nameArgument ++ "=" ++ text).toList =
      '-' :: '-' :: (option.name.toList ++ '=' :: text.toList) := by
    rw [String.append_assoc, toList_nameArgument, String.toList_append]
    rfl
  rw [Argument.ofString_of_name shape (by simp), Text.cut_append option.notMem_equals_name,
    String.ofList_toList, Option.map_some, String.ofList_toList]

theorem ofString_letterArgument (h : option.letter? = some letter) (tail : String) :
    Argument.ofString (letterArgument letter ++ tail) = .letters (letter :: tail.toList) :=
  Argument.ofString_of_letters (toList_letterArgument letter tail) (letter_ne_dash h)

end CliOption

theorem joinedValue?_toList {text : String} (something : text ≠ "")
    (no_equals : text.toList.head? ≠ some '=') : joinedValue? text.toList = some text := by
  cases shape : text.toList with
  | nil => exact absurd (String.toList_eq_nil_iff.mp shape) something
  | cons first rest =>
    rw [shape] at no_equals
    have other : first ≠ '=' := fun same => no_equals (congrArg some same)
    rw [joinedValue?, ← shape, String.ofList_toList]
    · simp
    · simpa using other

theorem joinedValue?_equals (text : String) : joinedValue? ("=" ++ text).toList = some text := by
  rw [String.toList_append]
  show some (String.ofList text.toList) = _
  rw [String.ofList_toList]

/-! ## 2. Values -/

theorem wordValue?_eq_some_iff {text : String} {n : Nat} :
    wordValue? text = some n ↔ SpellsWord text n := by
  rw [SpellsWord, wordValue?, Text.unsigned?_eq_some_iff, and_congr_right_iff]
  intro _
  show n ≤ 18446744073709551615 ↔ n < 18446744073709551616
  omega

theorem Text.SignedNumeral.head?_ne_minus {text : List Char} {n : Nat} (h : SignedNumeral text n) :
    text.head? ≠ some '-' := by
  intro minus
  cases h with
  | plus => cases minus
  | plain numeral => exact numeral.notMem (by decide) (List.mem_of_mem_head? minus)

theorem queueValue?_of_minus {text : String} {digits : List Char}
    (shape : text.toList = '-' :: digits) :
    queueValue? text = (Text.number? digits).bind fun n => if n = 0 then some 0 else none := by
  simp only [queueValue?, shape]

theorem queueValue?_of_head? {text : String} (plain : text.toList.head? ≠ some '-') :
    queueValue? text = port? text.toList := by
  unfold queueValue?
  split
  · rename_i shape
    rw [shape] at plain
    exact absurd rfl plain
  · rfl

theorem queueValue?_eq_some_iff {text : String} {queue : UInt16} :
    queueValue? text = some queue ↔ SpellsQueue text.toList queue := by
  by_cases minus : text.toList.head? = some '-'
  · obtain ⟨digits, shape⟩ := List.head?_eq_some_iff.mp minus
    rw [queueValue?_of_minus shape, shape, Option.bind_eq_some_iff]
    constructor
    · rintro ⟨n, number, kept⟩
      split at kept
      · rename_i zero
        cases kept
        rw [zero] at number
        exact .negatedZero (Text.number?_eq_some_iff.mp number)
      · cases kept
    · intro spells
      cases spells with
      | number numeral => exact absurd rfl numeral.head?_ne_minus
      | negatedZero zeros => exact ⟨0, Text.number?_eq_some_iff.mpr zeros, rfl⟩
  · rw [queueValue?_of_head? minus, port?_eq_some_iff]
    refine ⟨.number, fun spells => ?_⟩
    cases h : text.toList with
    | nil =>
      rw [h] at spells
      cases spells with
      | number numeral => exact numeral
    | cons first rest =>
      rw [h] at spells minus
      cases spells with
      | number numeral => exact numeral
      | negatedZero => exact absurd rfl minus

theorem Request.Takes.read? {request after : Request} {text : String} {option : CliOption}
    (h : request.Takes text after option) : request.read? option text = some after := by
  cases option with
  | noStats | help => exact h.elim
  | filter => exact congrArg some h.symm
  | keyEndpoint =>
    obtain ⟨endpoint, named, rfl⟩ := h
    simp only [Request.read?, named]
  | queueBase =>
    obtain ⟨n, spells, rfl⟩ := h
    exact congrArg (Option.map _) (queueValue?_eq_some_iff.mpr spells)
  | _ =>
    obtain ⟨n, spells, rfl⟩ := h
    exact congrArg (Option.map _) (wordValue?_eq_some_iff.mpr spells)

/-! ## 3. Reading them -/

namespace Reading

variable {reading settled last : Reading} {option : CliOption} {text : String}
  {form : List String}

theorem settle_of_waiting_none (idle : reading.waiting = none) : reading.settle = .ok reading := by
  rw [settle, idle]

theorem give_eq_ok (new : option ∉ reading.given) {after : Request}
    (read : reading.request.read? option text = some after) :
    reading.give option text =
      .ok { reading with request := after, given := option :: reading.given } := by
  rw [give, if_neg new, read]

/-- What an option leaves alone when it gets its value. -/
structure Extends (reading : Reading) (option : CliOption) (last : Reading) : Prop where
  given : last.given = option :: reading.given
  waiting : last.waiting = reading.waiting
  optionsEnded : last.optionsEnded = reading.optionsEnded

theorem extends_of_give (gave : reading.give option text = .ok last) :
    reading.Extends option last := by
  unfold give at gave
  split at gave
  · cases gave
  · split at gave
    · cases gave
      exact ⟨rfl, rfl, rfl⟩
    · cases gave

theorem Extends.given_reverse {options : List CliOption} (h : reading.Extends option last)
    (before : reading.given = options.reverse ∧ reading.optionsEnded = false) :
    last.given = (options ++ [option]).reverse ∧ last.optionsEnded = false := by
  rw [h.given, h.optionsEnded, before.1, List.reverse_append]
  exact ⟨rfl, before.2⟩

theorem extends_of_flag (raised : reading.flag option = .ok last) :
    reading.Extends option last := by
  unfold flag at raised
  split at raised
  · cases raised
  · split at raised
    · cases raised
    · cases raised
      exact ⟨rfl, rfl, rfl⟩

theorem waiting_of_settle (h : reading.settle = .ok settled) : settled.waiting = none := by
  unfold settle at h
  split at h
  · rename_i idle
    cases h
    exact idle
  · cases h
  · exact (extends_of_give h).waiting

theorem optionsEnded_of_settle (h : reading.settle = .ok settled) :
    settled.optionsEnded = reading.optionsEnded := by
  unfold settle at h
  split at h
  · cases h
    rfl
  · cases h
  · exact (extends_of_give h).optionsEnded

-- A value that is joined to its option is settled at once.
theorem meet_some_settle (reading : Reading) (option : CliOption) (text : String) :
    (reading.meet option (some text) >>= settle) =
      reading.settle >>= fun settled => settled.give option text := by
  unfold meet
  cases settles : reading.settle with
  | error refusal => rfl
  | ok settled =>
    show (settled.give option text >>= settle) = settled.give option text
    cases gave : settled.give option text with
    | error refusal => rfl
    | ok last =>
      apply settle_of_waiting_none
      rw [(extends_of_give gave).waiting, waiting_of_settle settles]

-- A value in an argument of its own waits for what comes behind it.
theorem meet_none_settle (opened : reading.optionsEnded = false) (word : Argument.IsWord text) :
    (reading.meet option none >>= fun met => met.next text >>= settle) =
      reading.settle >>= fun settled => settled.give option text := by
  unfold meet
  cases settles : reading.settle with
  | error refusal => rfl
  | ok settled =>
    have still : settled.optionsEnded = false := (optionsEnded_of_settle settles).trans opened
    have idle := waiting_of_settle settles
    have waits : next { settled with waiting := some (option, none) } text =
        .ok { settled with waiting := some (option, some text) } := by
      rw [next, if_neg (ne_true_of_eq_false still), Argument.ofString_of_isWord word]
      rfl
    show (next { settled with waiting := some (option, none) } text >>= settle) = _
    rw [waits]
    show give { settled with waiting := none } option text = settled.give option text
    rw [← idle]

theorem next_name (opened : reading.optionsEnded = false) (takes : option.takesValue)
    {argument : String} {value : Option String}
    (shape : Argument.ofString argument = .named option.name value) :
    reading.next argument = reading.meet option value := by
  simp only [next, opened, shape, readName, CliOption.ofName?_name, takes, if_true,
    Bool.false_eq_true, if_false]

theorem next_letters (opened : reading.optionsEnded = false) (takes : option.takesValue)
    {letter : Char} (letter_eq : option.letter? = some letter) (tail : String) :
    reading.next (CliOption.letterArgument letter ++ tail) =
      reading.meet option (joinedValue? tail.toList) := by
  simp only [next, opened, CliOption.ofString_letterArgument letter_eq, readLetters,
    CliOption.ofLetter?_of_letter? letter_eq, takes, if_true, Bool.false_eq_true, if_false]

theorem next_flag (opened : reading.optionsEnded = false) :
    reading.next CliOption.noStats.nameArgument = reading.raise .noStats := by
  simp only [next, opened, CliOption.ofString_nameArgument, readName, CliOption.ofName?_name,
    Bool.false_eq_true, if_false]
  rfl

theorem readAll_cons (reading : Reading) (argument : String) (rest : List String) :
    reading.readAll (argument :: rest) = reading.next argument >>= fun met => met.readAll rest := by
  rw [readAll, List.foldlM_cons, bind_assoc]
  rfl

theorem readAll_of_folded {arguments : List String} (folded : arguments.foldlM next reading = .ok last)
    (settles : last.settle = .ok settled) : reading.readAll arguments = .ok settled := by
  rw [readAll, folded]
  exact settles

theorem exists_of_readAll_append {arguments : List String} (something : form ≠ [])
    (read : reading.readAll (arguments ++ form) = .ok last) :
    ∃ met, arguments.foldlM next reading = .ok met ∧ met.optionsEnded = false ∧
      met.readAll form = .ok last := by
  rw [readAll, List.foldlM_append, bind_assoc] at read
  obtain ⟨met, folded, read⟩ := exists_of_bind_eq_ok read
  refine ⟨met, folded, ?_, read⟩
  by_contra ended
  obtain ⟨argument, rest, rfl⟩ := List.exists_cons_of_ne_nil something
  change met.readAll (argument :: rest) = .ok last at read
  rw [readAll_cons, next, if_pos (eq_true_of_ne_false ended)] at read
  cases read

/-- **An option.**  In whatever way an option is given a text, what was read before is settled and
the option gets the text. -/
theorem readAll_spelled (opened : reading.optionsEnded = false) (takes : option.takesValue)
    (spelled : option.Spelled text form) :
    reading.readAll form = reading.settle >>= fun settled => settled.give option text := by
  have at_once {argument : String} (read : reading.next argument = reading.meet option (some text)) :
      reading.readAll [argument] = reading.settle >>= fun settled => settled.give option text := by
    rw [readAll_cons, read]
    exact meet_some_settle reading option text
  have apart {argument : String} (word : Argument.IsWord text)
      (read : reading.next argument = reading.meet option none) :
      reading.readAll [argument, text] =
        reading.settle >>= fun settled => settled.give option text := by
    rw [readAll_cons, read, ← meet_none_settle opened word]
    congr 1
    funext met
    exact readAll_cons met text []
  cases spelled with
  | joined letter something no_equals =>
    apply at_once
    rw [next_letters opened takes letter, joinedValue?_toList something no_equals]
  | letterEquals letter =>
    apply at_once
    rw [String.append_assoc, next_letters opened takes letter, joinedValue?_equals]
  | letterApart letter word =>
    apply apart word
    have read := next_letters opened takes letter ""
    rwa [String.append_empty] at read
  | nameEquals => exact at_once (next_name opened takes (option.ofString_nameArgument_equals text))
  | nameApart word => exact apart word (next_name opened takes option.ofString_nameArgument)

theorem readAll_flag (opened : reading.optionsEnded = false) :
    reading.readAll [CliOption.noStats.nameArgument] =
      reading.settle >>= fun settled => settled.flag .noStats := by
  rw [readAll_cons, next_flag opened, raise]
  cases settles : reading.settle with
  | error refusal => rfl
  | ok settled =>
    show (settled.flag .noStats >>= settle) = settled.flag .noStats
    cases raised : settled.flag .noStats with
    | error refusal => rfl
    | ok last =>
      apply settle_of_waiting_none
      rw [(extends_of_flag raised).waiting, waiting_of_settle settles]

-- By induction on what was given: an argument behind two dashes would have been refused.
theorem given_of_readAll {options : List CliOption} {arguments : List String}
    (given : Given options arguments) (read : readAll {} arguments = .ok settled) :
    settled.given = options.reverse ∧ settled.optionsEnded = false := by
  induction given generalizing settled with
  | nil =>
    cases read
    exact ⟨rfl, rfl⟩
  | @value options option text arguments form given takes spelled ih =>
    obtain ⟨met, folded, opened, read⟩ := exists_of_readAll_append spelled.ne_nil read
    rw [readAll_spelled opened takes spelled] at read
    obtain ⟨before, settles, gave⟩ := exists_of_bind_eq_ok read
    exact (extends_of_give gave).given_reverse (ih (readAll_of_folded folded settles))
  | @flag options arguments given ih =>
    obtain ⟨met, folded, opened, read⟩ := exists_of_readAll_append (List.cons_ne_nil _ _) read
    rw [readAll_flag opened] at read
    obtain ⟨before, settles, raised⟩ := exists_of_bind_eq_ok read
    exact (extends_of_flag raised).given_reverse (ih (readAll_of_folded folded settles))

theorem exists_of_ofArguments {options : List CliOption} {arguments : List String} {request : Request}
    (given : Given options arguments) (read : Request.ofArguments arguments = .ok request) :
    ∃ met settled, arguments.foldlM next {} = .ok met ∧ met.settle = .ok settled ∧
      met.optionsEnded = false ∧ settled.given = options.reverse ∧ settled.request = request := by
  unfold Request.ofArguments at read
  cases done : readAll {} arguments with
  | error refusal =>
    rw [done] at read
    cases read
  | ok settled =>
    rw [done] at read
    cases read
    obtain ⟨met, folded, settles⟩ := exists_of_bind_eq_ok done
    obtain ⟨given_eq, opened⟩ := given_of_readAll given done
    rw [optionsEnded_of_settle settles] at opened
    exact ⟨met, settled, folded, settles, opened, given_eq, rfl⟩

theorem ofArguments_append {arguments : List String} {met : Reading}
    (folded : arguments.foldlM next {} = .ok met) (form : List String) :
    Request.ofArguments (arguments ++ form) = (met.readAll form).map request := by
  rw [Request.ofArguments, readAll, List.foldlM_append, folded]
  rfl

end Reading

theorem Request.ofArguments_documented : CommandReader.Documented Request.ofArguments where
  defaults := rfl
  value := by
    intro options arguments form request after option text given read new spelled takes
    obtain ⟨met, settled, folded, settles, opened, given_eq, rfl⟩ :=
      Reading.exists_of_ofArguments given read
    have absent : option ∉ settled.given := by
      rwa [given_eq, List.mem_reverse]
    rw [Reading.ofArguments_append folded, Reading.readAll_spelled opened takes.takesValue spelled,
      settles]
    exact congrArg (Except.map Reading.request) (Reading.give_eq_ok absent takes.read?)
  flag := by
    intro options arguments request given read new
    obtain ⟨met, settled, folded, settles, opened, given_eq, rfl⟩ :=
      Reading.exists_of_ofArguments given read
    have absent : .noStats ∉ settled.given := by
      rwa [given_eq, List.mem_reverse]
    rw [Reading.ofArguments_append folded, Reading.readAll_flag opened, settles]
    show Except.map Reading.request (settled.flag .noStats) = _
    rw [Reading.flag, if_neg (by decide), if_neg absent]
    rfl

end UdpGate
