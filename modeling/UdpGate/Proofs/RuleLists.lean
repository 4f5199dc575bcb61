import UdpGate.Proofs.RuleGrammar
import UdpGate.Settings

/-!
# Lists of rules as text

The items of a list are said here without a reader: they stand between commas and blanks, and there
is something in them (`ListsItems`).  Reading a list gives the rules of all its items, in their
order, or the fault of the first item that is no rule (`ReadsItems`); and a list that was written,
with blanks and empty items wherever one likes, reads as the keys that were written
(`rulesSetting_grammar`).
-/

namespace UdpGate

/-! ## 1. Items -/

namespace Text

structure Trims (text core : List Char) : Prop where
  between : ∃ before after : List Char, text = before ++ core ++ after ∧
    (∀ c ∈ before, isBlank c) ∧ ∀ c ∈ after, isBlank c
  first : ∀ c ∈ core.head?, ¬ isBlank c
  last : ∀ c ∈ core.getLast?, ¬ isBlank c

theorem dropWhile_of_head? {text : List Char} (h : ∀ c ∈ text.head?, ¬ isBlank c) :
    text.dropWhile isBlank = text := by
  cases text with
  | nil => rfl
  | cons c rest => exact List.dropWhile_cons_of_neg (h c rfl)

theorem head?_dropWhile (text : List Char) :
    ∀ c ∈ (text.dropWhile isBlank).head?, ¬ isBlank c := by
  intro c first
  have stopped := List.head?_dropWhile_not isBlank text
  rw [Option.mem_def.mp first] at stopped
  rw [stopped]
  exact Bool.false_ne_true

theorem trims_trim (text : List Char) : Trims text (trim text) where
  between := by
    refine ⟨text.takeWhile isBlank,
      ((text.dropWhile isBlank).reverse.takeWhile isBlank).reverse, ?_, ?_, ?_⟩
    · rw [trim, List.append_assoc, ← List.reverse_append, List.takeWhile_append_dropWhile,
        List.reverse_reverse, List.takeWhile_append_dropWhile]
    · exact List.all_eq_true.mp List.all_takeWhile
    · intro c mem
      exact List.all_eq_true.mp List.all_takeWhile c (List.mem_reverse.mp mem)
  first := by
    intro c first
    obtain ⟨cutOff, whole⟩ := List.rdropWhile_prefix isBlank (text.dropWhile isBlank)
    apply head?_dropWhile text
    rw [← whole]
    exact List.mem_head?_append_of_mem_head? first
  last := by
    rw [trim, List.getLast?_reverse]
    exact head?_dropWhile _

theorem Trims.trim_eq {text core : List Char} (h : Trims text core) : trim text = core := by
  obtain ⟨before, after, rfl, blank_before, blank_after⟩ := h.between
  rw [trim, List.append_assoc, List.dropWhile_append_of_pos blank_before]
  have blank_back : ∀ c ∈ after.reverse, isBlank c := by simpa using blank_after
  cases core with
  | nil =>
    have nothing : after.dropWhile isBlank = [] := List.dropWhile_eq_nil_iff.mpr blank_after
    rw [List.nil_append, nothing]
    rfl
  | cons c rest =>
    have last : ∀ c' ∈ (c :: rest).reverse.head?, ¬ isBlank c' := by
      rw [List.head?_reverse]
      exact h.last
    rw [List.cons_append, List.dropWhile_cons_of_neg (h.first c rfl), ← List.cons_append,
      List.reverse_append, List.dropWhile_append_of_pos blank_back, dropWhile_of_head? last,
      List.reverse_reverse]

end Text

/-- The items in the parts of a list: a part that holds only blanks has none. -/
inductive PartItems : List (List Char) → List String → Prop where
  | nil : PartItems [] []
  | empty {part : List Char} {parts : List (List Char)} {items : List String} :
      Text.Trims part [] → PartItems parts items → PartItems (part :: parts) items
  | item {part : List Char} {parts : List (List Char)} {item : String} {items : List String} :
      Text.Trims part item.toList → item ≠ "" → PartItems parts items →
      PartItems (part :: parts) (item :: items)

def ListsItems (text : String) (items : List String) : Prop :=
  ∃ parts : List (List Char), parts ≠ [] ∧ (∀ part ∈ parts, ',' ∉ part) ∧
    Text.unsplit ',' parts = text.toList ∧ PartItems parts items

def partItems (parts : List (List Char)) : List String :=
  (parts.map Text.trim).filterMap fun item =>
    if item.isEmpty then none else some (String.ofList item)

theorem partItems_cons_of_blank {part : List Char} (h : Text.Trims part [])
    (parts : List (List Char)) : partItems (part :: parts) = partItems parts := by
  simp [partItems, h.trim_eq]

theorem partItems_cons_of_item {part : List Char} {item : String}
    (h : Text.Trims part item.toList) (something : item ≠ "") (parts : List (List Char)) :
    partItems (part :: parts) = item :: partItems parts := by
  simp [partItems, h.trim_eq, something]

theorem partItems_iff {parts : List (List Char)} {items : List String} :
    PartItems parts items ↔ partItems parts = items := by
  constructor
  · intro h
    induction h with
    | nil => rfl
    | empty blank _ ih => rw [partItems_cons_of_blank blank, ih]
    | item trims something _ ih => rw [partItems_cons_of_item trims something, ih]
  · rintro rfl
    induction parts with
    | nil => exact .nil
    | cons part parts ih =>
      have trims := Text.trims_trim part
      by_cases blank : Text.trim part = []
      · rw [blank] at trims
        rw [partItems_cons_of_blank trims]
        exact .empty trims ih
      · rw [← String.toList_ofList (l := Text.trim part)] at trims
        have something : String.ofList (Text.trim part) ≠ "" := by
          simpa [← String.toList_inj] using blank
        rw [partItems_cons_of_item trims something]
        exact .item trims something ih

theorem listsItems_iff {text : String} {items : List String} :
    ListsItems text items ↔ ruleItems text = items := by
  constructor
  · rintro ⟨parts, some_part, free, whole, listed⟩
    rw [ruleItems, ← whole, Text.split_unsplit some_part free]
    exact partItems_iff.mp listed
  · intro items_eq
    exact ⟨Text.split ',' text.toList, Text.split_ne_nil _ _, fun _ => Text.notMem_of_mem_split,
      Text.unsplit_split _ _, partItems_iff.mpr items_eq⟩

/-! ## 2. Reading items -/

/-- The answer that items ask for: the rules of all of them, or the fault of the first that is no
rule. -/
inductive ReadsItems (items : List String) : Except SettingsFault (List RuleKey) → Prop where
  | rules {keys : List RuleKey} :
      items.Forall₂ (fun item key => RuleKey.ofText item = .ok key) keys →
      ReadsItems items (.ok keys)
  | fault {front back : List String} {item : String} {fault : RuleFault} :
      items = front ++ item :: back →
      (∀ earlier ∈ front, ∃ key, RuleKey.ofText earlier = .ok key) →
      RuleKey.ofText item = .error fault → ReadsItems items (.error (.rule fault))

theorem readsItems_mapM (items : List String) :
    ReadsItems items ((items.mapM RuleKey.ofText).mapError .rule) := by
  induction items with
  | nil => exact .rules .nil
  | cons item items ih =>
    rw [List.mapM_cons]
    cases here : RuleKey.ofText item with
    | error fault => exact .fault (List.nil_append _).symm nofun here
    | ok key =>
      cases behind : items.mapM RuleKey.ofText with
      | ok keys =>
        rw [behind] at ih
        cases ih with
        | rules read => exact .rules (.cons here read)
      | error fault =>
        rw [behind] at ih
        cases ih with
        | @fault front back bad _ cut earlier read =>
          have cut' : item :: items = (item :: front) ++ bad :: back := by rw [cut]; rfl
          exact .fault cut' (List.forall_mem_cons.mpr ⟨⟨key, here⟩, earlier⟩) read

theorem mapM_ofText_of_rules {items : List String} {keys : List RuleKey}
    (h : items.Forall₂ (fun item key => RuleKey.ofText item = .ok key) keys) :
    items.mapM RuleKey.ofText = .ok keys := by
  induction h with
  | nil => rfl
  | cons here _ ih =>
    rw [List.mapM_cons, here, ih]
    rfl

theorem mapM_ofText_of_fault {front : List String} {item : String} {fault : RuleFault}
    (earlier : ∀ item ∈ front, ∃ key, RuleKey.ofText item = .ok key)
    (here : RuleKey.ofText item = .error fault) (back : List String) :
    (front ++ item :: back).mapM RuleKey.ofText = .error fault := by
  induction front with
  | nil =>
    rw [List.nil_append, List.mapM_cons, here]
    rfl
  | cons first front ih =>
    obtain ⟨⟨key, read⟩, earlier⟩ := List.forall_mem_cons.mp earlier
    rw [List.cons_append, List.mapM_cons, read, ih earlier]
    rfl

theorem ReadsItems.mapM_eq {items : List String} {result : Except SettingsFault (List RuleKey)}
    (h : ReadsItems items result) : (items.mapM RuleKey.ofText).mapError .rule = result := by
  cases h with
  | rules read =>
    rw [mapM_ofText_of_rules read]
    rfl
  | fault cut earlier here =>
    rw [cut, mapM_ofText_of_fault earlier here]
    rfl

theorem rulesSetting_eq_iff {text : String} {result : Except SettingsFault (List RuleKey)} :
    rulesSetting text = result ↔ ∃ items, ListsItems text items ∧ ReadsItems items result := by
  unfold rulesSetting rulesOfText
  constructor
  · rintro rfl
    exact ⟨ruleItems text, listsItems_iff.mpr rfl, readsItems_mapM _⟩
  · rintro ⟨items, listed, read⟩
    rw [listsItems_iff.mp listed]
    exact read.mapM_eq

/-! ## 3. Lists that were written -/

theorem RuleKey.toList_text (key : RuleKey) :
    key.text.toList = key.address.text.toList ++ ':' :: Text.digits key.port.toNat := by
  simp [RuleKey.text, Text.decimal]

theorem RuleKey.ofText_text {key : RuleKey} (nonzero : key.port ≠ 0) : ofText key.text = .ok key :=
  (Reads.rule key.toList_text key.address.dotted_text (.plain (Text.numeral_digits _))
    nonzero).ofText_eq

/-- The dot, the digits and the colon stand together, and neither the comma nor a blank is among
them. -/
def RuleLetter (c : Char) : Prop := '.' ≤ c ∧ c ≤ ':'

theorem RuleLetter.of_digit {c : Char} (h : '0' ≤ c ∧ c ≤ '9') : RuleLetter c :=
  ⟨le_trans (by decide) h.1, le_trans h.2 (by decide)⟩

theorem RuleLetter.not_isBlank {c : Char} (h : RuleLetter c) : ¬ Text.isBlank c := by
  have least : '.'.toNat ≤ c.toNat := h.1
  have greatest : c.toNat ≤ ':'.toNat := h.2
  have dot : '.'.toNat = 0x2E := rfl
  have colon : ':'.toNat = 0x3A := rfl
  simp only [Text.isBlank, Text.blankRanges, List.any_cons, List.any_nil, Bool.or_eq_true,
    Bool.and_eq_true, decide_eq_true_eq, Bool.or_false]
  omega

theorem Octet.ruleLetter {text : List Char} {n : Nat} (h : Octet text n) :
    ∀ c ∈ text, RuleLetter c := fun c mem => .of_digit (h.numeral.digit c mem)

theorem Address.Dotted.ruleLetter {text : List Char} {address : Address}
    (h : address.Dotted text) : ∀ c ∈ text, RuleLetter c := by
  have dot : RuleLetter '.' := by unfold RuleLetter; decide
  cases h with
  | mk first second third fourth _ =>
    simp only [List.forall_mem_append, List.forall_mem_cons]
    exact ⟨first.ruleLetter, dot, second.ruleLetter, dot, third.ruleLetter, dot, fourth.ruleLetter⟩

theorem RuleKey.ruleLetter_text (key : RuleKey) : ∀ c ∈ key.text.toList, RuleLetter c := by
  have colon : RuleLetter ':' := by unfold RuleLetter; decide
  rw [key.toList_text, List.forall_mem_append, List.forall_mem_cons]
  exact ⟨key.address.dotted_text.ruleLetter, colon,
    fun c mem => .of_digit ((Text.numeral_digits _).digit c mem)⟩

/-- A place in a written list: a key or nothing, with blanks around it. -/
structure WrittenItem where
  before : List Char
  key? : Option RuleKey
  after : List Char
  blank_before : ∀ c ∈ before, Text.isBlank c
  blank_after : ∀ c ∈ after, Text.isBlank c

namespace WrittenItem

variable (written : WrittenItem)

def core : List Char := written.key?.elim [] fun key => key.text.toList

def text : List Char := written.before ++ written.core ++ written.after

theorem ruleLetter_core : ∀ c ∈ written.core, RuleLetter c := by
  unfold core
  cases written.key? with
  | none => exact nofun
  | some key => exact key.ruleLetter_text

theorem trims_text : Text.Trims written.text written.core where
  between := ⟨written.before, written.after, rfl, written.blank_before, written.blank_after⟩
  first c first := (written.ruleLetter_core c (List.mem_of_mem_head? first)).not_isBlank
  last c last := (written.ruleLetter_core c (List.mem_of_mem_getLast? last)).not_isBlank

theorem notMem_comma_text : ',' ∉ written.text := by
  have blank : ¬ Text.isBlank ',' := by decide
  have letter : ¬ RuleLetter ',' := by unfold RuleLetter; decide
  simp only [text, List.mem_append, not_or]
  exact ⟨⟨fun mem => blank (written.blank_before _ mem),
    fun mem => letter (written.ruleLetter_core _ mem)⟩,
    fun mem => blank (written.blank_after _ mem)⟩

end WrittenItem

theorem partItems_written (written : List WrittenItem) :
    PartItems (written.map WrittenItem.text)
      ((written.filterMap WrittenItem.key?).map RuleKey.text) := by
  induction written with
  | nil => exact .nil
  | cons first rest ih =>
    have trims := first.trims_text
    unfold WrittenItem.core at trims
    rw [List.map_cons]
    cases kind : first.key? with
    | none =>
      rw [kind] at trims
      rw [List.filterMap_cons_none kind]
      exact .empty trims ih
    | some key =>
      rw [kind] at trims
      rw [List.filterMap_cons_some kind, List.map_cons]
      refine .item trims (fun empty => ?_) ih
      have colon : ':' ∈ key.text.toList := by
        rw [key.toList_text]
        exact List.mem_append_right _ List.mem_cons_self
      rw [empty] at colon
      exact List.not_mem_nil colon

def writtenList (written : List WrittenItem) : String :=
  String.ofList (Text.unsplit ',' (written.map WrittenItem.text))

theorem listsItems_written (written : List WrittenItem) :
    ListsItems (writtenList written)
      ((written.filterMap WrittenItem.key?).map RuleKey.text) := by
  unfold ListsItems writtenList
  rw [String.toList_ofList]
  cases written with
  | nil =>
    -- The text without a letter has one part, and nothing in it.
    exact ⟨[[]], nofun, by simp, rfl, .empty (Text.trims_trim []) .nil⟩
  | cons first rest =>
    refine ⟨(first :: rest).map WrittenItem.text, nofun, ?_, rfl, partItems_written _⟩
    exact List.forall_mem_map.mpr fun item _ => item.notMem_comma_text

/-- **Lists of rules as text.**  A list reads as the rules of all its items or as the fault of the
first item that is no rule, and as nothing else.  What is written for keys, with blanks around them
and empty items between them, reads as those keys, unless a port is zero. -/
theorem rulesSetting_grammar :
    (∀ (text : String) (result : Except SettingsFault (List RuleKey)),
      rulesSetting text = result ↔ ∃ items, ListsItems text items ∧ ReadsItems items result) ∧
    ∀ written : List WrittenItem,
      (∀ key ∈ written.filterMap WrittenItem.key?, key.port ≠ 0) →
      rulesSetting (writtenList written) = .ok (written.filterMap WrittenItem.key?) := by
  refine ⟨fun _ _ => rulesSetting_eq_iff, fun written nonzero => ?_⟩
  refine rulesSetting_eq_iff.mpr ⟨_, listsItems_written written, .rules ?_⟩
  rw [List.forall₂_map_left_iff, List.forall₂_same]
  exact fun key mem => RuleKey.ofText_text (nonzero key mem)

theorem rulesSetting_grammar_repeated :
    rulesSetting " 10.0.0.5:9000\t, ,10.0.0.5:9000," =
      .ok [⟨⟨0x0A000005⟩, 9000⟩, ⟨⟨0x0A000005⟩, 9000⟩] := by
  let written : List WrittenItem :=
    [⟨[' '], some ⟨⟨0x0A000005⟩, 9000⟩, ['\t'], List.forall_mem_singleton.mpr rfl,
        List.forall_mem_singleton.mpr rfl⟩,
      ⟨[' '], none, [], List.forall_mem_singleton.mpr rfl, nofun⟩,
      ⟨[], some ⟨⟨0x0A000005⟩, 9000⟩, [], nofun, nofun⟩,
      ⟨[], none, [], nofun, nofun⟩]
  have text : writtenList written = " 10.0.0.5:9000\t, ,10.0.0.5:9000," := by decide +kernel
  rw [← text]
  exact rulesSetting_grammar.2 written (by decide)

-- The first fault counts, whatever comes behind it.
example : rulesSetting "10.0.0.5:9000, ,10.0.0.5:0,bogus" =
    .error (.rule (.zeroPort "10.0.0.5:0")) := by rfl

end UdpGate
