/-!
# Splitting at a separator

A text with `n` separators has `n + 1` parts, empty ones among them; putting the separators back
between the parts gives the text.  A cut divides a text once, at the first separator.
-/

namespace UdpGate.Text

/-- The parts of a text between the places where `separator` stands. -/
def split (separator : Char) : List Char → List (List Char)
  | [] => [[]]
  | c :: rest =>
    if c = separator then [] :: split separator rest
    else
      match split separator rest with
      | [] => [[c]]
      | part :: parts => (c :: part) :: parts

def unsplit (separator : Char) : List (List Char) → List Char
  | [] => []
  | [part] => part
  | part :: parts => part ++ separator :: unsplit separator parts

theorem split_ne_nil (separator : Char) (text : List Char) : split separator text ≠ [] := by
  cases text with
  | nil => simp [split]
  | cons c rest =>
    rw [split]
    split
    · simp
    · split <;> simp

theorem unsplit_split (separator : Char) (text : List Char) :
    unsplit separator (split separator text) = text := by
  induction text with
  | nil => rfl
  | cons c rest ih =>
    obtain ⟨part, parts, cut⟩ := List.exists_cons_of_ne_nil (split_ne_nil separator rest)
    rw [cut] at ih
    rw [split, cut]
    by_cases h : c = separator
    · rw [if_pos h, unsplit, ih, h]
      · rfl
      · simp
    · rw [if_neg h]
      cases parts with
      | nil => simpa [unsplit] using ih
      | cons next parts =>
        rw [unsplit] at ih ⊢
        · simp [← ih]
        · simp
        · simp

theorem split_of_notMem {separator : Char} {part : List Char} (h : separator ∉ part) :
    split separator part = [part] := by
  induction part with
  | nil => rfl
  | cons c rest ih =>
    rw [List.mem_cons, not_or] at h
    rw [split, if_neg (Ne.symm h.1), ih h.2]

theorem split_append {separator : Char} {part : List Char} (h : separator ∉ part)
    (rest : List Char) :
    split separator (part ++ separator :: rest) = part :: split separator rest := by
  induction part with
  | nil => rw [List.nil_append, split, if_pos rfl]
  | cons c front ih =>
    rw [List.mem_cons, not_or] at h
    rw [List.cons_append, split, if_neg (Ne.symm h.1), ih h.2]

theorem notMem_of_mem_split {separator : Char} {text part : List Char}
    (h : part ∈ split separator text) : separator ∉ part := by
  induction text generalizing part with
  | nil => simp_all [split]
  | cons c rest ih =>
    obtain ⟨first, others, cut⟩ := List.exists_cons_of_ne_nil (split_ne_nil separator rest)
    rw [cut] at ih
    rw [split, cut] at h
    split at h
    · rcases List.mem_cons.mp h with rfl | later
      · exact List.not_mem_nil
      · exact ih later
    · rename_i other
      rcases List.mem_cons.mp h with rfl | later
      · rw [List.mem_cons, not_or]
        exact ⟨Ne.symm other, ih List.mem_cons_self⟩
      · exact ih (List.mem_cons_of_mem first later)

theorem split_unsplit {separator : Char} {parts : List (List Char)} (some_part : parts ≠ [])
    (h : ∀ part ∈ parts, separator ∉ part) : split separator (unsplit separator parts) = parts := by
  induction parts with
  | nil => exact absurd rfl some_part
  | cons part rest ih =>
    have here := h part List.mem_cons_self
    cases rest with
    | nil => exact split_of_notMem here
    | cons next others =>
      show split separator (part ++ separator :: unsplit separator (next :: others)) = _
      rw [split_append here, ih nofun fun p later => h p (List.mem_cons_of_mem part later)]

/-- The text in front of the first separator and, if there is one, the text behind it. -/
def cut (separator : Char) : List Char → List Char × Option (List Char)
  | [] => ([], none)
  | c :: rest =>
    if c = separator then ([], some rest)
    else (c :: (cut separator rest).1, (cut separator rest).2)

theorem cut_of_notMem {separator : Char} {text : List Char} (h : separator ∉ text) :
    cut separator text = (text, none) := by
  induction text with
  | nil => rfl
  | cons c rest ih =>
    rw [List.mem_cons, not_or] at h
    rw [cut, if_neg (Ne.symm h.1), ih h.2]

theorem cut_append {separator : Char} {front : List Char} (h : separator ∉ front)
    (back : List Char) : cut separator (front ++ separator :: back) = (front, some back) := by
  induction front with
  | nil => simp [cut]
  | cons c rest ih =>
    rw [List.mem_cons, not_or] at h
    rw [List.cons_append, cut, if_neg (Ne.symm h.1), ih h.2]

end UdpGate.Text
