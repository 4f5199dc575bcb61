/-!
# One inside the lock

A lock remembers who holds it, and those who are inside are the holder and nobody else.  Entering and
leaving keep this, and so does everything that leaves everybody on his side.
-/

namespace UdpGate

/-- Those inside are the one that holds the lock. -/
def LockedBy (holder : Option Nat) (inside : Nat → Bool) : Prop := ∀ t, holder = some t ↔ inside t

namespace LockedBy

variable {holder : Option Nat} {inside now : Nat → Bool} {t u : Nat}

theorem holder_eq (h : LockedBy holder inside) (here : inside t = true) : holder = some t :=
  (h t).mpr here

theorem eq_of_inside (h : LockedBy holder inside) (first : inside t = true)
    (second : inside u = true) : u = t := by
  have same := h.holder_eq first
  rw [h.holder_eq second] at same
  exact Option.some.inj same

theorem outside_of_free (h : LockedBy none inside) (t : Nat) : inside t = false := by
  have free := h t
  simpa using free

theorem outside_of_ne (h : LockedBy (some t) inside) (other : u ≠ t) : inside u = false := by
  have held := h u
  simpa [Ne.symm other] using held

theorem free_of_outside (h : LockedBy holder inside) (outside : ∀ t, inside t = false) :
    holder = none := by
  cases holder with
  | none => rfl
  | some t =>
    have here := (h t).mp rfl
    rw [outside t] at here
    cases here

theorem stay (h : LockedBy holder inside) (same : ∀ u, now u = inside u) : LockedBy holder now := by
  intro u
  rw [same]
  exact h u

theorem enter (h : LockedBy none inside) (entered : ∀ u, now u = if u = t then true else inside u) :
    LockedBy (some t) now := by
  intro u
  rw [entered]
  by_cases here : u = t
  · simp [here]
  · simp [here, Ne.symm here, h.outside_of_free u]

theorem leave (h : LockedBy (some t) inside)
    (left : ∀ u, now u = if u = t then false else inside u) : LockedBy none now := by
  intro u
  rw [left]
  by_cases here : u = t
  · simp [here]
  · simp [here, h.outside_of_ne here]

end LockedBy
end UdpGate
