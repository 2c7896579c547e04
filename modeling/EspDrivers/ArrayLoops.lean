import Mathlib

/-! Loops over an array, one entry after the other: `P` holds of the entries below `lo`,
which the loop has passed, and `Q` of those from `hi` on, which it has not reached. Entries
in between are in work. -/
namespace EspDrivers.ArrayLoops

variable {α : Type*}

structure Sweep (n lo hi : Nat) (P Q : Nat → α → Prop) (f : Nat → α) : Prop where
  passed (j : Nat) (hn : j < n) (hj : j < lo) : P j (f j)
  ahead (j : Nat) (hn : j < n) (hj : hi ≤ j) : Q j (f j)

variable {n lo hi i : Nat} {P Q : Nat → α → Prop} {f : Nat → α} {x : α}

theorem Sweep.start (h : ∀ j < n, Q j (f j)) : Sweep n 0 0 P Q f :=
  ⟨fun j _ hj => absurd hj (Nat.not_lt_zero j), fun j hn _ => h j hn⟩

theorem Sweep.stop (h : Sweep n lo hi P Q f) (hlo : n ≤ lo) : ∀ j < n, P j (f j) :=
  fun j hn => h.passed j hn (Nat.lt_of_lt_of_le hn hlo)

theorem Sweep.enter (h : Sweep n i i P Q f) (x : α) :
    Sweep n i (i + 1) P Q (Function.update f i x) := by
  constructor
  · intro j hn hj
    have hne : j ≠ i := Nat.ne_of_lt hj
    rw [Function.update_of_ne hne]
    exact h.passed j hn hj
  · intro j hn hj
    have hne : j ≠ i := Nat.ne_of_gt hj
    rw [Function.update_of_ne hne]
    exact h.ahead j hn (Nat.le_of_succ_le hj)

theorem Sweep.leave (h : Sweep n i (i + 1) P Q f) (hi : i < n → P i (f i)) :
    Sweep n (i + 1) (i + 1) P Q f := by
  constructor
  · intro j hn hj
    cases Nat.lt_or_eq_of_le (Nat.le_of_lt_succ hj) with
    | inl hlt => exact h.passed j hn hlt
    | inr heq =>
      subst heq
      exact hi hn
  · exact h.ahead

theorem Sweep.skip (h : Sweep n i i P Q f) (hi : i < n → P i (f i)) :
    Sweep n (i + 1) (i + 1) P Q f := by
  have henter := h.enter (f i)
  rw [Function.update_eq_self] at henter
  exact henter.leave hi

theorem Sweep.advance (h : Sweep n i i P Q f) (hx : P i x) :
    Sweep n (i + 1) (i + 1) P Q (Function.update f i x) := by
  apply (h.enter x).leave
  intro _
  rw [Function.update_self]
  exact hx

/-- An entry changes by itself, in a way that keeps both properties. -/
theorem Sweep.change (h : Sweep n lo hi P Q f) (hP : P i (f i) → P i x)
    (hQ : Q i (f i) → Q i x) : Sweep n lo hi P Q (Function.update f i x) := by
  constructor
  · intro j hn hj
    by_cases hji : j = i
    · subst hji
      rw [Function.update_self]
      exact hP (h.passed j hn hj)
    · rw [Function.update_of_ne hji]
      exact h.passed j hn hj
  · intro j hn hj
    by_cases hji : j = i
    · subst hji
      rw [Function.update_self]
      exact hQ (h.ahead j hn hj)
    · rw [Function.update_of_ne hji]
      exact h.ahead j hn hj

theorem all_change (h : ∀ j < n, P j (f j)) (hP : P i (f i) → P i x) :
    ∀ j < n, P j (Function.update f i x j) := by
  intro j hn
  by_cases hji : j = i
  · subst hji
    rw [Function.update_self]
    exact hP (h j hn)
  · rw [Function.update_of_ne hji]
    exact h j hn

end EspDrivers.ArrayLoops
