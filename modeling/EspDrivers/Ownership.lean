import EspDrivers.Trace

/-! Logs of what a program does with its resources. A log is in order when nothing is
acquired twice, and what is released or touched is held. -/
namespace EspDrivers.Ownership
open Trace

inductive Action (ρ : Type) where
  | acquire (r : ρ)
  | release (r : ρ)
  | touch (r : ρ)
  deriving DecidableEq, Repr

variable {ρ : Type} [DecidableEq ρ]

def own (held : Finset ρ) : Action ρ → Option (Finset ρ)
  | .acquire r => if r ∈ held then none else some (insert r held)
  | .release r => if r ∈ held then some (held.erase r) else none
  | .touch r => if r ∈ held then some held else none

variable {held left : Finset ρ} {log : List (Action ρ)} {r : ρ}

theorem own_count (h : run own held log = some left) :
    log.count (.acquire r) + (if r ∈ held then 1 else 0) =
      log.count (.release r) + if r ∈ left then 1 else 0 := by
  induction log generalizing held with
  | nil =>
    cases h
    simp
  | cons e log ih =>
    obtain ⟨mid, hstep, hrest⟩ := run_cons.mp h
    have hmid := ih hrest
    cases e with
    | acquire q =>
      simp only [own] at hstep
      split at hstep
      · cases hstep
      · next hq =>
        cases hstep
        by_cases hr : q = r
        · subst hr
          simp [hq] at hmid ⊢
          omega
        · have hne : r ≠ q := Ne.symm hr
          simpa [hr, hne] using hmid
    | release q =>
      simp only [own] at hstep
      split at hstep
      · next hq =>
        cases hstep
        by_cases hr : q = r
        · subst hr
          simp [hq] at hmid ⊢
          omega
        · have hne : r ≠ q := Ne.symm hr
          simpa [hr, hne] using hmid
      · cases hstep
    | touch q =>
      simp only [own] at hstep
      split at hstep
      · cases hstep
        simpa using hmid
      · cases hstep

theorem released_too_often (hr : log.count (.acquire r) < log.count (.release r)) :
    run own ∅ log = none := by
  cases h : run own ∅ log with
  | none => rfl
  | some left =>
    have hcount := own_count (r := r) h
    simp at hcount
    omega

theorem run_touches {rs : List ρ} (h : ∀ r ∈ rs, r ∈ held) :
    run own held (rs.map .touch) = some held := by
  induction rs with
  | nil => rfl
  | cons r rs ih =>
    have hr : own held (.touch r) = some held := if_pos (h r (List.mem_cons_self ..))
    exact run_cons.mpr ⟨held, hr, ih fun q hq => h q (List.mem_cons_of_mem _ hq)⟩

end EspDrivers.Ownership
