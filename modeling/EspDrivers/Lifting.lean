import Mathlib

/-! Lifting: the cells of a set take on a value computed from the other cells. A lifting step
is undone by the step with the opposite sign, whatever is computed. -/
namespace EspDrivers.Lifting

variable {ι G : Type*}

def lift (op : G → G → G) (S : ι → Prop) [DecidablePred S] (p : (ι → G) → ι → G) (x : ι → G) :
    ι → G :=
  fun k => if S k then op (x k) (p x k) else x k

/-- What is computed for a cell of `S` near `A` depends on the cells of `A` outside of `S`. -/
def FromOutside (A S : ι → Prop) (p : (ι → G) → ι → G) : Prop :=
  ∀ x y, (∀ k, A k → ¬ S k → x k = y k) → ∀ k, A k → S k → p x k = p y k

variable {A S T : ι → Prop} [DecidablePred S] [DecidablePred T] {p q : (ι → G) → ι → G}
  {op : G → G → G} {x y : ι → G}

theorem lift_of_not {k : ι} (hk : ¬ S k) : lift op S p x k = x k := if_neg hk

theorem lift_congr (h : FromOutside A S p) (hxy : ∀ k, A k → x k = y k) {k : ι} (hk : A k) :
    lift op S p x k = lift op S p y k := by
  rw [lift, lift]
  by_cases hS : S k
  · rw [if_pos hS, if_pos hS, hxy k hk, h x y (fun j hj _ => hxy j hj) k hk hS]
  · rw [if_neg hS, if_neg hS, hxy k hk]

variable [AddGroup G]

theorem sub_add (h : FromOutside A S p) {k : ι} (hk : A k) :
    lift (· - ·) S p (lift (· + ·) S p x) k = x k := by
  have hp : S k → p (lift (· + ·) S p x) k = p x k :=
    h _ _ (fun j _ hj => lift_of_not hj) k hk
  by_cases hS : S k
  · simp only [lift, if_pos hS] at hp ⊢
    rw [hp hS, add_sub_cancel_right]
  · rw [lift_of_not hS, lift_of_not hS]

theorem add_sub (h : FromOutside A S p) {k : ι} (hk : A k) :
    lift (· + ·) S p (lift (· - ·) S p x) k = x k := by
  have hp : S k → p (lift (· - ·) S p x) k = p x k :=
    h _ _ (fun j _ hj => lift_of_not hj) k hk
  by_cases hS : S k
  · simp only [lift, if_pos hS] at hp ⊢
    rw [hp hS, sub_add_cancel]
  · rw [lift_of_not hS, lift_of_not hS]

/-- Two steps one after the other are undone in the opposite order. -/
theorem sub_add_sub_add (hp : FromOutside A S p) (hq : FromOutside A T q) {k : ι} (hk : A k) :
    lift (· + ·) S p (lift (· - ·) T q (lift (· + ·) T q (lift (· - ·) S p x))) k = x k := by
  rw [lift_congr hp (fun j hj => sub_add hq hj) hk, add_sub hp hk]

theorem add_sub_add_sub (hp : FromOutside A S p) (hq : FromOutside A T q) {k : ι} (hk : A k) :
    lift (· + ·) T q (lift (· - ·) S p (lift (· + ·) S p (lift (· - ·) T q x))) k = x k := by
  rw [lift_congr hq (fun j hj => sub_add hp hj) hk, add_sub hq hk]

end EspDrivers.Lifting
