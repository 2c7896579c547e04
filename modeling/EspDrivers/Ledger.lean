import Mathlib

/-! A total that is kept up to date while items come and go: each item is charged when
it comes and credited when it goes, in any commutative group. The total is then the
sum of the charges of the items that are there. -/
namespace EspDrivers.Ledger

variable {G H ι : Type*} [AddCommGroup G] [AddCommGroup H]

def Balanced (charge : ι → G) (total : G) (items : List ι) : Prop :=
  total = (items.map charge).sum

variable {charge : ι → G} {total : G} {items : List ι} {i : ι}

theorem Balanced.nil : Balanced charge 0 [] := by
  simp [Balanced]

theorem Balanced.empty (h : Balanced charge total []) : total = 0 := by
  simpa [Balanced] using h

theorem Balanced.cons (h : Balanced charge total items) :
    Balanced charge (total + charge i) (i :: items) := by
  rw [Balanced, List.map_cons, List.sum_cons, h, add_comm]

theorem Balanced.erase [DecidableEq ι] (h : Balanced charge total items) (hi : i ∈ items) :
    Balanced charge (total - charge i) (items.erase i) := by
  rw [Balanced, h, ← List.sum_map_erase charge hi]
  exact add_sub_cancel_left _ _

/-- A part of the total is the sum of that part of the charges. -/
theorem Balanced.map (φ : G →+ H) (h : Balanced charge total items) :
    φ total = (items.map fun i => φ (charge i)).sum := by
  rw [h, map_list_sum, List.map_map]
  rfl

theorem sum_indicator {R : Type*} [AddCommMonoidWithOne R] (p : ι → Bool) (items : List ι) :
    (items.map fun i => if p i then (1 : R) else 0).sum = (items.countP p : R) := by
  induction items with
  | nil => simp
  | cons i items ih =>
    rw [List.map_cons, List.sum_cons, ih, List.countP_cons]
    cases hp : p i with
    | false => simp
    | true => simp [add_comm]

end EspDrivers.Ledger
