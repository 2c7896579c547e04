import Mathlib

/-! Counting what lies below a value. In a sorted list the count of the smaller entries says
where a bound falls; a table of counts, summed up and scaled, sends the values that were
counted to a range of its own in their order. Values and tables are arbitrary. -/
namespace EspDrivers.Ranks

section Sorted
variable {α : Type*} [LinearOrder α]

/-- The entry at `k` is below a bound when more than `k` entries are. -/
theorem lt_iff_lt_countP {l : List α} (h : l.Pairwise (· ≤ ·)) {k : Nat} {x : α}
    (hx : l[k]? = some x) (t : α) : x < t ↔ k < l.countP (· < t) := by
  induction l generalizing k with
  | nil => cases hx
  | cons a l ih =>
    obtain ⟨hfirst, hrest⟩ := List.pairwise_cons.mp h
    by_cases ha : a < t
    · rw [List.countP_cons_of_pos (by simpa using ha)]
      cases k with
      | zero =>
        obtain rfl := Option.some.inj hx
        simp [ha]
      | succ k =>
        rw [ih hrest hx]
        exact Nat.succ_lt_succ_iff.symm
    · have hnone : (a :: l).countP (· < t) = 0 := by
        rw [List.countP_eq_zero]
        intro y hy
        cases List.mem_cons.mp hy with
        | inl he => simpa [he] using ha
        | inr hmem => simpa using (not_lt.mp ha).trans (hfirst y hmem)
      have hle : a ≤ x := by
        cases List.mem_cons.mp (List.mem_of_getElem? hx) with
        | inl he => exact he.ge
        | inr hmem => exact hfirst x hmem
      rw [hnone]
      exact iff_of_false (fun hlt => ha (hle.trans_lt hlt)) (Nat.not_lt_zero k)

end Sorted

section Tables

def tally (x : Nat → Nat) (n k : Nat) : Nat := (List.range n).countP (fun i => x i = k)

variable {x : Nat → Nat} {n m k b c : Nat}

theorem tally_succ (x : Nat → Nat) (n k : Nat) :
    tally x (n + 1) k = tally x n k + if x n = k then 1 else 0 := by
  rw [tally, List.range_succ, List.countP_append, List.countP_singleton]
  simp [tally]

theorem tally_le (x : Nat → Nat) (n k : Nat) : tally x n k ≤ n := by
  have h := @List.countP_le_length _ (fun i => decide (x i = k)) (List.range n)
  rwa [List.length_range] at h

theorem sum_tally (h : ∀ i < n, x i < b) : ∑ k ∈ Finset.range b, tally x n k = n := by
  induction n with
  | zero => simp [tally]
  | succ n ih =>
    simp only [tally_succ, Finset.sum_add_distrib]
    rw [ih fun i hi => h i (Nat.lt_succ_of_lt hi), Finset.sum_ite_eq,
      if_pos (Finset.mem_range.mpr (h n (Nat.lt_succ_self n)))]

/-- The sum of the table up to an entry. -/
def running (bins : Nat → Nat) (k : Nat) : Nat := ∑ j ∈ Finset.range (k + 1), bins j

variable {bins : Nat → Nat}

theorem running_succ (bins : Nat → Nat) (k : Nat) :
    running bins (k + 1) = running bins k + bins (k + 1) := Finset.sum_range_succ ..

theorem running_mono (bins : Nat → Nat) : Monotone (running bins) := by
  apply monotone_nat_of_le_succ
  intro k
  rw [running_succ]
  exact Nat.le_add_right _ _

theorem running_le_sum (h : k < b) : running bins k ≤ ∑ j ∈ Finset.range b, bins j :=
  Finset.sum_le_sum_of_subset (Finset.range_mono h)

theorem running_tally (h : ∀ i < n, x i ≤ k) : running (tally x n) k = n :=
  sum_tally fun i hi => Nat.lt_succ_of_le (h i hi)

theorem least_lt_sum (hb : 2 ≤ b) (hm : ∀ j < b, m ≤ bins j)
    (hpos : 0 < ∑ j ∈ Finset.range b, bins j) : m < ∑ j ∈ Finset.range b, bins j := by
  have hsum := Finset.sum_le_sum_of_subset (f := bins) (Finset.range_mono hb)
  have htwo : ∑ j ∈ Finset.range 2, bins j = bins 0 + bins 1 := by
    rw [Finset.sum_range_succ, Finset.sum_range_one]
  have hzero := hm 0 (by omega)
  have hone := hm 1 (by omega)
  omega

/-- The count `c` of `n`, less the least entry `m`, scaled to `M`. -/
def equalise (n m M c : Nat) : Nat := (c - m) * M / (n - m)

variable {M : Nat}

theorem equalise_mono (n m M : Nat) : Monotone (equalise n m M) := by
  intro c d h
  exact Nat.div_le_div_right (Nat.mul_le_mul_right M (Nat.sub_le_sub_right h m))

theorem equalise_top (h : m < n) (M : Nat) : equalise n m M n = M :=
  Nat.mul_div_cancel_left M (Nat.sub_pos_of_lt h)

theorem equalise_le (h : m < n) (hc : c ≤ n) : equalise n m M c ≤ M :=
  (equalise_mono n m M hc).trans_eq (equalise_top h M)

end Tables

end EspDrivers.Ranks
