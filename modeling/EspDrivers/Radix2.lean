import Mathlib

/-! The discrete Fourier transform of 2 ^ l values by decimation in time: subsequences at
bit-reversed places are transformed in blocks, and a stage combines two blocks into one. -/
namespace EspDrivers.Radix2

section Reversal
variable {l n q k : Nat}

/-- The lower `l` bits in the opposite order. -/
def rev (l n : Nat) : Nat := (BitVec.ofNat l n).reverse.toNat

theorem testBit_rev : (rev l n).testBit k = (decide (k < l) && n.testBit (l - 1 - k)) := by
  rw [rev, BitVec.testBit_toNat, BitVec.getLsbD_reverse, BitVec.getMsbD, BitVec.getLsbD_ofNat]
  by_cases hk : k < l
  · have hlt : l - 1 - k < l := by omega
    simp [hk, hlt]
  · simp [hk]

theorem rev_lt : rev l n < 2 ^ l := (BitVec.ofNat l n).reverse.isLt

theorem rev_rev (h : n < 2 ^ l) : rev l (rev l n) = n := by
  apply Nat.eq_of_testBit_eq
  intro k
  rw [testBit_rev, testBit_rev]
  by_cases hk : k < l
  · have hlt : l - 1 - k < l := by omega
    have hback : l - 1 - (l - 1 - k) = k := by omega
    simp [hk, hlt, hback]
  · have hzero : n.testBit k = false :=
      Nat.testBit_lt_two_pow (Nat.lt_of_lt_of_le h (Nat.pow_le_pow_right Nat.two_pos (by omega)))
    simp [hk, hzero]

@[simp] theorem rev_zero : rev l 0 = 0 := by
  apply Nat.eq_of_testBit_eq
  intro k
  simp [testBit_rev]

theorem rev_two_mul : rev (l + 1) (2 * q) = rev l q := by
  apply Nat.eq_of_testBit_eq
  intro k
  rw [testBit_rev, testBit_rev]
  by_cases hk : k < l
  · have hsub : l + 1 - 1 - k = l - 1 - k + 1 := by omega
    have hhalf : 2 * q / 2 = q := by omega
    have hk' : k < l + 1 := by omega
    rw [hsub, Nat.testBit_succ, hhalf]
    simp [hk, hk']
  · by_cases hl : k = l
    · simp [hl]
    · have hk' : ¬ k < l + 1 := by omega
      simp [hk, hk']

theorem rev_two_mul_add_one : rev (l + 1) (2 * q + 1) = rev l q + 2 ^ l := by
  have hadd : rev l q + 2 ^ l = 2 ^ l * 1 + rev l q := by omega
  apply Nat.eq_of_testBit_eq
  intro k
  rw [hadd, Nat.testBit_two_pow_mul_add 1 rev_lt, testBit_rev, testBit_rev]
  by_cases hk : k < l
  · have hsub : l + 1 - 1 - k = l - 1 - k + 1 := by omega
    have hhalf : (2 * q + 1) / 2 = q := by omega
    have hk' : k < l + 1 := by omega
    rw [hsub, Nat.testBit_succ, hhalf]
    simp [hk, hk']
  · by_cases hl : k = l
    · simp [hl]
    · have hk' : ¬ k < l + 1 := by omega
      have hone : k - l = k - l - 1 + 1 := by omega
      rw [hone, Nat.testBit_succ]
      simp [hk, hk']

end Reversal

section Transform
variable {R : Type*} [CommRing R] {n k : Nat} {w : R} {x : Nat → R}

def dft (n : Nat) (w : R) (x : Nat → R) (k : Nat) : R := ∑ j ∈ Finset.range n, x j * w ^ (j * k)

theorem sum_even_odd (f : Nat → R) (n : Nat) : ∑ j ∈ Finset.range (2 * n), f j =
    ∑ j ∈ Finset.range n, f (2 * j) + ∑ j ∈ Finset.range n, f (2 * j + 1) := by
  induction n with
  | zero => simp
  | succ n ih =>
    rw [Nat.mul_succ, Finset.sum_range_succ, Finset.sum_range_succ, ih, Finset.sum_range_succ,
      Finset.sum_range_succ]
    ring

theorem dft_split (n : Nat) (w : R) (x : Nat → R) (k : Nat) :
    dft (2 * n) w x k = dft n (w ^ 2) (fun j => x (2 * j)) k +
      w ^ k * dft n (w ^ 2) (fun j => x (2 * j + 1)) k := by
  rw [dft, sum_even_odd, dft, dft, Finset.mul_sum]
  congr 1
  · refine Finset.sum_congr rfl fun j _ => ?_
    rw [← pow_mul, Nat.mul_assoc]
  · refine Finset.sum_congr rfl fun j _ => ?_
    rw [← pow_mul, Nat.add_mul, pow_add, Nat.one_mul, Nat.mul_assoc]
    ring

theorem dft_add_length (h : w ^ n = 1) : dft n w x (k + n) = dft n w x k := by
  refine Finset.sum_congr rfl fun j _ => ?_
  have hperiod : w ^ (j * n) = 1 := by rw [Nat.mul_comm, pow_mul, h, one_pow]
  rw [Nat.mul_add, pow_add, hperiod, mul_one]

theorem dft_high (h : w ^ n = -1) : dft (2 * n) w x (k + n) =
    dft n (w ^ 2) (fun j => x (2 * j)) k - w ^ k * dft n (w ^ 2) (fun j => x (2 * j + 1)) k := by
  have hone : (w ^ 2) ^ n = 1 := by
    rw [← pow_mul, Nat.mul_comm, pow_mul, h]
    ring
  rw [dft_split, dft_add_length hone, dft_add_length hone, pow_add, h]
  ring

end Transform

section Stages
variable {α : Type*} {l m q c : Nat}

def slice (l m q : Nat) (x : Nat → α) (j : Nat) : α := x (rev (l - m) q + 2 ^ (l - m) * j)

theorem slice_even (hm : m < l) (q : Nat) (x : Nat → α) :
    (fun j => slice l (m + 1) q x (2 * j)) = slice l m (2 * q) x := by
  obtain ⟨d, rfl⟩ := Nat.exists_eq_add_of_lt hm
  funext j
  have hd : m + d + 1 - (m + 1) = d := by omega
  have hd' : m + d + 1 - m = d + 1 := by omega
  rw [slice, slice, hd, hd', rev_two_mul, Nat.pow_succ, Nat.mul_assoc]

theorem slice_odd (hm : m < l) (q : Nat) (x : Nat → α) :
    (fun j => slice l (m + 1) q x (2 * j + 1)) = slice l m (2 * q + 1) x := by
  obtain ⟨d, rfl⟩ := Nat.exists_eq_add_of_lt hm
  funext j
  have hd : m + d + 1 - (m + 1) = d := by omega
  have hd' : m + d + 1 - m = d + 1 := by omega
  have hplace : rev d q + 2 ^ d * (2 * j + 1) = rev d q + 2 ^ d + 2 ^ (d + 1) * j := by
    rw [Nat.pow_succ]
    ring
  rw [slice, slice, hd, hd', rev_two_mul_add_one, hplace]

variable {R : Type*} [CommRing R] {w : Nat → R} {x z : Nat → R}

/-- For each stage a root of unity, the square root of the one before. -/
structure Roots (w : Nat → R) : Prop where
  square (m : Nat) : w (m + 1) ^ 2 = w m
  half (m : Nat) : w (m + 1) ^ 2 ^ m = -1

/-- Place `c` after `m` stages. -/
def block (w : Nat → R) (l m : Nat) (x : Nat → R) (c : Nat) : R :=
  dft (2 ^ m) (w m) (slice l m (c / 2 ^ m) x) (c % 2 ^ m)

/-- One stage: the places `c` and `c + 2 ^ m` of two blocks beside each other. -/
def combine (m : Nat) (w : R) (z : Nat → R) (c : Nat) : R :=
  if c / 2 ^ m % 2 = 0 then z c + w ^ (c % 2 ^ m) * z (c + 2 ^ m)
  else z (c - 2 ^ m) - w ^ (c % 2 ^ m) * z c

theorem place_div_mod (hc : c < 2 ^ m) :
    (q * 2 ^ m + c) / 2 ^ m = q ∧ (q * 2 ^ m + c) % 2 ^ m = c := by
  rw [Nat.mul_comm, Nat.mul_add_div (Nat.two_pow_pos m), Nat.mul_add_mod, Nat.div_eq_of_lt hc,
    Nat.mod_eq_of_lt hc]
  exact ⟨Nat.add_zero q, rfl⟩

theorem block_place (hc : c < 2 ^ m) :
    block w l m x (q * 2 ^ m + c) = dft (2 ^ m) (w m) (slice l m q x) c := by
  obtain ⟨hdiv, hmod⟩ := @place_div_mod m q c hc
  rw [block, hdiv, hmod]

theorem combine_block (hw : Roots w) (hm : m < l) (h : ∀ c < 2 ^ l, z c = block w l m x c)
    (hc : c < 2 ^ l) : combine m (w (m + 1)) z c = block w l (m + 1) x c := by
  obtain ⟨d, rfl⟩ := Nat.exists_eq_add_of_lt hm
  have hpos := Nat.two_pow_pos m
  have hk := Nat.mod_lt c hpos
  have hsplit : c = c / 2 ^ m * 2 ^ m + c % 2 ^ m := (Nat.div_add_mod' c _).symm
  have hq : c / 2 ^ m < 2 * 2 ^ d := by
    refine (Nat.div_lt_iff_lt_mul hpos).mpr (Nat.lt_of_lt_of_eq hc ?_)
    rw [Nat.pow_succ, Nat.pow_add]
    ring
  generalize c / 2 ^ m = q at hsplit hq
  generalize c % 2 ^ m = k at hsplit hk
  have hall : ∀ q < 2 * 2 ^ d, z (q * 2 ^ m + k) =
      dft (2 ^ m) (w m) (slice (m + d + 1) m q x) k := by
    intro q hq
    rw [h _ ?_, block_place hk]
    have hle : (q + 1) * 2 ^ m ≤ 2 * 2 ^ d * 2 ^ m := Nat.mul_le_mul_right _ hq
    rw [Nat.succ_mul] at hle
    rw [Nat.pow_succ, Nat.pow_add, Nat.mul_comm _ 2, Nat.mul_comm (2 ^ m), ← Nat.mul_assoc]
    omega
  obtain ⟨hdiv, hmod⟩ := @place_div_mod m q k hk
  subst hsplit
  rw [combine, hdiv, hmod]
  by_cases heven : q % 2 = 0
  · obtain ⟨p, rfl⟩ : ∃ p, q = 2 * p := ⟨q / 2, by omega⟩
    have hplace : 2 * p * 2 ^ m + k = p * 2 ^ (m + 1) + k := by
      rw [Nat.pow_succ]
      ring
    have hnext : 2 * p * 2 ^ m + k + 2 ^ m = (2 * p + 1) * 2 ^ m + k := by ring
    rw [if_pos heven, hnext, hall _ hq, hall _ (by omega), hplace, block_place (by omega),
      Nat.pow_succ', dft_split, hw.square, slice_even hm, slice_odd hm]
  · obtain ⟨p, rfl⟩ : ∃ p, q = 2 * p + 1 := ⟨q / 2, by omega⟩
    have hplace : (2 * p + 1) * 2 ^ m + k = p * 2 ^ (m + 1) + (k + 2 ^ m) := by
      rw [Nat.pow_succ]
      ring
    have hback : (2 * p + 1) * 2 ^ m + k - 2 ^ m = 2 * p * 2 ^ m + k := by
      rw [Nat.succ_mul]
      omega
    rw [if_neg heven, hback, hall _ hq, hall _ (by omega), hplace, block_place (by omega),
      Nat.pow_succ', dft_high (hw.half m), hw.square, slice_even hm, slice_odd hm]

theorem block_zero (c : Nat) : block w l 0 x c = x (rev l c) := by
  simp [block, dft, slice]

theorem block_last (hc : c < 2 ^ l) : block w l l x c = dft (2 ^ l) (w l) x c := by
  have hslice : slice l l 0 x = x := by
    funext j
    simp [slice]
  rw [block, Nat.div_eq_of_lt hc, Nat.mod_eq_of_lt hc, hslice]

end Stages

end EspDrivers.Radix2
