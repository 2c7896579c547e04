import EspDrivers.RegisterWalks
import EspDrivers.ViterbiDepuncture

/-! How far apart the code words of two paths are once the code is punctured, and what a distance
means for the gains: a path that differs from the one that was sent earns less, but for two at
every symbol that is received wrong. -/
namespace EspDrivers.Viterbi
open Trellis RegisterWalks

section Weights
variable {pattern : List UInt8} {k n r : Nat}

def stepWeight (pattern : List UInt8) (n r : Nat) : Nat :=
  (if Keeps pattern (2 * n) then (label polys0 r).toNat else 0) +
    if Keeps pattern (2 * n + 1) then (label polys1 r).toNat else 0

def weights (pattern : List UInt8) : List (List Nat) :=
  (List.range (pattern.length / 2)).map fun n => (List.range 128).map (stepWeight pattern n)

theorem keeps_mod (hlength : pattern.length = 2 * k) (n i : Nat) :
    Keeps pattern (2 * (n % k) + i) ↔ Keeps pattern (2 * n + i) := by
  have hmod : (2 * (n % k) + i) % (2 * k) = (2 * n + i) % (2 * k) := by
    rw [← Nat.mul_mod_mul_left, Nat.mod_add_mod]
  rw [Keeps, Keeps, hlength, hmod]

theorem stepWeight_mod (hlength : pattern.length = 2 * k) (n r : Nat) :
    stepWeight pattern (n % k) r = stepWeight pattern n r := by
  have heven := keeps_mod hlength n 0
  have hodd := keeps_mod hlength n 1
  simp only [Nat.add_zero] at heven
  simp only [stepWeight, heven, hodd]

theorem length_weights (hlength : pattern.length = 2 * k) : (weights pattern).length = k := by
  simp only [weights, List.length_map, List.length_range]
  omega

theorem weights_complete (hpos : 0 < k) (hlength : pattern.length = 2 * k) :
    Complete 32 (weights pattern) := by
  refine ⟨by decide, by rwa [length_weights hlength], ?_⟩
  intro ws hws
  obtain ⟨n, -, rfl⟩ := List.mem_map.mp hws
  simp

theorem layer_weights (hpos : 0 < k) (hlength : pattern.length = 2 * k) (hr : r < 128) :
    (layer (weights pattern) n).getD r 0 = stepWeight pattern n r := by
  have hlt : n % k < pattern.length / 2 := by
    have hmod := Nat.mod_lt n hpos
    omega
  have hlayer : layer (weights pattern) n = (List.range 128).map (stepWeight pattern (n % k)) := by
    rw [layer, length_weights hlength, List.getD_eq_getElem?_getD, weights, List.getElem?_map,
      List.getElem?_range hlt]
    rfl
  rw [hlayer, List.getD_eq_getElem?_getD, List.getElem?_map, List.getElem?_range hr]
  exact stepWeight_mod hlength n r

end Weights

section Margins

/-- The faults that are allowed in the first `window + 1` steps, and in any `window + 1` steps. -/
structure Margin where
  window : Nat
  faults : Nat
  first : Nat

/-- Walks away from zero for a whole window, walks that begin at zero, and walks that begin
anywhere weigh too much for faults to make up for them. -/
def ample (pattern : List UInt8) (m : Margin) (depth : Nat) : Bool :=
  (List.range (pattern.length / 2)).all fun n =>
    (costs 32 (weights pattern) (4 * m.faults + 1) m.window n).all (4 * m.faults < ·) &&
    (List.range 64).all fun r => decide ((if r = 0 then 2 * m.faults else 2 * m.first) <
      stepWeight pattern n (2 * r + 1) +
        (costs 32 (weights pattern) 0 depth (n + 1)).getD ((2 * r + 1) % 64) 0)

structure Ample (pattern : List UInt8) (m : Margin) (depth : Nat) : Prop where
  window : ∀ n s, 0 < s → s < 64 →
    4 * m.faults < (costs 32 (weights pattern) (4 * m.faults + 1) m.window n).getD s 0
  free : ∀ n r, r < 64 → (if r = 0 then 2 * m.faults else 2 * m.first) <
    stepWeight pattern n (2 * r + 1) +
      (costs 32 (weights pattern) 0 depth (n + 1)).getD ((2 * r + 1) % 64) 0

/-- The tables repeat, so that one period of them has to be computed. -/
theorem ample_iff {pattern : List UInt8} {k depth : Nat} {m : Margin} (hpos : 0 < k)
    (hlength : pattern.length = 2 * k) (h : ample pattern m depth = true) :
    Ample pattern m depth := by
  have hperiod : (weights pattern).length = k := length_weights hlength
  have hphase (n : Nat) : n % k ∈ List.range (pattern.length / 2) := by
    have hmod := Nat.mod_lt n hpos
    exact List.mem_range.mpr (by omega)
  have hall (n : Nat) := List.all_eq_true.mp h (n % k) (hphase n)
  simp only [Bool.and_eq_true, List.all_eq_true, List.mem_range, decide_eq_true_eq] at hall
  constructor
  · intro n s hs hlt
    have hlen := (weights_complete hpos hlength).length_costs (4 * m.faults + 1) m.window (n % k)
    have hcost : costs 32 (weights pattern) (4 * m.faults + 1) m.window (n % k) =
        costs 32 (weights pattern) (4 * m.faults + 1) m.window n := by
      rw [← hperiod, costs_mod]
    rw [← hcost, List.getD_eq_getElem _ _ (by omega)]
    exact (hall n).1 _ (List.getElem_mem _)
  · intro n r hr
    have hcost : costs 32 (weights pattern) 0 depth (n % k + 1) =
        costs 32 (weights pattern) 0 depth (n + 1) := by
      rw [← hperiod, ← costs_mod, ← costs_mod 32 _ 0 depth (n + 1), Nat.mod_add_mod]
    have hfree := (hall n).2 r hr
    rwa [stepWeight_mod hlength, hcost] at hfree

def Encoding.margin : Encoding → Margin
  | .BPSK_1_2 | .QPSK_1_2 | .QAM16_1_2 => ⟨58, 4, 2⟩
  | .QAM64_2_3 => ⟨70, 2, 1⟩
  | .BPSK_3_4 | .QPSK_3_4 | .QAM16_3_4 | .QAM64_3_4 => ⟨105, 2, 0⟩

theorem ample_12 : ample puncture12 ⟨58, 4, 2⟩ 38 = true := by decide +kernel

theorem ample_23 : ample puncture23 ⟨70, 2, 1⟩ 70 = true := by decide +kernel

theorem ample_34 : ample puncture34 ⟨105, 2, 0⟩ 78 = true := by decide +kernel

/-- The traceback of every encoding is deep enough for its margin. -/
theorem margin_ample (e : Encoding) : Ample e.settings.2.1 e.margin (8 * e.settings.1 - 2) := by
  cases e with
  | BPSK_1_2 | QPSK_1_2 | QAM16_1_2 => exact ample_iff (k := 1) (by decide) rfl ample_12
  | QAM64_2_3 => exact ample_iff (k := 2) (by decide) rfl ample_23
  | BPSK_3_4 | QPSK_3_4 | QAM16_3_4 | QAM64_3_4 =>
    exact ample_iff (k := 3) (by decide) rfl ample_34

end Margins

section Gains
variable {pattern : List UInt8} {k a b n T : Nat} {sym : Nat → UInt8} {x y : Nat → State}

def miss (pattern : List UInt8) (sym : Nat → UInt8) (p : Nat) (bit : Bool) : Nat :=
  if (sym p).toNat = bit.toNat ∨ ¬Keeps pattern p ∧ sym p = 2 then 0 else 1

def missed (pattern : List UInt8) (sym : Nat → UInt8) (n : Nat) (r s : State) : Nat :=
  miss pattern sym (2 * n) (label polys0 (register r s)) +
    miss pattern sym (2 * n + 1) (label polys1 (register r s))

def faults (pattern : List UInt8) (sym : Nat → UInt8) (x : Nat → State) (a b : Nat) : Nat :=
  ∑ n ∈ Finset.Ico a b, missed pattern sym n (x n) (x (n + 1))

theorem agree_miss (pattern : List UInt8) (sym : Nat → UInt8) (p : Nat) (bit other : Bool) :
    agree (sym p) other + (if Keeps pattern p then (bit ^^ other).toNat else 0) ≤
      agree (sym p) bit + 2 * miss pattern sym p bit := by
  by_cases heq : (sym p).toNat = bit.toNat
  · by_cases hsame : other = bit
    · subst hsame
      simp
    · have hnot : (sym p).toNat ≠ other.toNat := by
        rw [heq]
        cases bit <;> cases other <;> simp_all
      have hle := Bool.toNat_le (bit ^^ other)
      rw [agree, if_neg hnot, agree, if_pos heq]
      split <;> omega
  · by_cases herased : ¬Keeps pattern p ∧ sym p = 2
    · have hnot : (sym p).toNat ≠ other.toNat := by
        have hle := Bool.toNat_le other
        rw [herased.2]
        change 2 ≠ _
        omega
      rw [agree, if_neg hnot, if_neg herased.1]
      exact Nat.zero_le _
    · have hone : miss pattern sym p bit = 1 := if_neg (by tauto)
      have hagree := agree_le (sym p) other
      have hle := Bool.toNat_le (bit ^^ other)
      rw [hone]
      split <;> omega

theorem gain_miss (pattern : List UInt8) (sym : Nat → UInt8) (n : Nat) (r s r' s' : State) :
    (received sym).gain n r' s' + stepWeight pattern n (register r s ^^^ register r' s') ≤
      (received sym).gain n r s + 2 * missed pattern sym n r s := by
  have heven := agree_miss pattern sym (2 * n) (label polys0 (register r s))
    (label polys0 (register r' s'))
  have hodd := agree_miss pattern sym (2 * n + 1) (label polys1 (register r s))
    (label polys1 (register r' s'))
  simp only [received, gainOf, stepWeight, label_xor, missed]
  omega

def difference (x y : Nat → State) (n : Nat) : Nat := (x n).val ^^^ (y n).val

theorem difference_lt (x y : Nat → State) (n : Nat) : difference x y n < 64 :=
  Nat.xor_lt_two_pow (n := 6) (x n).isLt (y n).isLt

theorem difference_eq_zero : difference x y n = 0 ↔ x n = y n := by
  rw [difference, Nat.xor_eq_zero_iff, Fin.val_inj]

theorem difference_walk (hx : (received sym).Path x 0 T) (hy : (received sym).Path y 0 T) :
    Walk 32 T (difference x y) := by
  constructor
  · intro n _
    exact difference_lt x y n
  · intro n hn
    have hstepx := hx n (Nat.zero_le n) hn
    have hstepy := hy n (Nat.zero_le n) hn
    have hmod : difference x y n % 2 ^ 5 = (x n).val % 2 ^ 5 ^^^ (y n).val % 2 ^ 5 :=
      Nat.xor_mod_two_pow
    change (x (n + 1)).val / 2 = (x n).val % 2 ^ 5 at hstepx
    change (y (n + 1)).val / 2 = (y n).val % 2 ^ 5 at hstepy
    change _ = difference x y n % 2 ^ 5
    rw [hmod, ← hstepx, ← hstepy]
    exact Nat.xor_div_two

theorem taken_difference (x y : Nat → State) (n : Nat) : taken (difference x y) n =
    register (x n) (x (n + 1)) ^^^ register (y n) (y (n + 1)) := by
  have hhalf : (register (x n) (x (n + 1)) ^^^ register (y n) (y (n + 1))) / 2 =
      difference x y n := by
    have hregister (r s : State) : register r s / 2 = r.val := by
      simp only [register]
      omega
    rw [Nat.xor_div_two, hregister, hregister]
    rfl
  have hlast : (register (x n) (x (n + 1)) ^^^ register (y n) (y (n + 1))) % 2 =
      difference x y (n + 1) % 2 := by
    have hregister (r s : State) : register r s % 2 = s.val % 2 := by
      simp only [register]
      omega
    rw [difference, Nat.xor_mod_two_eq, Nat.xor_mod_two_eq, Nat.add_mod, hregister, hregister,
      ← Nat.add_mod]
  rw [taken, ← hhalf, ← hlast]
  omega

/-- The weight of the difference is what the other path loses, but for the faults. -/
theorem weight_total (sym : Nat → UInt8) (x y : Nat → State) (hpos : 0 < k)
    (hlength : pattern.length = 2 * k) (hab : a ≤ b) :
    (received sym).total y a b + weight (weights pattern) (difference x y) a b ≤
      (received sym).total x a b + 2 * faults pattern sym x a b := by
  induction b, hab using Nat.le_induction with
  | base => simp [Graph.total_self, weight_self]
  | succ b hab ih =>
    have hstep := gain_miss pattern sym b (x b) (x (b + 1)) (y b) (y (b + 1))
    have hlt : taken (difference x y) b < 128 := by
      have hsmall := difference_lt x y b
      simp only [taken]
      omega
    have hweight : weight (weights pattern) (difference x y) a (b + 1) =
        weight (weights pattern) (difference x y) a b +
          stepWeight pattern b (register (x b) (x (b + 1)) ^^^ register (y b) (y (b + 1))) := by
      rw [← taken_difference, ← layer_weights hpos hlength hlt]
      exact Finset.sum_Ico_succ_top hab _
    have hfaults : faults pattern sym x a (b + 1) =
        faults pattern sym x a b + missed pattern sym b (x b) (x (b + 1)) :=
      Finset.sum_Ico_succ_top hab _
    rw [Graph.total_succ hab, Graph.total_succ hab, hweight, hfaults]
    omega

end Gains

end EspDrivers.Viterbi
