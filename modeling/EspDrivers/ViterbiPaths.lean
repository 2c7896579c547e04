import EspDrivers.ConvolutionalCode

/-! Path words: the bits that leave the states on the way back, the latest one lowest. Eight bits
of a word hold the state in which the word began, and the two inputs after it. -/
namespace EspDrivers.Viterbi
open Trellis

variable {prev : Nat → State → State} {a j k n : Nat} {s : State}

/-- The bits of the way back from `s` at the time `n`, as far as the time `a`. -/
def pathWord (prev : Nat → State → State) (a : Nat) : Nat → State → Nat
  | 0, _ => 0
  | n + 1, s => if a ≤ n then 2 * pathWord prev a n (prev n s) + oldest (prev n s) else 0

theorem pathWord_succ (h : a ≤ n) (s : State) : pathWord prev a (n + 1) s =
    2 * pathWord prev a n (prev n s) + oldest (prev n s) := if_pos h

theorem pathWord_of_le (h : n ≤ a) (s : State) : pathWord prev a n s = 0 := by
  cases n with
  | zero => rfl
  | succ n => exact if_neg (by omega)

theorem oldest_lt (r : State) : oldest r < 2 := by
  simp only [oldest]
  omega

theorem pathWord_lt (prev : Nat → State → State) (a n : Nat) (s : State) :
    pathWord prev a n s < 2 ^ (n - a) := by
  induction n generalizing s with
  | zero => exact Nat.two_pow_pos _
  | succ n ih =>
    by_cases h : a ≤ n
    · have hlt := ih (prev n s)
      have hbit := oldest_lt (prev n s)
      rw [pathWord_succ h, Nat.succ_sub h, Nat.pow_succ]
      omega
    · rw [pathWord_of_le (by omega)]
      exact Nat.two_pow_pos _

theorem pathWord_shift (ha : a ≤ j) (hj : j ≤ n) (s : State) :
    pathWord prev a n s / 2 ^ (n - j) = pathWord prev a j (trace prev n s j) := by
  induction n generalizing s with
  | zero =>
    obtain rfl : j = 0 := Nat.le_zero.mp hj
    rw [trace_self, Nat.sub_self, Nat.pow_zero, Nat.div_one]
  | succ n ih =>
    cases Nat.lt_or_eq_of_le hj with
    | inl hlt =>
      have hjn : j ≤ n := Nat.le_of_lt_succ hlt
      have hbit := oldest_lt (prev n s)
      have hhalf : (2 * pathWord prev a n (prev n s) + oldest (prev n s)) / 2 =
          pathWord prev a n (prev n s) := by omega
      rw [pathWord_succ (ha.trans hjn), Nat.succ_sub hjn, Nat.pow_succ', ← Nat.div_div_eq_div_mul,
        hhalf, ih hjn, trace_succ hjn]
    | inr heq =>
      subst heq
      rw [trace_self, Nat.sub_self, Nat.pow_zero, Nat.div_one]

theorem pathWord_bit (ha : a ≤ k) (hk : k < n) (s : State) :
    pathWord prev a n s / 2 ^ (n - 1 - k) % 2 = oldest (trace prev n s k) := by
  have hexp : n - 1 - k = n - (k + 1) := by omega
  have hbit := oldest_lt (trace prev n s k)
  have hprev : prev k (trace prev n s (k + 1)) = trace prev n s k := trace_prev hk
  rw [hexp, pathWord_shift (by omega) hk, pathWord_succ ha, hprev]
  omega

theorem trace_shift (hedge : ∀ n s, Edge (prev n s) s) (hj : j ≤ 6) (hn : a + j ≤ n) (s : State) :
    (trace prev n s (a + j)).val / 2 ^ j = (trace prev n s a).val % 2 ^ (6 - j) := by
  induction j with
  | zero =>
    have hlt := (trace prev n s a).isLt
    simp only [Nat.add_zero, Nat.pow_zero, Nat.div_one, Nat.sub_zero]
    omega
  | succ j ih =>
    have hprev : prev (a + j) (trace prev n s (a + j + 1)) = trace prev n s (a + j) :=
      trace_prev (by omega)
    have hstep := hedge (a + j) (trace prev n s (a + j + 1))
    have hrest := ih (by omega) (by omega)
    rw [hprev, Edge] at hstep
    rw [← Nat.add_assoc, Nat.pow_succ', ← Nat.div_div_eq_div_mul, hstep]
    have h32 : (32 : Nat) = 2 ^ j * 2 ^ (6 - (j + 1)) := by
      rw [← Nat.pow_add]
      have hsum : j + (6 - (j + 1)) = 5 := by omega
      rw [hsum]
    rw [h32, Nat.mod_mul_right_div_self, hrest]
    have hsucc : 6 - j = 6 - (j + 1) + 1 := by omega
    rw [hsucc, Nat.pow_succ, Nat.mod_mul_right_mod]

theorem pathWord_state (hedge : ∀ n s, Edge (prev n s) s) (hj : j ≤ 6) (s : State) :
    pathWord prev a (a + j) s = (trace prev (a + j) s a).val / 2 ^ (6 - j) := by
  induction j generalizing s with
  | zero =>
    have hlt := (trace prev a s a).isLt
    rw [Nat.add_zero, pathWord_of_le le_rfl]
    simp only [Nat.sub_zero]
    omega
  | succ j ih =>
    have hbit : oldest (prev (a + j) s) =
        (trace prev (a + (j + 1)) s a).val / 2 ^ (6 - (j + 1)) % 2 := by
      have hshift := trace_shift (a := a) (j := j) (n := a + (j + 1)) hedge (by omega) (by omega) s
      have hprev : trace prev (a + (j + 1)) s (a + j) = prev (a + j) s := by
        rw [← Nat.add_assoc, trace_succ le_rfl, trace_self]
      have h32 : (32 : Nat) = 2 ^ j * 2 ^ (6 - (j + 1)) := by
        rw [← Nat.pow_add]
        have hsum : j + (6 - (j + 1)) = 5 := by omega
        rw [hsum]
      have hsucc : 6 - j = 6 - (j + 1) + 1 := by omega
      rw [oldest, ← hprev, h32, ← Nat.div_div_eq_div_mul, hshift, hsucc, Nat.pow_succ,
        Nat.mod_mul_right_div_self]
    have hhead : trace prev (a + j) (prev (a + j) s) a = trace prev (a + (j + 1)) s a := by
      rw [← Nat.add_assoc, trace_succ (by omega)]
    have hsucc : 6 - j = 6 - (j + 1) + 1 := by omega
    rw [← Nat.add_assoc, pathWord_succ (by omega), ih (by omega), hbit, hhead, hsucc, Nat.pow_succ,
      ← Nat.div_div_eq_div_mul]
    have hdiv := Nat.div_add_mod ((trace prev (a + (j + 1)) s a).val / 2 ^ (6 - (j + 1))) 2
    rw [Nat.add_assoc]
    exact hdiv

/-- A stored path byte divided by 4 is the state eight steps before. -/
theorem pathWord_back (hedge : ∀ n s, Edge (prev n s) s) (a : Nat) (s : State) :
    pathWord prev a (a + 8) s / 4 = (trace prev (a + 8) s a).val := by
  have hexp : a + 8 - (a + 6) = 2 := by omega
  have hshift : pathWord prev a (a + 8) s / 2 ^ (a + 8 - (a + 6)) =
      pathWord prev a (a + 6) (trace prev (a + 8) s (a + 6)) :=
    pathWord_shift (by omega) (by omega) s
  rw [hexp] at hshift
  rw [show (4 : Nat) = 2 ^ 2 from rfl, hshift, pathWord_state hedge le_rfl, Nat.sub_self,
    Nat.pow_zero, Nat.div_one, trace_trace (by omega) (by omega)]

end EspDrivers.Viterbi
