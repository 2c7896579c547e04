import EspDrivers.Buffers
import EspDrivers.ContigAlloc
import EspDrivers.Radix2

/-! The software FFT that the tests compare with: bit reversal, and one loop nest for each
stage that keeps the power of the root of unity in a pair of floats. -/
namespace EspDrivers.FftComp
open Buffers Radix2
open ContigAlloc (uint)

section Model

/-- The loop of fft_rev. After at most 31 rounds `v` is 0. -/
def revLoop : Nat → BitVec 32 → BitVec 32 → Nat → BitVec 32 × Nat
  | 0, _, r, s => (r, s)
  | fuel + 1, v, r, s =>
    if v = 0 then (r, s) else revLoop fuel (v >>> 1) (r <<< 1 ||| (v &&& 1)) (s - 1)

def fftRev (v : BitVec 32) : BitVec 32 :=
  let p := revLoop 31 (v >>> 1) v 31
  p.1 <<< p.2

variable {R : Type} [Field R]

def get (b : Buffer R) (k : Nat) : Option R := b.load (uint k)
def set (b : Buffer R) (k : Nat) (v : R) : Option (Buffer R) := b.store (uint k) v

def exchange (w : Buffer R) (i r : Nat) : Option (Buffer R) := do
  let tReal ← get w (2 * i)
  let tImag ← get w (2 * i + 1)
  let w ← set w (2 * i) (← get w (2 * r))
  let w ← set w (2 * i + 1) (← get w (2 * r + 1))
  let w ← set w (2 * r) tReal
  set w (2 * r + 1) tImag

/-- What fft_bit_reverse computes for `i` with a shift by s - bits + 1. -/
def reversed (bits i : Nat) : Nat :=
  (fftRev (BitVec.ofNat 32 i) >>> (31 - BitVec.ofNat 32 bits + 1).toNat).toNat

def fftBitReverse (w : Buffer R) (n bits : Nat) : Option (Buffer R) :=
  (List.range n).foldlM (fun w i =>
    if i < reversed bits i then exchange w i (reversed bits i) else some w) w

def butterfly (wReal wImag : R) (a transformLength : Nat) (data : Buffer R) (b : Nat) :
    Option (Buffer R) := do
  let i := b + a
  let j := b + a + transformLength
  let zReal ← get data (2 * j)
  let zImag ← get data (2 * j + 1)
  let tReal := wReal * zReal - wImag * zImag
  let tImag := wReal * zImag + wImag * zReal
  let data ← set data (2 * j) ((← get data (2 * i)) - tReal)
  let data ← set data (2 * j + 1) ((← get data (2 * i + 1)) - tImag)
  let data ← set data (2 * i) ((← get data (2 * i)) + tReal)
  set data (2 * i + 1) ((← get data (2 * i + 1)) + tImag)

structure Round (R : Type) where
  data : Buffer R
  wReal : R
  wImag : R

/-- The floats are exact, with any sine and any value of M_PI. -/
def stage (sin : R → R) (pi : R) (n : Nat) (sign : Int) (data : Buffer R) (transformLength : Nat) :
    Option (Buffer R) := do
  let theta := 1 * sign * pi / transformLength
  let s := sin theta
  let t := sin (1 / 2 * theta)
  let s2 := 2 * t * t
  let r ← (List.range transformLength).foldlM (fun (r : Round R) a => do
    let data ← (steps 0 n (2 * transformLength)).foldlM
      (butterfly r.wReal r.wImag a transformLength) r.data
    let tReal := r.wReal - (s * r.wImag + s2 * r.wReal)
    let tImag := r.wImag + (s * r.wReal - s2 * r.wImag)
    some ⟨data, tReal, tImag⟩) ⟨data, 1, 0⟩
  some r.data

/-- fft_comp, which always returns 0. For logn up to 31 and n = 2 ^ logn no loop counter
wraps around. -/
def fftComp (sin : R → R) (pi : R) (data : Buffer R) (n logn : Nat) (sign : Int) (rev : Bool) :
    Option (Buffer R) := do
  let data ← if rev then fftBitReverse data n logn else some data
  let r ← (List.range logn).foldlM (fun (r : Buffer R × Nat) _ => do
    let data ← stage sin pi n sign r.1 r.2
    some (data, r.2 * 2)) (data, 1)
  some r.1

end Model

section Reversal
variable {v r : BitVec 32} {bits i : Nat}

/-- In round `t` the lower bits are those of `v` in the opposite order, and above them stands
what is shifted out in the end. -/
def Reversing (v : BitVec 32) (t : Nat) (r : BitVec 32) : Prop :=
  ∀ k < 32, r.getLsbD k = v.getLsbD (if k ≤ t then t - k else k - t)

theorem Reversing.stop {t : Nat} (hr : Reversing v t r) (ht : t ≤ 31) (hzero : v >>> (t + 1) = 0) :
    r <<< (31 - t) = v.reverse := by
  apply BitVec.eq_of_getLsbD_eq
  intro k hk
  rw [BitVec.getLsbD_shiftLeft, BitVec.getLsbD_reverse, BitVec.getMsbD]
  by_cases hlow : k < 31 - t
  · have hbit : (v >>> (t + 1)).getLsbD (31 - k - (t + 1)) = false := by
      rw [hzero]
      exact BitVec.getLsbD_zero
    have hplace : t + 1 + (31 - k - (t + 1)) = 32 - 1 - k := by omega
    rw [BitVec.getLsbD_ushiftRight, hplace] at hbit
    simp [hlow, hbit]
  · have hplace : t - (k - (31 - t)) = 32 - 1 - k := by omega
    rw [hr _ (by omega), if_pos (by omega), hplace]
    simp [hk, hlow]

theorem Reversing.next {t : Nat} (hr : Reversing v t r) :
    Reversing v (t + 1) (r <<< 1 ||| (v >>> (t + 1) &&& 1)) := by
  intro k hk
  have hone : (1 : BitVec 32).getLsbD k = decide (k = 0) :=
    BitVec.getLsbD_one.trans (by simp)
  rw [BitVec.getLsbD_or, BitVec.getLsbD_shiftLeft, BitVec.getLsbD_and, hone,
    BitVec.getLsbD_ushiftRight]
  cases k with
  | zero => simp
  | succ k =>
    have hold := hr k (by omega)
    have hplace : (if k + 1 ≤ t + 1 then t + 1 - (k + 1) else k + 1 - (t + 1)) =
        if k ≤ t then t - k else k - t := by
      by_cases hle : k ≤ t
      · rw [if_pos hle, if_pos (by omega)]
        omega
      · rw [if_neg hle, if_neg (by omega)]
        omega
    rw [hplace, ← hold]
    simp [hk]

theorem shifted_out (v : BitVec 32) {t : Nat} (ht : 31 ≤ t) : v >>> (t + 1) = 0 := by
  apply BitVec.eq_of_getLsbD_eq
  intro k hk
  rw [BitVec.getLsbD_ushiftRight, BitVec.getLsbD_of_ge _ _ (by omega)]
  exact BitVec.getLsbD_zero.symm

theorem revLoop_reverse {fuel t : Nat} (hfuel : 31 ≤ fuel + t) (ht : t ≤ 31)
    (hr : Reversing v t r) :
    (revLoop fuel (v >>> (t + 1)) r (31 - t)).1 <<< (revLoop fuel (v >>> (t + 1)) r (31 - t)).2 =
      v.reverse := by
  induction fuel generalizing t r with
  | zero => exact hr.stop ht (shifted_out v (by omega))
  | succ fuel ih =>
    rw [revLoop]
    by_cases hzero : v >>> (t + 1) = 0
    · rw [if_pos hzero]
      exact hr.stop ht hzero
    · have hlt : t < 31 := by
        by_contra hge
        exact hzero (shifted_out v (by omega))
      have hnext : v >>> (t + 1) >>> 1 = v >>> (t + 1 + 1) := (BitVec.shiftRight_add ..).symm
      have hs : 31 - t - 1 = 31 - (t + 1) := by omega
      rw [if_neg hzero, hnext, hs]
      exact ih (by omega) hlt hr.next

theorem fftRev_eq (v : BitVec 32) : fftRev v = v.reverse := by
  refine @revLoop_reverse v v 31 0 (by decide) (by decide) ?_
  intro k hk
  by_cases hzero : k ≤ 0
  · rw [if_pos hzero, Nat.le_zero.mp hzero]
  · rw [if_neg hzero, Nat.sub_zero]

theorem reversed_eq (hbits : 1 ≤ bits) (hle : bits ≤ 31) : reversed bits i = rev bits i := by
  have hshift : (31 - BitVec.ofNat 32 bits + 1).toNat = 32 - bits := by
    have hcases : (31 : BitVec 32) - BitVec.ofNat 32 bits + 1 = BitVec.ofNat 32 (32 - bits) := by
      apply BitVec.eq_of_toNat_eq
      have hs : (31 : BitVec 32).toNat = 31 := rfl
      have hone : (1 : BitVec 32).toNat = 1 := rfl
      simp only [BitVec.toNat_add, BitVec.toNat_sub, BitVec.toNat_ofNat, hs, hone]
      omega
    rw [hcases, BitVec.toNat_ofNat]
    omega
  rw [reversed, hshift, fftRev_eq]
  apply Nat.eq_of_testBit_eq
  intro k
  rw [testBit_rev, BitVec.testBit_toNat, BitVec.getLsbD_ushiftRight, BitVec.getLsbD_reverse,
    BitVec.getMsbD, BitVec.getLsbD_ofNat]
  by_cases hk : k < bits
  · have hin : 32 - bits + k < 32 := by omega
    have hplace : 32 - 1 - (32 - bits + k) = bits - 1 - k := by omega
    have hlow : bits - 1 - k < 32 := by omega
    simp [hk, hin, hplace, hlow]
  · have hout : ¬ 32 - bits + k < 32 := by omega
    simp [hk, hout]

end Reversal

section Floats
variable {R : Type} {size k i r : Nat} {cell : Nat → R} {z : Nat → ℂ}

theorem get_eq (hsize : size ≤ 2 ^ 32) (h : k < size) : get ⟨size, cell⟩ k = some (cell k) := by
  rw [get, uint, Nat.mod_eq_of_lt (by omega)]
  exact Buffer.load_eq h

theorem set_eq (hsize : size ≤ 2 ^ 32) (h : k < size) (v : R) :
    set ⟨size, cell⟩ k v = some ⟨size, Function.update cell k v⟩ := by
  rw [set, uint, Nat.mod_eq_of_lt (by omega)]
  exact Buffer.store_eq h v

theorem exchange_eq (hsize : size ≤ 2 ^ 32) (hi : 2 * i + 1 < size) (hr : 2 * r + 1 < size) :
    exchange ⟨size, cell⟩ i r = some ⟨size, Function.update (Function.update
      (Function.update (Function.update cell (2 * i) (cell (2 * r))) (2 * i + 1) (cell (2 * r + 1)))
        (2 * r) (cell (2 * i))) (2 * r + 1) (cell (2 * i + 1))⟩ := by
  have hi' : 2 * i < size := by omega
  have hr' : 2 * r < size := by omega
  have hodd : 2 * r + 1 ≠ 2 * i := by omega
  simp only [exchange, get_eq hsize hi, get_eq hsize hi', get_eq hsize hr, get_eq hsize hr',
    set_eq hsize hi, set_eq hsize hi', set_eq hsize hr, set_eq hsize hr', Option.bind_eq_bind,
    Option.bind_some, Function.update_of_ne hodd]

theorem exchange_places (hsize : size ≤ 2 ^ 32) (hi : 2 * i + 1 < size) (hr : 2 * r + 1 < size) :
    exchange ⟨size, cell⟩ i r =
      some ⟨size, fun k => cell (2 * Equiv.swap i r (k / 2) + k % 2)⟩ := by
  rw [exchange_eq hsize hi hr]
  refine congrArg some (Buffer.ext rfl ?_)
  funext k
  obtain ⟨c, rfl | rfl⟩ : ∃ c, k = 2 * c ∨ k = 2 * c + 1 := ⟨k / 2, by omega⟩
  · have hhalf : 2 * c / 2 = c := by omega
    have hpart : 2 * c % 2 = 0 := by omega
    simp only [hhalf, hpart, Nat.add_zero]
    rw [Function.update_of_ne (by omega)]
    by_cases hcr : c = r
    · rw [hcr, Equiv.swap_apply_right, Function.update_self]
    · rw [Function.update_of_ne (by omega), Function.update_of_ne (by omega)]
      by_cases hci : c = i
      · rw [hci, Equiv.swap_apply_left, Function.update_self]
      · rw [Function.update_of_ne (by omega), Equiv.swap_apply_of_ne_of_ne hci hcr]
  · have hhalf : (2 * c + 1) / 2 = c := by omega
    have hpart : (2 * c + 1) % 2 = 1 := by omega
    simp only [hhalf, hpart]
    by_cases hcr : c = r
    · rw [hcr, Equiv.swap_apply_right, Function.update_self]
    · rw [Function.update_of_ne (by omega), Function.update_of_ne (by omega)]
      by_cases hci : c = i
      · rw [hci, Equiv.swap_apply_left, Function.update_self]
      · rw [Function.update_of_ne (by omega), Function.update_of_ne (by omega),
          Equiv.swap_apply_of_ne_of_ne hci hcr]

def sourceBelow (bits i c : Nat) : Nat :=
  if c < 2 ^ bits ∧ (c < i ∨ rev bits c < i) then rev bits c else c

theorem sourceBelow_all {bits c : Nat} (h : c < 2 ^ bits) :
    sourceBelow bits (2 ^ bits) c = rev bits c := if_pos ⟨h, Or.inl h⟩

theorem sourceBelow_out {bits c : Nat} (h : ¬ c < 2 ^ bits) : sourceBelow bits i c = c :=
  if_neg fun hin => h hin.1

theorem sourceBelow_skip {bits : Nat} (h : rev bits i ≤ i) :
    sourceBelow bits (i + 1) = sourceBelow bits i := by
  funext c
  by_cases hin : c < 2 ^ bits
  · have hback := rev_rev hin
    rw [sourceBelow, sourceBelow]
    by_cases hbelow : c < i ∨ rev bits c < i
    · rw [if_pos ⟨hin, by omega⟩, if_pos ⟨hin, hbelow⟩]
    · have hstay : ¬ (c < 2 ^ bits ∧ (c < i ∨ rev bits c < i)) := fun h => hbelow h.2
      by_cases hnext : c < i + 1 ∨ rev bits c < i + 1
      · have hsame : rev bits c = c := by
          rcases Nat.lt_or_ge c (i + 1) with hc | hc
          · have hci : c = i := by omega
            rw [hci] at hbelow ⊢
            omega
          · have hri : rev bits c = i := by omega
            rw [hri] at hback
            omega
        rw [if_pos ⟨hin, hnext⟩, if_neg hstay, hsame]
      · rw [if_neg fun h => hnext h.2, if_neg hstay]
  · rw [sourceBelow_out hin, sourceBelow_out hin]

theorem sourceBelow_exchange {bits : Nat} (hi : i < 2 ^ bits) (h : i < rev bits i) (c : Nat) :
    sourceBelow bits i (Equiv.swap i (rev bits i) c) = sourceBelow bits (i + 1) c := by
  have hback := rev_rev hi
  have hri : rev bits i < 2 ^ bits := rev_lt
  have hold : sourceBelow bits i i = i := if_neg fun hlt => by omega
  have hold' : sourceBelow bits i (rev bits i) = rev bits i := if_neg fun hlt => by omega
  by_cases hr : c = rev bits i
  · rw [hr, Equiv.swap_apply_right, hold, sourceBelow, hback, if_pos ⟨hri, by omega⟩]
  · by_cases hc : c = i
    · rw [hc, Equiv.swap_apply_left, hold', sourceBelow, if_pos ⟨hi, by omega⟩]
    · rw [Equiv.swap_apply_of_ne_of_ne hc hr]
      by_cases hin : c < 2 ^ bits
      · have hne : rev bits c ≠ i := fun heq => hr (by rw [← heq, rev_rev hin])
        have hsame : (c < i + 1 ∨ rev bits c < i + 1) ↔ (c < i ∨ rev bits c < i) := by omega
        simp only [sourceBelow, hsame]
      · rw [sourceBelow_out hin, sourceBelow_out hin]

theorem fftBitReverse_places {bits : Nat} (hbits : 1 ≤ bits) (hle : bits ≤ 31) (cell : Nat → R) :
    fftBitReverse ⟨2 * 2 ^ bits, cell⟩ (2 ^ bits) bits = some
      ⟨2 * 2 ^ bits, fun k => cell (2 * sourceBelow bits (2 ^ bits) (k / 2) + k % 2)⟩ := by
  have hpow : 2 ^ bits ≤ 2 ^ 31 := Nat.pow_le_pow_right Nat.two_pos hle
  have hends : ∃ w, fftBitReverse ⟨2 * 2 ^ bits, cell⟩ (2 ^ bits) bits = some w ∧
      w = ⟨2 * 2 ^ bits, fun k => cell (2 * sourceBelow bits (2 ^ bits) (k / 2) + k % 2)⟩ := by
    refine foldlM_range_ends (2 ^ bits) (fun i (w : Buffer R) =>
      w = ⟨2 * 2 ^ bits, fun k => cell (2 * sourceBelow bits i (k / 2) + k % 2)⟩) ?_ ?_
    · refine Buffer.ext rfl ?_
      funext k
      have hstart : sourceBelow bits 0 (k / 2) = k / 2 := if_neg fun h => by omega
      have hsplit : 2 * (k / 2) + k % 2 = k := Nat.div_add_mod k 2
      simp only [hstart, hsplit]
    · rintro i hi w rfl
      refine ⟨_, ?_, rfl⟩
      rw [reversed_eq hbits hle]
      split
      · next hlt =>
        have hri : rev bits i < 2 ^ bits := rev_lt
        rw [exchange_places (by omega) (by omega) (by omega)]
        refine congrArg some (Buffer.ext rfl ?_)
        funext k
        have hhalf (m : Nat) : (2 * m + k % 2) / 2 = m := by omega
        have hpart (m : Nat) : (2 * m + k % 2) % 2 = k % 2 := by omega
        simp only [hhalf, hpart, sourceBelow_exchange hi hlt]
      · next hge => rw [sourceBelow_skip (by omega)]
  obtain ⟨w, hw, rfl⟩ := hends
  exact hw

theorem fftBitReverse_involutive {bits : Nat} (hbits : 1 ≤ bits) (hle : bits ≤ 31) (w : Buffer R)
    (hw : w.size = 2 * 2 ^ bits) :
    ∃ v, fftBitReverse w (2 ^ bits) bits = some v ∧ v.size = w.size ∧
      (∀ i < 2 ^ bits, rev bits i < 2 ^ bits ∧
        (∀ k, (rev bits i).testBit k = (decide (k < bits) && i.testBit (bits - 1 - k))) ∧
        ∀ c < 2, v.cell (2 * rev bits i + c) = w.cell (2 * i + c)) ∧
      fftBitReverse v (2 ^ bits) bits = some w := by
  obtain ⟨size, cell⟩ := w
  obtain rfl : size = 2 * 2 ^ bits := hw
  refine ⟨_, fftBitReverse_places hbits hle cell, rfl, ?_, ?_⟩
  · intro i hi
    refine ⟨rev_lt, fun k => testBit_rev, ?_⟩
    intro c hc
    have hhalf : (2 * rev bits i + c) / 2 = rev bits i := by omega
    have hpart : (2 * rev bits i + c) % 2 = c := by omega
    simp only [hhalf, hpart, sourceBelow_all rev_lt, rev_rev hi]
  · rw [fftBitReverse_places hbits hle]
    refine congrArg some (Buffer.ext rfl ?_)
    funext k
    have hhalf (m : Nat) : (2 * m + k % 2) / 2 = m := by omega
    have hpart (m : Nat) : (2 * m + k % 2) % 2 = k % 2 := by omega
    have hsplit : 2 * (k / 2) + k % 2 = k := Nat.div_add_mod k 2
    simp only [hhalf, hpart]
    by_cases hin : k / 2 < 2 ^ bits
    · rw [sourceBelow_all hin, sourceBelow_all rev_lt, rev_rev hin, hsplit]
    · rw [sourceBelow_out hin, sourceBelow_out hin, hsplit]

theorem fftBitReverse_involutive_eight : 1 ≤ 3 ∧ 3 ≤ 31 ∧
    ∃ v, fftBitReverse (⟨16, id⟩ : Buffer Nat) (2 ^ 3) 3 = some v ∧ v.size = 16 ∧
      (v.cell 2, v.cell 3) = (8, 9) ∧
      (∀ i < 2 ^ 3, rev 3 i < 2 ^ 3 ∧
        (∀ k, (rev 3 i).testBit k = (decide (k < 3) && i.testBit (3 - 1 - k))) ∧
        ∀ c < 2, v.cell (2 * rev 3 i + c) = 2 * i + c) ∧
      fftBitReverse v (2 ^ 3) 3 = some ⟨16, id⟩ := by
  obtain ⟨v, hv, hsize, hplace, htwice⟩ :=
    fftBitReverse_involutive (by decide : 1 ≤ 3) (by decide) (⟨16, id⟩ : Buffer Nat) rfl
  have hfour : rev 3 4 = 1 := by decide
  have hmoved := (hplace 4 (by decide)).2.2
  rw [hfour] at hmoved
  have hre : v.cell 2 = 8 := hmoved 0 (by decide)
  have him : v.cell 3 = 9 := hmoved 1 (by decide)
  exact ⟨by decide, by decide, v, hv, hsize, by rw [hre, him], hplace, htwice⟩

/-- Complex numbers as they lie in the buffer, real part first. -/
noncomputable def floats (z : Nat → ℂ) (k : Nat) : ℝ :=
  if k % 2 = 0 then (z (k / 2)).re else (z (k / 2)).im

def points (cell : Nat → ℝ) (c : Nat) : ℂ := ⟨cell (2 * c), cell (2 * c + 1)⟩

theorem floats_re (c : Nat) : floats z (2 * c) = (z c).re := by
  have hdiv : 2 * c / 2 = c := by omega
  rw [floats, if_pos (by omega), hdiv]

theorem floats_im (c : Nat) : floats z (2 * c + 1) = (z c).im := by
  have hdiv : (2 * c + 1) / 2 = c := by omega
  rw [floats, if_neg (by omega), hdiv]

theorem floats_points (cell : Nat → ℝ) : floats (points cell) = cell := by
  funext k
  obtain ⟨c, rfl | rfl⟩ : ∃ c, k = 2 * c ∨ k = 2 * c + 1 := ⟨k / 2, by omega⟩
  · rw [floats_re, points]
  · rw [floats_im, points]

theorem points_floats (z : Nat → ℂ) : points (floats z) = z := by
  funext c
  rw [points, floats_re, floats_im]

theorem floats_update (z : Nat → ℂ) (c : Nat) (v : ℂ) : Function.update (Function.update
    (floats z) (2 * c) v.re) (2 * c + 1) v.im = floats (Function.update z c v) := by
  funext k
  obtain ⟨d, rfl | rfl⟩ : ∃ d, k = 2 * d ∨ k = 2 * d + 1 := ⟨k / 2, by omega⟩
  · rw [floats_re, Function.update_of_ne (by omega)]
    by_cases hd : d = c
    · rw [hd, Function.update_self, Function.update_self]
    · rw [Function.update_of_ne (by omega), Function.update_of_ne hd, floats_re]
  · rw [floats_im]
    by_cases hd : d = c
    · rw [hd, Function.update_self, Function.update_self]
    · rw [Function.update_of_ne (by omega), Function.update_of_ne (by omega),
        Function.update_of_ne hd, floats_im]

/-- The places that the first `i` rounds have put right. -/
noncomputable def reversedBelow (bits i : Nat) (z : Nat → ℂ) (c : Nat) : ℂ :=
  if c < 2 ^ bits ∧ (c < i ∨ rev bits c < i) then z (rev bits c) else z c

theorem reversedBelow_source {bits : Nat} (z : Nat → ℂ) (c : Nat) :
    reversedBelow bits i z c = z (sourceBelow bits i c) := by
  rw [reversedBelow, sourceBelow, apply_ite z]

theorem fftBitReverse_eq {bits : Nat} (hbits : 1 ≤ bits) (hle : bits ≤ 31) :
    fftBitReverse ⟨2 * 2 ^ bits, floats z⟩ (2 ^ bits) bits =
      some ⟨2 * 2 ^ bits, floats (reversedBelow bits (2 ^ bits) z)⟩ := by
  rw [fftBitReverse_places hbits hle]
  refine congrArg some (Buffer.ext rfl ?_)
  funext k
  obtain ⟨c, rfl | rfl⟩ : ∃ c, k = 2 * c ∨ k = 2 * c + 1 := ⟨k / 2, by omega⟩
  · have hhalf : 2 * c / 2 = c := by omega
    have hpart : 2 * c % 2 = 0 := by omega
    simp only [hhalf, hpart, Nat.add_zero, floats_re, reversedBelow_source]
  · have hhalf : (2 * c + 1) / 2 = c := by omega
    have hpart : (2 * c + 1) % 2 = 1 := by omega
    simp only [hhalf, hpart, floats_im, reversedBelow_source]

end Floats

/-- The roots of unity of the stages. -/
noncomputable def root (sign : Int) (m : Nat) : ℂ :=
  Complex.exp (sign * (2 * Real.pi) * Complex.I / 2 ^ m)

end EspDrivers.FftComp
