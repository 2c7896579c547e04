import EspDrivers.FftComp

/-! The stages of the software FFT. A round of a stage makes the butterflies with one power
of the root of unity, and the stages take the bit-reversed input to its transform. -/
namespace EspDrivers.FftComp
open Buffers Radix2

section Butterfly
variable {size a b i j T : Nat} {z : Nat → ℂ} {w : ℂ}

theorem butterfly_floats (hi : i = b + a) (hj : j = b + a + T) (hT : 0 < T)
    (hsize : size ≤ 2 ^ 32) (hlt : 2 * j + 1 < size) :
    butterfly w.re w.im a T ⟨size, floats z⟩ b = some ⟨size, floats
      (Function.update (Function.update z j (z i - w * z j)) i (z i + w * z j))⟩ := by
  have hi1 : 2 * i + 1 < size := by omega
  have hi0 : 2 * i < size := by omega
  have hj0 : 2 * j < size := by omega
  have h1 : 2 * i + 1 ≠ 2 * j := by omega
  have h2 : 2 * i ≠ 2 * j + 1 := by omega
  have h3 : 2 * i ≠ 2 * j := by omega
  have h4 : 2 * i + 1 ≠ 2 * i := by omega
  have h5 : 2 * i + 1 ≠ 2 * j + 1 := by omega
  have hsubRe : (z i).re - (w.re * (z j).re - w.im * (z j).im) = (z i - w * z j).re := by
    rw [Complex.sub_re, Complex.mul_re]
  have hsubIm : (z i).im - (w.re * (z j).im + w.im * (z j).re) = (z i - w * z j).im := by
    rw [Complex.sub_im, Complex.mul_im]
  have haddRe : (z i).re + (w.re * (z j).re - w.im * (z j).im) = (z i + w * z j).re := by
    rw [Complex.add_re, Complex.mul_re]
  have haddIm : (z i).im + (w.re * (z j).im + w.im * (z j).re) = (z i + w * z j).im := by
    rw [Complex.add_im, Complex.mul_im]
  rw [butterfly, ← hj, ← hi]
  simp only [get_eq hsize hi1, get_eq hsize hi0, get_eq hsize hlt, get_eq hsize hj0,
    set_eq hsize hi1, set_eq hsize hi0, set_eq hsize hlt, set_eq hsize hj0, Option.bind_eq_bind,
    Option.bind_some, Function.update_of_ne h1, Function.update_of_ne h2, Function.update_of_ne h3,
    Function.update_of_ne h4, Function.update_of_ne h5, floats_re, floats_im, hsubRe, hsubIm, haddRe,
    haddIm, floats_update]

theorem offset_iff {n D c : Nat} (ha : a < T) (hn : n = 2 * T * D) :
    (∃ b ∈ steps 0 n (2 * T), c = b + a ∨ c = b + a + T) ↔ c % T = a ∧ c < n := by
  have hpos : 0 < 2 * T := by omega
  constructor
  · rintro ⟨b, hb, hc⟩
    obtain ⟨-, hlt, t, ht⟩ := (mem_steps hpos).mp hb
    have hle : 2 * T * (t + 1) ≤ 2 * T * D := by
      refine Nat.mul_le_mul_left _ (Nat.lt_of_mul_lt_mul_left (a := 2 * T) ?_)
      omega
    rw [Nat.mul_succ] at hle
    have hmod : c % T = a := by
      rcases hc with rfl | rfl
      · have hplace : b + a = T * (2 * t) + a := by
          have hb2 : T * (2 * t) = 2 * T * t := by ring
          omega
        rw [hplace, Nat.mul_add_mod, Nat.mod_eq_of_lt ha]
      · have hplace : b + a + T = T * (2 * t + 1) + a := by
          have hb2 : T * (2 * t + 1) = 2 * T * t + T := by ring
          omega
        rw [hplace, Nat.mul_add_mod, Nat.mod_eq_of_lt ha]
    exact ⟨hmod, by omega⟩
  · rintro ⟨hmod, hlt⟩
    have hc := Nat.div_add_mod c (2 * T)
    have hrest := Nat.mod_lt c hpos
    have hhalf : c % (2 * T) % T = a := by
      rw [Nat.mod_mod_of_dvd c (Nat.dvd_mul_left T 2)]
      exact hmod
    refine ⟨2 * T * (c / (2 * T)), (mem_steps hpos).mpr ⟨Nat.zero_le _, by omega, ?_⟩, ?_⟩
    · exact Nat.dvd_mul_right _ _
    · rcases Nat.lt_or_ge (c % (2 * T)) T with hlow | hhigh
      · rw [Nat.mod_eq_of_lt hlow] at hhalf
        left
        omega
      · rw [Nat.mod_eq_sub_mod hhigh, Nat.mod_eq_of_lt (by omega)] at hhalf
        right
        omega

theorem butterflies_apart {n : Nat} (ha : a < T) : (steps 0 n (2 * T)).Pairwise fun b b' =>
    ∀ k, k / 2 = b + a ∨ k / 2 = b + a + T → ¬ (k / 2 = b' + a ∨ k / 2 = b' + a + T) := by
  have hpos : 0 < 2 * T := by omega
  refine (nodup_steps hpos).imp_of_mem ?_
  intro b b' hb hb' hne k hk hk'
  obtain ⟨-, -, t, ht⟩ := (mem_steps hpos).mp hb
  obtain ⟨-, -, t', ht'⟩ := (mem_steps hpos).mp hb'
  have hsame : t = t' := by
    have hdiv : k / 2 / (2 * T) = t := by
      refine Nat.div_eq_of_lt_le ?_ ?_
      · rw [Nat.mul_comm]
        omega
      · rw [Nat.mul_comm, Nat.mul_succ]
        omega
    have hdiv' : k / 2 / (2 * T) = t' := by
      refine Nat.div_eq_of_lt_le ?_ ?_
      · rw [Nat.mul_comm]
        omega
      · rw [Nat.mul_comm, Nat.mul_succ]
        omega
    omega
  rw [hsame] at ht
  omega

end Butterfly

section Stage
variable {a m L : Nat} {z : Nat → ℂ} {w : ℂ}

/-- The butterflies of the first `a` offsets are made. -/
noncomputable def offsetsBelow (m L a : Nat) (w : ℂ) (z : Nat → ℂ) (c : Nat) : ℂ :=
  if c % 2 ^ m < a ∧ c < 2 ^ L then combine m w z c else z c

theorem floats_congr {f g : Nat → ℂ} {k : Nat} (h : f (k / 2) = g (k / 2)) :
    floats f k = floats g k := by
  rw [floats, floats, h]

theorem points_eq {f : Nat → ℂ} {cell : Nat → ℝ} {c : Nat}
    (h : ∀ k, k / 2 = c → cell k = floats f k) : points cell c = f c := by
  rw [points, h (2 * c) (by omega), h (2 * c + 1) (by omega), floats_re, floats_im]

theorem whole_blocks (hm : m < L) : ∃ D, 2 ^ L = 2 * 2 ^ m * D := by
  obtain ⟨d, rfl⟩ := Nat.exists_eq_add_of_lt hm
  exact ⟨2 ^ d, by ring⟩

theorem butterfly_places {b : Nat} (hm : m < L) (ha : a < 2 ^ m)
    (hb : b ∈ steps 0 (2 ^ L) (2 * 2 ^ m)) : b + a + 2 ^ m < 2 ^ L ∧
      offsetsBelow m L a w z (b + a) = z (b + a) ∧
      offsetsBelow m L a w z (b + a + 2 ^ m) = z (b + a + 2 ^ m) ∧
      offsetsBelow m L (a + 1) w z (b + a) = z (b + a) + w ^ a * z (b + a + 2 ^ m) ∧
      offsetsBelow m L (a + 1) w z (b + a + 2 ^ m) = z (b + a) - w ^ a * z (b + a + 2 ^ m) := by
  obtain ⟨D, hD⟩ := whole_blocks hm
  have hlow := (offset_iff (c := b + a) ha hD).mp ⟨b, hb, Or.inl rfl⟩
  have hhigh := (offset_iff (c := b + a + 2 ^ m) ha hD).mp ⟨b, hb, Or.inr rfl⟩
  obtain ⟨-, -, t, ht⟩ := (mem_steps (by omega)).mp hb
  have hlowPlace : b + a = 2 * t * 2 ^ m + a := by
    have hswap : 2 * t * 2 ^ m = 2 * 2 ^ m * t := by ring
    omega
  have hhighPlace : b + a + 2 ^ m = (2 * t + 1) * 2 ^ m + a := by
    rw [Nat.succ_mul]
    omega
  have hlowDiv : (b + a) / 2 ^ m = 2 * t := by
    rw [hlowPlace]
    exact (place_div_mod ha).1
  have hhighDiv : (b + a + 2 ^ m) / 2 ^ m = 2 * t + 1 := by
    rw [hhighPlace]
    exact (place_div_mod ha).1
  refine ⟨hhigh.2, if_neg (by omega), if_neg (by omega), ?_, ?_⟩
  · rw [offsetsBelow, if_pos ⟨by omega, hlow.2⟩, combine, hlowDiv, if_pos (by omega), hlow.1]
  · rw [offsetsBelow, if_pos ⟨by omega, hhigh.2⟩, combine, hhighDiv, if_neg (by omega), hhigh.1,
      Nat.add_sub_cancel]

theorem offset_loop (hm : m < L) (hL : L ≤ 31) (ha : a < 2 ^ m) :
    (steps 0 (2 ^ L) (2 * 2 ^ m)).foldlM (butterfly (w ^ a).re (w ^ a).im a (2 ^ m))
      ⟨2 * 2 ^ L, floats (offsetsBelow m L a w z)⟩ =
        some ⟨2 * 2 ^ L, floats (offsetsBelow m L (a + 1) w z)⟩ := by
  have hpow : 2 ^ L ≤ 2 ^ 31 := Nat.pow_le_pow_right Nat.two_pos hL
  have hpos := Nat.two_pow_pos m
  have hloop : (steps 0 (2 ^ L) (2 * 2 ^ m)).foldlM
      (butterfly (w ^ a).re (w ^ a).im a (2 ^ m)) ⟨2 * 2 ^ L, floats (offsetsBelow m L a w z)⟩ =
      some ⟨2 * 2 ^ L, overwritten (fun b k => k / 2 = b + a ∨ k / 2 = b + a + 2 ^ m)
        (steps 0 (2 ^ L) (2 * 2 ^ m)) (floats (offsetsBelow m L (a + 1) w z))
          (floats (offsetsBelow m L a w z))⟩ := by
    refine foldlM_overwrites (butterflies_apart ha) ?_
    intro b hb cell hown _
    obtain ⟨hlt, hi, hj, hi', hj'⟩ := @butterfly_places a m L z w b hm ha hb
    have hpi : points cell (b + a) = z (b + a) :=
      (points_eq fun k hk => hown k (Or.inl hk)).trans hi
    have hpj : points cell (b + a + 2 ^ m) = z (b + a + 2 ^ m) :=
      (points_eq fun k hk => hown k (Or.inr hk)).trans hj
    have hbody := @butterfly_floats (2 * 2 ^ L) a b (b + a) (b + a + 2 ^ m) (2 ^ m) (points cell)
      (w ^ a) rfl rfl hpos (by omega) (by omega)
    rw [floats_points, hpi, hpj, ← hi', ← hj'] at hbody
    rw [hbody]
    congr 2
    funext k
    by_cases hki : k / 2 = b + a
    · rw [if_pos (Or.inl hki)]
      refine floats_congr ?_
      rw [hki, Function.update_self]
    · by_cases hkj : k / 2 = b + a + 2 ^ m
      · rw [if_pos (Or.inr hkj)]
        refine floats_congr ?_
        rw [Function.update_of_ne hki, hkj, Function.update_self]
      · rw [if_neg fun h => h.elim hki hkj, ← congrFun (floats_points cell) k]
        refine floats_congr ?_
        rw [Function.update_of_ne hki, Function.update_of_ne hkj]
  rw [hloop]
  congr 2
  funext k
  obtain ⟨D, hD⟩ := whole_blocks hm
  by_cases hk : ∃ b ∈ steps 0 (2 ^ L) (2 * 2 ^ m), k / 2 = b + a ∨ k / 2 = b + a + 2 ^ m
  · rw [overwritten_pos hk]
  · rw [overwritten_neg hk]
    refine floats_congr ?_
    rw [offset_iff ha hD] at hk
    have hsame : (k / 2 % 2 ^ m < a + 1 ∧ k / 2 < 2 ^ L) ↔ k / 2 % 2 ^ m < a ∧ k / 2 < 2 ^ L := by
      omega
    rw [offsetsBelow, offsetsBelow]
    simp only [hsame]

/-- The recurrence for the power of the root of unity, by sin t and 2 sin^2 (t / 2). -/
theorem twiddle_step (t : ℝ) (v : ℂ) :
    v.re - (Real.sin t * v.im + 2 * Real.sin (1 / 2 * t) * Real.sin (1 / 2 * t) * v.re) =
      (v * Complex.exp (t * Complex.I)).re ∧
    v.im + (Real.sin t * v.re - 2 * Real.sin (1 / 2 * t) * Real.sin (1 / 2 * t) * v.im) =
      (v * Complex.exp (t * Complex.I)).im := by
  have hcos : 2 * Real.sin (1 / 2 * t) * Real.sin (1 / 2 * t) = 1 - Real.cos t := by
    have hdouble := Real.cos_two_mul (1 / 2 * t)
    have hsq := Real.sin_sq_add_cos_sq (1 / 2 * t)
    have harg : 2 * (1 / 2 * t) = t := by ring
    rw [harg] at hdouble
    nlinarith
  rw [hcos, Complex.mul_re, Complex.mul_im, Complex.exp_ofReal_mul_I_re, Complex.exp_ofReal_mul_I_im]
  constructor
  · ring
  · ring

theorem stage_eq (hm : m < L) (hL : L ≤ 31) (sign : Int) :
    stage Real.sin Real.pi (2 ^ L) sign ⟨2 * 2 ^ L, floats z⟩ (2 ^ m) = some ⟨2 * 2 ^ L, floats
      (offsetsBelow m L (2 ^ m)
        (Complex.exp (((sign * Real.pi / 2 ^ m : ℝ) : ℂ) * Complex.I)) z)⟩ := by
  have htheta : 1 * (sign : ℝ) * Real.pi / ((2 ^ m : Nat) : ℝ) = sign * Real.pi / 2 ^ m := by
    push_cast
    ring
  rw [stage]
  simp only [htheta]
  generalize (sign * Real.pi / 2 ^ m : ℝ) = t
  generalize hw : Complex.exp ((t : ℂ) * Complex.I) = w
  have hends : ∃ r, (List.range (2 ^ m)).foldlM (fun (r : Round ℝ) a => do
      let data ← (steps 0 (2 ^ L) (2 * 2 ^ m)).foldlM (butterfly r.wReal r.wImag a (2 ^ m)) r.data
      let tReal := r.wReal - (Real.sin t * r.wImag +
        2 * Real.sin (1 / 2 * t) * Real.sin (1 / 2 * t) * r.wReal)
      let tImag := r.wImag + (Real.sin t * r.wReal -
        2 * Real.sin (1 / 2 * t) * Real.sin (1 / 2 * t) * r.wImag)
      some ⟨data, tReal, tImag⟩) ⟨⟨2 * 2 ^ L, floats z⟩, 1, 0⟩ = some r ∧
      r = ⟨⟨2 * 2 ^ L, floats (offsetsBelow m L (2 ^ m) w z)⟩, (w ^ 2 ^ m).re, (w ^ 2 ^ m).im⟩ := by
    refine foldlM_range_ends (2 ^ m) (fun a (r : Round ℝ) => r =
      ⟨⟨2 * 2 ^ L, floats (offsetsBelow m L a w z)⟩, (w ^ a).re, (w ^ a).im⟩) ?_ ?_
    · have hnone : offsetsBelow m L 0 w z = z := by
        funext c
        exact if_neg fun h => Nat.not_lt_zero _ h.1
      rw [hnone, pow_zero, Complex.one_re, Complex.one_im]
    · rintro a ha r rfl
      refine ⟨_, ?_, rfl⟩
      obtain ⟨hre, him⟩ := twiddle_step t (w ^ a)
      rw [hw, ← pow_succ] at hre him
      dsimp only
      rw [offset_loop hm hL ha, Option.bind_eq_bind, Option.bind_some, hre, him]
  obtain ⟨r, hr, rfl⟩ := hends
  rw [hr]
  rfl

end Stage

section Transform

theorem roots {sign : Int} (hs : sign = 1 ∨ sign = -1) : Roots (root sign) := by
  constructor
  · intro m
    rw [root, root, ← Complex.exp_nat_mul]
    congr 1
    rw [pow_succ]
    push_cast
    field_simp
  · intro m
    have hhalf : ((2 ^ m : Nat) : ℂ) * (sign * (2 * Real.pi) * Complex.I / 2 ^ (m + 1)) =
        sign * (Real.pi * Complex.I) := by
      rw [pow_succ]
      push_cast
      field_simp
    rw [root, ← Complex.exp_nat_mul, hhalf]
    cases hs with
    | inl hone => rw [hone, Int.cast_one, one_mul, Complex.exp_pi_mul_I]
    | inr hneg =>
      rw [hneg, Int.cast_neg, Int.cast_one, neg_one_mul, Complex.exp_neg, Complex.exp_pi_mul_I,
        inv_neg_one]

theorem root_succ (sign : Int) (m : Nat) :
    Complex.exp (((sign * Real.pi / 2 ^ m : ℝ) : ℂ) * Complex.I) = root sign (m + 1) := by
  rw [root]
  congr 1
  rw [pow_succ]
  push_cast
  field_simp

variable {logn : Nat} {sign : Int}

theorem stage_blocks {m : Nat} {x z : Nat → ℂ} (hm : m < logn) (hle : logn ≤ 31)
    (hs : sign = 1 ∨ sign = -1) (h : ∀ c < 2 ^ logn, z c = block (root sign) logn m x c) :
    ∃ u, stage Real.sin Real.pi (2 ^ logn) sign ⟨2 * 2 ^ logn, floats z⟩ (2 ^ m) =
      some ⟨2 * 2 ^ logn, floats u⟩ ∧ ∀ c < 2 ^ logn, u c = block (root sign) logn (m + 1) x c := by
  refine ⟨_, stage_eq hm hle sign, ?_⟩
  intro c hc
  have hlt : c % 2 ^ m < 2 ^ m := Nat.mod_lt c (Nat.two_pow_pos m)
  rw [offsetsBelow, if_pos ⟨hlt, hc⟩, root_succ]
  exact combine_block (roots hs) hm h hc

theorem fftComp_blocks (hpos : 1 ≤ logn) (hle : logn ≤ 31) (hs : sign = 1 ∨ sign = -1)
    (x : Nat → ℂ) : ∃ u, fftComp Real.sin Real.pi ⟨2 * 2 ^ logn, floats x⟩ (2 ^ logn) logn sign true =
      some ⟨2 * 2 ^ logn, floats u⟩ ∧
        ∀ c < 2 ^ logn, u c = dft (2 ^ logn) (root sign logn) x c := by
  have hends : ∃ r, (List.range logn).foldlM (fun (r : Buffer ℝ × Nat) _ => do
      let data ← stage Real.sin Real.pi (2 ^ logn) sign r.1 r.2
      some (data, r.2 * 2)) (⟨2 * 2 ^ logn, floats (reversedBelow logn (2 ^ logn) x)⟩, 1) = some r ∧
      ∃ u, r = (⟨2 * 2 ^ logn, floats u⟩, 2 ^ logn) ∧
        ∀ c < 2 ^ logn, u c = block (root sign) logn logn x c := by
    refine foldlM_range_ends logn (fun m (r : Buffer ℝ × Nat) => ∃ u,
      r = (⟨2 * 2 ^ logn, floats u⟩, 2 ^ m) ∧
        ∀ c < 2 ^ logn, u c = block (root sign) logn m x c) ?_ ?_
    · refine ⟨_, rfl, ?_⟩
      intro c hc
      rw [block_zero, reversedBelow, if_pos ⟨hc, Or.inl hc⟩]
    · rintro m hm r ⟨z, rfl, hz⟩
      obtain ⟨u, hu, hblock⟩ := stage_blocks hm hle hs hz
      refine ⟨_, ?_, u, rfl, hblock⟩
      dsimp only
      rw [hu, Option.bind_eq_bind, Option.bind_some, pow_succ]
  obtain ⟨r, hr, u, rfl, hu⟩ := hends
  refine ⟨u, ?_, ?_⟩
  · rw [fftComp, if_pos rfl, fftBitReverse_eq hpos hle, Option.bind_eq_bind, Option.bind_some]
    dsimp only
    rw [hr]
    rfl
  · intro c hc
    rw [hu c hc, block_last hc]

/-- fft_comp with exact floats computes the discrete Fourier transform. -/
theorem fftComp_transforms (hpos : 1 ≤ logn) (hle : logn ≤ 31) (hs : sign = 1 ∨ sign = -1)
    (data : Nat → ℝ) : ∃ out, fftComp Real.sin Real.pi ⟨2 * 2 ^ logn, data⟩ (2 ^ logn) logn sign true =
      some ⟨2 * 2 ^ logn, out⟩ ∧ ∀ k < 2 ^ logn, (⟨out (2 * k), out (2 * k + 1)⟩ : ℂ) =
        ∑ j ∈ Finset.range (2 ^ logn), (⟨data (2 * j), data (2 * j + 1)⟩ : ℂ) *
          Complex.exp (sign * 2 * Real.pi * Complex.I * j * k / 2 ^ logn) := by
  obtain ⟨u, hu, hdft⟩ := fftComp_blocks hpos hle hs (points data)
  rw [floats_points] at hu
  refine ⟨_, hu, ?_⟩
  intro k hk
  have hpoint : (⟨floats u (2 * k), floats u (2 * k + 1)⟩ : ℂ) = u k := congrFun (points_floats u) k
  rw [hpoint, hdft k hk, dft]
  refine Finset.sum_congr rfl fun j _ => ?_
  rw [root, ← Complex.exp_nat_mul]
  congr 2
  push_cast
  ring

theorem fftComp_transforms_two : ∃ out, fftComp Real.sin Real.pi ⟨4, fun _ => 1⟩ 2 1 (-1) true =
    some ⟨4, out⟩ ∧ out 0 = 2 ∧ out 1 = 2 := by
  obtain ⟨out, hout, hall⟩ := @fftComp_transforms 1 (-1) (by decide) (by decide) (Or.inr rfl) fun _ => 1
  have hzero := hall 0 (by decide)
  refine ⟨out, hout, ?_, ?_⟩
  · have hre := congrArg Complex.re hzero
    norm_num [Finset.sum_range_succ] at hre
    exact hre
  · have him := congrArg Complex.im hzero
    norm_num [Finset.sum_range_succ] at him
    exact him

end Transform

end EspDrivers.FftComp
