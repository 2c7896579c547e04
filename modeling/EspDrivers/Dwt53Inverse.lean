import EspDrivers.Dwt53Passes

/-! The wavelet transform and its inverse restore every image whose number of pixels is an
int. The temporary buffer of a larger image is too small, or there is none. -/
namespace EspDrivers.Dwt53
open Buffers Lifting

section Undone
variable {nrows ncols k : Nat} {x y z w : Nat → Pixel}

theorem unpass_pass (hn : 2 ≤ ncols) (heven : 2 ∣ ncols) (hk : k < nrows * ncols) :
    unpass nrows ncols (pass nrows ncols x z) w k = x k := by
  have hpos : 0 < ncols := by omega
  have hrow : ∀ j, j / ncols = k / ncols →
      pass nrows ncols x z (target nrows ncols j) = forward ncols x j := by
    intro j hj
    have hlt : j < nrows * ncols := by
      rw [← below_rows hpos, hj, below_rows hpos]
      exact hk
    rw [pass, if_pos (target_lt heven hlt), source_target heven hlt]
  rw [unpass, if_pos hk, backward_congr hn heven hrow rfl, backward_forward hn heven]

theorem pass_unpass (hn : 2 ≤ ncols) (heven : 2 ∣ ncols) (hk : k < nrows * ncols) :
    pass nrows ncols (unpass nrows ncols x z) w k = x k := by
  have hpos : 0 < ncols := by omega
  have hrow : ∀ j, j / ncols = source nrows ncols k / ncols → unpass nrows ncols x z j =
      backward ncols (fun k => x (target nrows ncols k)) j := by
    intro j hj
    have hlt : j < nrows * ncols := by
      rw [← below_rows hpos, hj, below_rows hpos]
      exact source_lt heven hk
    rw [unpass, if_pos hlt]
  rw [pass, if_pos hk, forward_congr hn heven hrow rfl, forward_backward hn heven,
    target_source heven hk]

theorem pass_congr (hn : 2 ≤ ncols) (heven : 2 ∣ ncols) (h : ∀ k < nrows * ncols, x k = y k)
    (hk : k < nrows * ncols) : pass nrows ncols x z k = pass nrows ncols y w k := by
  have hpos : 0 < ncols := by omega
  rw [pass, pass, if_pos hk, if_pos hk]
  refine forward_congr hn heven (fun j hj => h j ?_) rfl
  rw [← below_rows hpos, hj, below_rows hpos]
  exact source_lt heven hk

theorem unpass_congr (hn : 2 ≤ ncols) (heven : 2 ∣ ncols) (h : ∀ k < nrows * ncols, x k = y k)
    (hk : k < nrows * ncols) : unpass nrows ncols x z k = unpass nrows ncols y w k := by
  have hpos : 0 < ncols := by omega
  rw [unpass, unpass, if_pos hk, if_pos hk]
  refine backward_congr hn heven (fun j hj => h _ (target_lt heven ?_)) rfl
  rw [← below_rows hpos, hj, below_rows hpos]
  exact hk

end Undone

section Invertible

/-- Two ints that are even and at least 2. -/
structure Dims where
  nrows : Nat
  ncols : Nat
  evenRows : 2 ∣ nrows
  evenCols : 2 ∣ ncols
  twoRows : 2 ≤ nrows
  twoCols : 2 ≤ ncols
  rowsInt : nrows < 2 ^ 31
  colsInt : ncols < 2 ^ 31

def Undoes (f g : Bool → Buffer Pixel → Nat → Nat → Option (Buffer Pixel × Int)) (d : Dims)
    (x : Nat → Pixel) : Prop :=
  ∃ y, f true ⟨d.nrows * d.ncols, x⟩ d.nrows d.ncols = some (y, 0) ∧
    g true y d.nrows d.ncols = some (⟨d.nrows * d.ncols, x⟩, 0)

variable {d : Dims} {x : Nat → Pixel} {n : Nat}

theorem callocPixels_eq (h : n < 2 ^ 31) : callocPixels true n = some ⟨n, fun _ => 0⟩ := by
  have hmsb : (BitVec.ofNat 32 n).msb = false := by
    rw [BitVec.msb_eq_false_iff_two_mul_lt, BitVec.toNat_ofNat]
    omega
  have hval : ((BitVec.ofNat 32 n).signExtend 64).toNat = n := by
    rw [BitVec.toNat_signExtend, hmsb, BitVec.toNat_setWidth, BitVec.toNat_ofNat]
    simp only [Bool.false_eq_true, if_false]
    omega
  rw [callocPixels, hval]
  simp only [Bool.true_and, decide_eq_true_eq]
  exact if_pos (by omega)

theorem dwt53_eq (h : d.nrows * d.ncols < 2 ^ 31) :
    dwt53 true ⟨d.nrows * d.ncols, x⟩ d.nrows d.ncols = some (⟨d.nrows * d.ncols,
      pass d.ncols d.nrows (pass d.nrows d.ncols x fun _ => 0)
        (belowRow d.ncols d.nrows (forward d.ncols x) x)⟩, 0) := by
  have hcols := fun x z => @dwt53RowTranspose_eq d.ncols d.nrows x z d.twoRows d.evenRows
    (by rw [Nat.mul_comm]; exact h.le)
  rw [Nat.mul_comm d.ncols] at hcols
  rw [dwt53, callocPixels_eq h]
  dsimp only
  rw [dwt53RowTranspose_eq d.twoCols d.evenCols h.le, Option.bind_eq_bind, Option.bind_some, hcols]
  rfl

theorem dwt53Inverse_eq (h : d.nrows * d.ncols < 2 ^ 31) :
    dwt53Inverse true ⟨d.nrows * d.ncols, x⟩ d.nrows d.ncols = some (⟨d.nrows * d.ncols,
      unpass d.nrows d.ncols (unpass d.ncols d.nrows x fun _ => 0) x⟩, 0) := by
  have hcols := fun x z => @dwt53RowTransposeInverse_eq d.ncols d.nrows x z d.twoRows d.evenRows
    (by rw [Nat.mul_comm]; exact h.le)
  rw [Nat.mul_comm d.ncols] at hcols
  rw [dwt53Inverse, callocPixels_eq h]
  dsimp only
  rw [hcols, Option.bind_eq_bind, Option.bind_some,
    dwt53RowTransposeInverse_eq d.twoCols d.evenCols h.le]
  rfl

theorem inverse_undoes (h : d.nrows * d.ncols < 2 ^ 31) : Undoes dwt53 dwt53Inverse d x := by
  refine ⟨_, dwt53_eq h, ?_⟩
  rw [dwt53Inverse_eq h]
  congr 3
  funext k
  have hcomm := Nat.mul_comm d.ncols d.nrows
  by_cases hk : k < d.nrows * d.ncols
  · have hcols : ∀ j < d.nrows * d.ncols, unpass d.ncols d.nrows (pass d.ncols d.nrows
        (pass d.nrows d.ncols x fun _ => 0) (belowRow d.ncols d.nrows (forward d.ncols x) x))
          (fun _ => 0) j = pass d.nrows d.ncols x (fun _ => 0) j := by
      intro j hj
      exact unpass_pass d.twoRows d.evenRows (hcomm ▸ hj)
    rw [unpass_congr (w := x) d.twoCols d.evenCols hcols hk, unpass_pass d.twoCols d.evenCols hk]
  · have hrow : ¬ k / d.ncols < d.nrows := by
      rw [below_rows (Nat.lt_of_lt_of_le Nat.two_pos d.twoCols)]
      exact hk
    rw [unpass, if_neg hk, pass, hcomm, if_neg hk, belowRow, if_neg hrow]

theorem dwt53_undoes (h : d.nrows * d.ncols < 2 ^ 31) : Undoes dwt53Inverse dwt53 d x := by
  refine ⟨_, dwt53Inverse_eq h, ?_⟩
  rw [dwt53_eq h]
  congr 3
  funext k
  have hcomm := Nat.mul_comm d.ncols d.nrows
  by_cases hk : k < d.nrows * d.ncols
  · have hrows : ∀ j < d.ncols * d.nrows, pass d.nrows d.ncols (unpass d.nrows d.ncols
        (unpass d.ncols d.nrows x fun _ => 0) x) (fun _ => 0) j =
          unpass d.ncols d.nrows x (fun _ => 0) j := by
      intro j hj
      exact pass_unpass d.twoCols d.evenCols (hcomm ▸ hj)
    rw [pass_congr (w := x) d.twoRows d.evenRows hrows (hcomm ▸ hk),
      pass_unpass d.twoRows d.evenRows (hcomm ▸ hk)]
  · have hrow : ¬ k / d.ncols < d.nrows := by
      rw [below_rows (Nat.lt_of_lt_of_le Nat.two_pos d.twoCols)]
      exact hk
    rw [pass, hcomm, if_neg hk, belowRow, if_neg hrow, unpass, if_neg hk]

theorem callocPixels_some {b : Buffer Pixel} (h : callocPixels true n = some b) :
    b.size = n % 2 ^ 32 ∧ b.size < 2 ^ 31 := by
  simp only [callocPixels, Bool.true_and, decide_eq_true_eq] at h
  split at h
  · next hfit =>
    obtain rfl := Option.some.inj h
    dsimp only
    rw [BitVec.toNat_signExtend, BitVec.toNat_setWidth, BitVec.toNat_ofNat] at hfit ⊢
    cases hmsb : (BitVec.ofNat 32 n).msb with
    | true =>
      rw [hmsb, if_pos rfl] at hfit
      omega
    | false =>
      rw [BitVec.msb_eq_false_iff_two_mul_lt, BitVec.toNat_ofNat] at hmsb
      simp only [Bool.false_eq_true, if_false]
      omega
  · cases h

theorem set_some {b c : Buffer Pixel} {v : Pixel} (h : set b n v = some c) :
    n % 2 ^ 32 < 2 ^ 31 ∧ n % 2 ^ 32 < b.size ∧ c.size = b.size := by
  obtain ⟨k, hk, h⟩ := Option.bind_eq_some_iff.mp h
  obtain ⟨hlt, rfl⟩ := Buffer.store_some h
  rw [intIndex] at hk
  split at hk
  · next hint =>
    obtain rfl := Option.some.inj hk
    exact ⟨hint, hlt, rfl⟩
  · cases hk

theorem splitRow_some {nrows ncols i : Nat} {data b c : Buffer Pixel} (heven : 2 ∣ ncols)
    (h : splitRow nrows ncols i data b = some c) : c.size = b.size ∧
      ∀ j < ncols, (j * nrows + i) % 2 ^ 32 < 2 ^ 31 ∧ (j * nrows + i) % 2 ^ 32 < b.size := by
  have hround : ∀ (s : Buffer Pixel) (j : Nat) (t : Buffer Pixel), s.size = b.size →
      ((do
        let low ← get data (i * ncols + 2 * j)
        let data2 ← set s (j * nrows + i) low
        let high ← get data (i * ncols + 2 * j + 1)
        set data2 ((j + ncols / 2) * nrows + i) high) = some t) → t.size = b.size ∧
      ∀ k, k = j ∨ k = j + ncols / 2 →
        (k * nrows + i) % 2 ^ 32 < 2 ^ 31 ∧ (k * nrows + i) % 2 ^ 32 < b.size := by
    intro s j t hs ht
    obtain ⟨low, -, ht⟩ := Option.bind_eq_some_iff.mp ht
    obtain ⟨u, hu, ht⟩ := Option.bind_eq_some_iff.mp ht
    obtain ⟨high, -, ht⟩ := Option.bind_eq_some_iff.mp ht
    obtain ⟨hint, hlt, hsize⟩ := set_some hu
    obtain ⟨hint', hlt', hsize'⟩ := set_some ht
    refine ⟨by omega, ?_⟩
    rintro k (rfl | rfl)
    · exact ⟨hint, hs ▸ hlt⟩
    · exact ⟨hint', by omega⟩
  obtain ⟨hsize, hrounds⟩ := foldlM_rounds (I := fun s => s.size = b.size)
    (fun s j t hs ht => (hround s j t hs ht).1) rfl h
  refine ⟨hsize, ?_⟩
  intro j hj
  by_cases hlow : j < ncols / 2
  · obtain ⟨u, v, hu, hv⟩ := hrounds j (List.mem_range.mpr hlow)
    exact (hround u j v hu hv).2 j (Or.inl rfl)
  · obtain ⟨u, v, hu, hv⟩ := hrounds (j - ncols / 2) (List.mem_range.mpr (by omega))
    exact (hround u _ v hu hv).2 j (Or.inr (by omega))

theorem dwt53RowTranspose_some {nrows ncols : Nat} {data b : Buffer Pixel}
    {s : Buffer Pixel × Buffer Pixel} (heven : 2 ∣ ncols) (hrows : 0 < nrows)
    (h : dwt53RowTranspose data b nrows ncols = some s) :
    ∀ j < ncols, j * nrows % 2 ^ 32 < 2 ^ 31 ∧ j * nrows % 2 ^ 32 < b.size := by
  have hround : ∀ (s : Buffer Pixel × Buffer Pixel) (i : Nat) (t : Buffer Pixel × Buffer Pixel),
      s.2.size = b.size → ((do
        let data ← predictRow (· - ·) ncols i s.1
        let data ← updateRow (· + ·) ncols i data
        let data2 ← splitRow nrows ncols i data s.2
        some (data, data2)) = some t) → t.2.size = b.size ∧ ∀ j < ncols,
          (j * nrows + i) % 2 ^ 32 < 2 ^ 31 ∧ (j * nrows + i) % 2 ^ 32 < b.size := by
    intro s i t hs ht
    obtain ⟨data', -, ht⟩ := Option.bind_eq_some_iff.mp ht
    obtain ⟨data'', -, ht⟩ := Option.bind_eq_some_iff.mp ht
    obtain ⟨c, hc, ht⟩ := Option.bind_eq_some_iff.mp ht
    obtain rfl := Option.some.inj ht
    obtain ⟨hsize, hall⟩ := splitRow_some heven hc
    rw [hs] at hsize hall
    exact ⟨hsize, hall⟩
  obtain ⟨-, hrounds⟩ := foldlM_rounds (I := fun s : Buffer Pixel × Buffer Pixel =>
    s.2.size = b.size) (fun s i t hs ht => (hround s i t hs ht).1) rfl h
  obtain ⟨u, v, hu, hv⟩ := hrounds 0 (List.mem_range.mpr hrows)
  exact (hround u 0 v hu hv).2

/-- The first place that the small buffer does not have is less than 2 ^ 32, so that it is
not mistaken for another one. -/
theorem small_of_undoes {g : Bool → Buffer Pixel → Nat → Nat → Option (Buffer Pixel × Int)}
    (h : Undoes dwt53 g d x) : d.nrows * d.ncols < 2 ^ 31 := by
  by_contra hbig
  obtain ⟨y, hy, -⟩ := h
  rw [dwt53] at hy
  cases hc : callocPixels true (d.nrows * d.ncols) with
  | none =>
    rw [hc] at hy
    cases hy
  | some b =>
    rw [hc] at hy
    obtain ⟨s, hs, -⟩ := Option.bind_eq_some_iff.mp hy
    obtain ⟨hsize, hlt⟩ := callocPixels_some hc
    have hrows : 0 < d.nrows := Nat.lt_of_lt_of_le Nat.two_pos d.twoRows
    have hint := d.rowsInt
    have hall := dwt53RowTranspose_some d.evenCols hrows hs
    have hmod := Nat.div_add_mod (b.size + d.nrows - 1) d.nrows
    have hrest := Nat.mod_lt (b.size + d.nrows - 1) hrows
    have hj : (b.size + d.nrows - 1) / d.nrows < d.ncols := by
      refine (Nat.div_lt_iff_lt_mul hrows).mpr ?_
      rw [Nat.mul_comm]
      omega
    have hplace := (hall _ hj).2
    rw [Nat.mul_comm, Nat.mod_eq_of_lt (by omega)] at hplace
    omega

/-- Both compositions restore the image exactly when the number of pixels is an int. -/
theorem dwt53_invertible (d : Dims) (x : Nat → Pixel) :
    (Undoes dwt53 dwt53Inverse d x ∧ Undoes dwt53Inverse dwt53 d x) ↔
      d.nrows * d.ncols < 2 ^ 31 :=
  ⟨fun h => small_of_undoes h.1, fun h => ⟨inverse_undoes h, dwt53_undoes h⟩⟩

/-- An image of 2 ^ 32 pixels, for which calloc is asked for none. -/
theorem square_not_restored : ¬ ∀ (d : Dims) (x : Nat → Pixel), Undoes dwt53 dwt53Inverse d x := by
  intro h
  have hsmall := small_of_undoes (h ⟨65536, 65536, by decide, by decide, by decide, by decide,
    by decide, by decide⟩ fun _ => 0)
  revert hsmall
  decide

end Invertible

end EspDrivers.Dwt53
