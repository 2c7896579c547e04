import EspDrivers.Buffers

/-! Rows of one length that follow each other: lengths rounded up in the bits of a word, the
regions of the rows, and loop nests that write them. -/
namespace EspDrivers.Strides
open Buffers

section Rounding
variable {m x y n v : Nat}

/-- The least multiple of `m` from `x` on. -/
def up (m x : Nat) : Nat := m * (x ⌈/⌉ m)

theorem dvd_up : m ∣ up m x := Nat.dvd_mul_right m _

theorem le_up (h : 0 < m) : x ≤ up m x := le_smul_ceilDiv h

theorem up_le (h : 0 < m) (hy : m ∣ y) (hle : x ≤ y) : up m x ≤ y := by
  obtain ⟨k, rfl⟩ := hy
  exact Nat.mul_le_mul_left m ((ceilDiv_le_iff_le_mul h).mpr hle)

@[simp] theorem up_zero (m : Nat) : up m 0 = 0 := by simp [up]

theorem up_eq (h : 0 < m) (hx : 0 < x) : up m x = m * ((x - 1) / m) + m := by
  have hsum : x + m - 1 = x - 1 + m := by omega
  rw [up, Nat.ceilDiv_eq_add_pred_div, hsum, Nat.add_div_right _ h, Nat.mul_succ]

theorem or_mask (v n : Nat) : n ||| (2 ^ v - 1) = 2 ^ v * (n / 2 ^ v) + (2 ^ v - 1) := by
  have hlt : 2 ^ v - 1 < 2 ^ v := Nat.sub_lt (Nat.two_pow_pos v) Nat.one_pos
  apply Nat.eq_of_testBit_eq
  intro k
  rw [Nat.testBit_two_pow_mul_add _ hlt, Nat.testBit_or, Nat.testBit_two_pow_sub_one]
  by_cases hk : k < v
  · simp [hk]
  · have hsub : k - v + v = k := by omega
    simp [hk, Nat.testBit_div_two_pow, hsub]

/-- Setting the low bits of `x - 1` and adding 1 rounds up to a power of two. -/
theorem toNat_roundWord {w : Nat} (x y : BitVec w) (h : y.toNat = 2 ^ v) :
    (((x - 1) ||| (y - 1)) + 1).toNat = up (2 ^ v) x.toNat % 2 ^ w := by
  have hv := Nat.two_pow_pos v
  have hy := y.isLt
  have hw : 1 < 2 ^ w := by
    cases w with
    | zero =>
      have hzero : y.toNat = 0 := by simpa using hy
      omega
    | succ w => exact Nat.one_lt_two_pow (Nat.succ_ne_zero w)
  have hone : (1 : BitVec w).toNat = 1 := by
    rw [BitVec.ofNat_eq_ofNat, BitVec.toNat_ofNat, Nat.mod_eq_of_lt hw]
  have hmask : (y - 1).toNat = 2 ^ v - 1 := by
    rw [BitVec.toNat_sub_of_le (by rw [BitVec.le_def, hone]; omega), hone, h]
  rw [BitVec.toNat_add, BitVec.toNat_or, hmask, hone, or_mask]
  by_cases hx : x.toNat = 0
  · have hdvd : 2 ^ v ∣ 2 ^ w := by
      refine Nat.pow_dvd_pow 2 ?_
      exact ((Nat.pow_lt_pow_iff_right Nat.one_lt_two).mp (h ▸ hy)).le
    have hsub : (x - 1).toNat = 2 ^ w - 1 := by
      have hmod : 2 ^ w - 1 < 2 ^ w := by omega
      rw [BitVec.toNat_sub, hone, hx, Nat.add_zero, Nat.mod_eq_of_lt hmod]
    have hup : up (2 ^ v) (2 ^ w) = 2 ^ w :=
      Nat.le_antisymm (up_le hv hdvd le_rfl) (le_up hv)
    rw [up_eq hv (Nat.two_pow_pos w)] at hup
    have hsum : 2 ^ v * ((2 ^ w - 1) / 2 ^ v) + (2 ^ v - 1) + 1 = 2 ^ w := by omega
    rw [hsub, hsum, hx, up_zero, Nat.mod_self, Nat.zero_mod]
  · have hsub : (x - 1).toNat = x.toNat - 1 := by
      rw [BitVec.toNat_sub_of_le (by rw [BitVec.le_def, hone]; omega), hone]
    rw [hsub, up_eq hv (Nat.pos_of_ne_zero hx)]
    congr 1
    omega

end Rounding

section Rows
variable {stride i j k l : Nat}

theorem place_inj (hj : j < stride) (hl : l < stride) (h : stride * i + j = stride * k + l) :
    i = k ∧ j = l := by
  have hdiv := congrArg (· / stride) h
  have hmod := congrArg (· % stride) h
  have hpos : 0 < stride := Nat.zero_lt_of_lt hj
  simp only [Nat.mul_add_div hpos, Nat.mul_add_mod, Nat.div_eq_of_lt hj, Nat.div_eq_of_lt hl,
    Nat.mod_eq_of_lt hj, Nat.mod_eq_of_lt hl, Nat.add_zero] at hdiv hmod
  exact ⟨hdiv, hmod⟩

theorem place_lt {n : Nat} (hi : i < n) (hj : j < stride) : stride * i + j < stride * n := by
  have hle := Nat.mul_le_mul_left stride (Nat.succ_le_of_lt hi)
  rw [Nat.mul_succ] at hle
  omega

/-- The parts are disjoint and fill the whole. -/
structure Tiles (n : Nat) (part : Nat → Set Nat) (whole : Set Nat) : Prop where
  covers : ∀ e, e ∈ whole ↔ ∃ i < n, e ∈ part i
  apart : ∀ i < n, ∀ k < n, ∀ e, e ∈ part i → e ∈ part k → i = k

def row (base stride i : Nat) : Set Nat := Set.Ico (base + stride * i) (base + stride * i + stride)

theorem mem_row {base e : Nat} : e ∈ row base stride i ↔ ∃ j < stride, e = base + (stride * i + j) := by
  rw [row, Set.mem_Ico]
  constructor
  · intro h
    exact ⟨e - (base + stride * i), by omega, by omega⟩
  · rintro ⟨j, hj, rfl⟩
    omega

theorem tiles_rows (base stride n : Nat) :
    Tiles n (row base stride) (Set.Ico base (base + stride * n)) := by
  constructor
  · intro e
    rw [Set.mem_Ico]
    constructor
    · intro h
      have hpos : 0 < stride := by
        by_contra hzero
        obtain rfl : stride = 0 := by omega
        omega
      refine ⟨(e - base) / stride, ?_, mem_row.mpr ⟨(e - base) % stride, Nat.mod_lt _ hpos, ?_⟩⟩
      · rw [Nat.div_lt_iff_lt_mul hpos, Nat.mul_comm]
        omega
      · rw [Nat.div_add_mod]
        omega
    · rintro ⟨i, hi, he⟩
      obtain ⟨j, hj, rfl⟩ := mem_row.mp he
      have hlt := place_lt hi hj
      omega
  · intro i _ k _ e hi hk
    obtain ⟨j, hj, rfl⟩ := mem_row.mp hi
    obtain ⟨l, hl, heq⟩ := mem_row.mp hk
    exact (place_inj hj hl (Nat.add_left_cancel heq)).1

end Rows

section Nests
variable {α ι κ σ : Type*}

theorem foldlM_nest (f : σ → ι → κ → Option σ) (is : List ι) (js : List κ) (s : σ) :
    is.foldlM (fun s i => js.foldlM (fun s j => f s i j) s) s =
      (is ×ˢ js).foldlM (fun s p => f s p.1 p.2) s := by
  induction is generalizing s with
  | nil => rfl
  | cons i is ih =>
    rw [List.product_cons, List.foldlM_append, List.foldlM_map, List.foldlM_cons]
    congr 1
    funext t
    exact ih t

/-- The places of `js` hold the new values, the other cells are as they were. -/
structure Scattered (js : List ι) (place : ι → Nat) (new : ι → α) (b c : Buffer α) : Prop where
  size : c.size = b.size
  written : ∀ j ∈ js, c.cell (place j) = new j
  kept : ∀ k, (∀ j ∈ js, k ≠ place j) → c.cell k = b.cell k

theorem foldlM_scatters {js : List ι} {place : ι → Nat} {value : ι → Option α} {new : ι → α}
    {b : Buffer α} (hinj : ∀ i ∈ js, ∀ j ∈ js, place i = place j → i = j)
    (hbound : ∀ j ∈ js, place j < b.size) (hvalue : ∀ j ∈ js, value j = some (new j)) :
    ∃ c, js.foldlM (fun b j => do b.store (place j) (← value j)) b = some c ∧
      Scattered js place new b c := by
  refine foldlM_ends js (fun done c => Scattered done place new b c) ?_ ?_
  · exact ⟨rfl, (fun j hj => by cases hj), fun k _ => rfl⟩
  · intro done j rest hjs c hc
    have hj : j ∈ js := by simp [hjs]
    have hlt : place j < c.size := hc.size ▸ hbound j hj
    refine ⟨⟨c.size, Function.update c.cell (place j) (new j)⟩, ?_, ⟨hc.size, ?_, ?_⟩⟩
    · rw [hvalue j hj]
      exact Buffer.store_eq hlt (new j)
    · intro i hi
      by_cases hplace : place i = place j
      · have himem : i ∈ js := by
          rw [hjs, List.append_cons]
          exact List.mem_append_left rest hi
        obtain rfl := hinj i himem j hj hplace
        exact Function.update_self _ _ _
      · have hdone : i ∈ done := by
          cases List.mem_append.mp hi with
          | inl hdone => exact hdone
          | inr hlast => exact absurd (congrArg place (List.mem_singleton.mp hlast)) hplace
        rw [← hc.written i hdone]
        exact Function.update_of_ne hplace _ _
    · intro k hk
      rw [← hc.kept k fun i hi => hk i (List.mem_append_left _ hi)]
      exact Function.update_of_ne (hk j (by simp)) _ _

/-- The columns below `len` of the rows below `n` hold the new values. -/
structure RowsWritten (base stride n len : Nat) (new : Nat → Nat → α) (b c : Buffer α) : Prop where
  size : c.size = b.size
  written : ∀ i < n, ∀ j < len, c.cell (base + (stride * i + j)) = new i j
  kept : ∀ k, (∀ i < n, ∀ j < len, k ≠ base + (stride * i + j)) → c.cell k = b.cell k

theorem foldlM_rows {base stride n len : Nat} {place : Nat → Nat → Nat}
    {value : Nat → Nat → Option α} {new : Nat → Nat → α} {b : Buffer α} (hlen : len ≤ stride)
    (hplace : ∀ i < n, ∀ j < len, place i j = base + (stride * i + j))
    (hbound : ∀ i < n, ∀ j < len, base + (stride * i + j) < b.size)
    (hvalue : ∀ i < n, ∀ j < len, value i j = some (new i j)) :
    ∃ c, (List.range n).foldlM (fun b i =>
        (List.range len).foldlM (fun b j => do b.store (place i j) (← value i j)) b) b = some c ∧
      RowsWritten base stride n len new b c := by
  have hmem (p : Nat × Nat) (hp : p ∈ List.range n ×ˢ List.range len) : p.1 < n ∧ p.2 < len := by
    simpa using List.mem_product.mp hp
  have hpair {i j : Nat} (hi : i < n) (hj : j < len) : (i, j) ∈ List.range n ×ˢ List.range len :=
    List.mem_product.mpr ⟨List.mem_range.mpr hi, List.mem_range.mpr hj⟩
  have hinj : ∀ p ∈ List.range n ×ˢ List.range len, ∀ q ∈ List.range n ×ˢ List.range len,
      place p.1 p.2 = place q.1 q.2 → p = q := by
    intro p hp q hq heq
    obtain ⟨hpi, hpj⟩ := hmem p hp
    obtain ⟨hqi, hqj⟩ := hmem q hq
    rw [hplace _ hpi _ hpj, hplace _ hqi _ hqj] at heq
    obtain ⟨hrow, hcol⟩ := place_inj (Nat.lt_of_lt_of_le hpj hlen) (Nat.lt_of_lt_of_le hqj hlen)
      (Nat.add_left_cancel heq)
    exact Prod.ext hrow hcol
  have hlt : ∀ p ∈ List.range n ×ˢ List.range len, place p.1 p.2 < b.size := by
    intro p hp
    obtain ⟨hi, hj⟩ := hmem p hp
    rw [hplace _ hi _ hj]
    exact hbound _ hi _ hj
  have hsome : ∀ p ∈ List.range n ×ˢ List.range len, value p.1 p.2 = some (new p.1 p.2) :=
    fun p hp => hvalue _ (hmem p hp).1 _ (hmem p hp).2
  rw [foldlM_nest (fun b i j => do Buffer.store b (place i j) (← value i j))]
  obtain ⟨c, hc, hs⟩ := foldlM_scatters hinj hlt hsome
  refine ⟨c, hc, hs.size, ?_, ?_⟩
  · intro i hi j hj
    rw [← hplace i hi j hj]
    exact hs.written (i, j) (hpair hi hj)
  · intro k hk
    refine hs.kept k ?_
    intro p hp
    obtain ⟨hi, hj⟩ := hmem p hp
    rw [hplace _ hi _ hj]
    exact hk _ hi _ hj

/-- `len` cells from `start` on went to the cells from `base` on. -/
structure Copied (src : Buffer α) (start base len : Nat) (b c : Buffer α) : Prop where
  size : c.size = b.size
  copied : ∀ k < len, c.cell (base + k) = src.cell (start + k)
  kept : ∀ k, (k < base ∨ base + len ≤ k) → c.cell k = b.cell k

theorem foldlM_copies {start base n m : Nat} {source place : Nat → Nat → Nat} {s b : Buffer α}
    (hplace : ∀ i < n, ∀ j < m, place i j = base + (m * i + j))
    (hsource : ∀ i < n, ∀ j < m, source i j = start + (m * i + j))
    (hs : start + m * n ≤ s.size) (hb : base + m * n ≤ b.size) :
    ∃ c, (List.range n).foldlM (fun b i => (List.range m).foldlM (fun b j => do
        b.store (place i j) (← s.load (source i j))) b) b = some c ∧
      Copied s start base (m * n) b c := by
  have hload : ∀ i < n, ∀ j < m,
      s.load (source i j) = some (s.cell (start + (m * i + j))) := by
    intro i hi j hj
    have hlt := place_lt hi hj
    rw [hsource i hi j hj]
    exact Buffer.load_eq (by omega)
  have hbound : ∀ i < n, ∀ j < m, base + (m * i + j) < b.size := by
    intro i hi j hj
    have hlt := place_lt hi hj
    omega
  obtain ⟨c, hc, hw⟩ := foldlM_rows le_rfl hplace hbound hload
  refine ⟨c, hc, hw.size, ?_, ?_⟩
  · intro k hk
    have hm : 0 < m := Nat.pos_of_ne_zero (by rintro rfl; omega)
    have hsplit := Nat.div_add_mod k m
    have hcell := hw.written (k / m) (Nat.div_lt_of_lt_mul hk) (k % m) (Nat.mod_lt k hm)
    rwa [hsplit] at hcell
  · intro k hk
    refine hw.kept k ?_
    intro i hi j hj heq
    have hlt := place_lt hi hj
    omega

theorem foldlM_copies_inside {n m i j : Nat} {source place : Nat → Nat → Nat} {s b c : Buffer α}
    (h : (List.range n).foldlM (fun b i => (List.range m).foldlM (fun b j => do
        b.store (place i j) (← s.load (source i j))) b) b = some c) (hi : i < n) (hj : j < m) :
    place i j < b.size ∧ source i j < s.size := by
  rw [foldlM_nest (fun b i j => do Buffer.store b (place i j) (← s.load (source i j)))] at h
  have hround (u : Buffer α) (q : Nat × Nat) (t : Buffer α)
      (ht : (do u.store (place q.1 q.2) (← s.load (source q.1 q.2))) = some t) :
      place q.1 q.2 < u.size ∧ source q.1 q.2 < s.size ∧ t.size = u.size := by
    obtain ⟨a, ha, hstore⟩ := Option.bind_eq_some_iff.mp ht
    obtain ⟨hlt, rfl⟩ := Buffer.store_some hstore
    exact ⟨hlt, (Buffer.load_some ha).1, rfl⟩
  obtain ⟨-, hall⟩ := foldlM_rounds (I := fun u : Buffer α => u.size = b.size)
    (fun u q t hu ht => (hround u q t ht).2.2.trans hu) rfl h
  obtain ⟨u, t, hu, ht⟩ := hall (i, j)
    (List.mem_product.mpr ⟨List.mem_range.mpr hi, List.mem_range.mpr hj⟩)
  have hin := hround u (i, j) t ht
  exact ⟨hu ▸ hin.1, hin.2.1⟩

end Nests

end EspDrivers.Strides
