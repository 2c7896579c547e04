import EspDrivers.HistEq

/-! The noise filter of visionchip.c. A pixel that is not at the border becomes the median of
the nine pixels of its window, so it is below a bound when five of them are. -/
namespace EspDrivers.Vision
open Buffers Checked Ranks Strides

section Code

def comparePxls (p1 p2 : Int) : Int := if p1 < p2 then -1 else if p1 = p2 then 0 else 1

/-- qsort with comparePxls. -/
def sortPxls (pxlList : List Int) : List Int :=
  pxlList.mergeSort fun p1 p2 => comparePxls p1 p2 ≤ 0

def window : List (Int × Int) := [-1, 0, 1] ×ˢ [-1, 0, 1]

def loadNeighbour (src : Buffer Int) (nCols r c : Int) (d : Int × Int) : Option Int := do
  let row ← int (r + d.1)
  let start ← int (row * nCols)
  let col ← int (start + c)
  src.load (← index (← int (col + d.2)))

def median (src : Buffer Int) (nCols r c : Int) : Option Int := do
  let pxlList ← window.mapM (loadNeighbour src nCols r c)
  (sortPxls pxlList)[4]?

def storeMedian (src : Buffer Int) (nCols : Int) (dst : Buffer Int) (r c : Nat) :
    Option (Buffer Int) := do
  let v ← median src nCols r c
  let start ← int (r * nCols)
  dst.store (← index (← int (start + c))) v

/-- `pxlList` tells if calloc has the memory for the list. -/
def slowMedian3x3 (pxlList : Bool) (src dst : Buffer Int) (nRows nCols : Int) :
    Option (Int × Buffer Int) :=
  if !pxlList then some (-1, dst)
  else do
    let lastRow ← int (nRows - 1)
    let dst ← (steps 1 lastRow.toNat 1).foldlM (fun dst r => do
      let lastCol ← int (nCols - 1)
      (steps 1 lastCol.toNat 1).foldlM (fun dst c => storeMedian src nCols dst r c) dst) dst
    some (0, dst)

def nf (pxlList : Bool) (streamA out : Buffer Int) (nRows nCols : Int) :
    Option (Int × Buffer Int) :=
  slowMedian3x3 pxlList streamA out nRows nCols

end Code

def windowAt (src : Buffer Int) (cols r c : Nat) : List Int :=
  window.map fun d => src.cell (((r : Int) + d.1) * cols + c + d.2).toNat

structure Inner (rows cols r c : Nat) : Prop where
  top : 1 ≤ r
  bottom : r + 1 < rows
  left : 1 ≤ c
  right : c + 1 < cols

section Median
variable {src dst : Buffer Int} {rows cols r c : Nat} {v : Int}

theorem comparePxls_le_iff {p1 p2 : Int} : comparePxls p1 p2 ≤ 0 ↔ p1 ≤ p2 := by
  rw [comparePxls]
  split_ifs
  · omega
  · omega
  · omega

theorem sortPxls_perm (pxlList : List Int) : (sortPxls pxlList).Perm pxlList :=
  List.mergeSort_perm pxlList _

theorem sortPxls_sorted (pxlList : List Int) : (sortPxls pxlList).Pairwise (· ≤ ·) := by
  have h := @List.pairwise_mergeSort _ (fun p1 p2 => decide (comparePxls p1 p2 ≤ 0))
    (fun a b c => by simp only [decide_eq_true_eq, comparePxls_le_iff]; omega)
    (fun a b => by simp only [Bool.or_eq_true, decide_eq_true_eq, comparePxls_le_iff]; omega) pxlList
  exact h.imp fun hle => comparePxls_le_iff.mp (of_decide_eq_true hle)

/-- The median of nine is below a bound when five of them are. -/
theorem median_lt_iff {pxlList : List Int} (h : (sortPxls pxlList)[4]? = some v) (t : Int) :
    v < t ↔ 5 ≤ pxlList.countP (· < t) := by
  rw [lt_iff_lt_countP (sortPxls_sorted pxlList) h, (sortPxls_perm pxlList).countP_eq]
  exact Nat.lt_iff_add_one_le

theorem pixel_lt (hr : r < rows) (hc : c < cols) : r * cols + c < rows * cols := by
  rw [Nat.mul_comm r, Nat.mul_comm rows]
  exact place_lt hr hc

theorem int_place (hr : r < rows) (hc : c < cols) (hsmall : rows * cols < 2 ^ 31) :
    int ((r : Int) * cols) = some ((r * cols : Nat) : Int) ∧
      int (((r * cols : Nat) : Int) + c) = some ((r * cols + c : Nat) : Int) := by
  have hlt := pixel_lt hr hc
  rw [← Nat.cast_mul, ← Nat.cast_add]
  exact ⟨int_natCast (by omega), int_natCast (by omega)⟩

theorem neighbour_place (hin : Inner rows cols r c) {d : Int × Int} (hd : d ∈ window) :
    ∃ a b : Nat, a < rows ∧ b < cols ∧ (r : Int) + d.1 = a ∧
      (a : Int) * cols + c + d.2 = ((a * cols + b : Nat) : Int) := by
  obtain ⟨htop, hbottom, hleft, hright⟩ := hin
  have hrange : (-1 ≤ d.1 ∧ d.1 ≤ 1) ∧ -1 ≤ d.2 ∧ d.2 ≤ 1 := by
    revert d
    decide
  have hcol : (c : Int) + d.2 = (c + d.2).toNat := by omega
  refine ⟨(r + d.1).toNat, (c + d.2).toNat, by omega, by omega, by omega, ?_⟩
  rw [Int.add_assoc, hcol]
  norm_cast

theorem neighbour_lt (hin : Inner rows cols r c) {d : Int × Int} (hd : d ∈ window) :
    (((r : Int) + d.1) * cols + c + d.2).toNat < rows * cols := by
  obtain ⟨a, b, ha, hb, hrow, hplace⟩ := neighbour_place hin hd
  rw [hrow, hplace, Int.toNat_natCast]
  exact pixel_lt ha hb

theorem loadNeighbour_eq (hin : Inner rows cols r c) (hsize : rows * cols ≤ src.size)
    (hsmall : rows * cols < 2 ^ 31) {d : Int × Int} (hd : d ∈ window) :
    loadNeighbour src cols r c d = some (src.cell ((r + d.1) * cols + c + d.2).toNat) := by
  obtain ⟨a, b, ha, hb, hrow, hplace⟩ := neighbour_place hin hd
  have hlt := pixel_lt ha hb
  have hrows : rows ≤ rows * cols := Nat.le_mul_of_pos_right rows (by omega)
  obtain ⟨hstart, hsum⟩ := int_place ha (Nat.lt_of_succ_lt hin.right) hsmall
  have hcol : ((a * cols + c : Nat) : Int) + d.2 = ((a * cols + b : Nat) : Int) := by
    rw [← hplace, Nat.cast_add, Nat.cast_mul]
  rw [loadNeighbour, hrow, int_natCast (by omega : a < 2 ^ 31), Option.bind_eq_bind,
    Option.bind_some, hstart, Option.bind_some, hsum, Option.bind_some, hcol,
    int_natCast (by omega : a * cols + b < 2 ^ 31), Option.bind_some, index_natCast, hplace,
    Int.toNat_natCast]
  exact Buffer.load_eq (by omega)

theorem median_eq (hin : Inner rows cols r c) (hsize : rows * cols ≤ src.size)
    (hsmall : rows * cols < 2 ^ 31) :
    ∃ v, median src cols r c = some v ∧ (sortPxls (windowAt src cols r c))[4]? = some v := by
  have hload : window.mapM (loadNeighbour src cols r c) = some (windowAt src cols r c) :=
    mapM_some fun d hd => loadNeighbour_eq hin hsize hsmall hd
  have hlength : (sortPxls (windowAt src cols r c)).length = 9 := by
    rw [(sortPxls_perm _).length_eq, windowAt, List.length_map]
    rfl
  refine ⟨_, ?_, List.getElem?_eq_getElem (hlength ▸ by decide)⟩
  rw [median, hload]
  exact List.getElem?_eq_getElem _

theorem Inner.lt (hin : Inner rows cols r c) : r * cols + c < rows * cols :=
  pixel_lt (Nat.lt_of_succ_lt hin.bottom) (Nat.lt_of_succ_lt hin.right)

theorem Inner.inj {k l : Nat} (hin : Inner rows cols r c) (hkl : Inner rows cols k l)
    (h : r * cols + c = k * cols + l) : r = k ∧ c = l := by
  rw [Nat.mul_comm r, Nat.mul_comm k] at h
  exact place_inj (Nat.lt_of_succ_lt hin.right) (Nat.lt_of_succ_lt hkl.right) h

theorem mem_rounds {p : Nat × Nat} :
    p ∈ steps 1 (rows - 1) 1 ×ˢ steps 1 (cols - 1) 1 ↔ Inner rows cols p.1 p.2 := by
  rw [List.mem_product, mem_steps Nat.one_pos, mem_steps Nat.one_pos]
  constructor
  · rintro ⟨hr, hc⟩
    exact ⟨by omega, by omega, by omega, by omega⟩
  · rintro ⟨htop, hbottom, hleft, hright⟩
    exact ⟨⟨htop, by omega, Nat.one_dvd _⟩, hleft, by omega, Nat.one_dvd _⟩

theorem storeMedian_eq (hin : Inner rows cols r c) (hsmall : rows * cols < 2 ^ 31)
    (hv : median src cols r c = some v) (dst : Buffer Int) :
    storeMedian src cols dst r c = dst.store (r * cols + c) v := by
  obtain ⟨hstart, hsum⟩ := int_place (Nat.lt_of_succ_lt hin.bottom) (Nat.lt_of_succ_lt hin.right)
    hsmall
  rw [storeMedian, hv, Option.bind_eq_bind, Option.bind_some, hstart, Option.bind_some, hsum,
    Option.bind_some, index_natCast]
  rfl

/-- The inner pixels are medians, the others are as they were. -/
structure Filtered (src : Buffer Int) (rows cols : Nat) (dst dst' : Buffer Int) : Prop where
  size : dst'.size = dst.size
  inner : ∀ r c, Inner rows cols r c →
    (sortPxls (windowAt src cols r c))[4]? = some (dst'.cell (r * cols + c))
  kept : ∀ k, (∀ r c, Inner rows cols r c → k ≠ r * cols + c) → dst'.cell k = dst.cell k

theorem slowMedian3x3_filters (hrows : rows < 2 ^ 31) (hcols : cols < 2 ^ 31)
    (hsmall : rows * cols < 2 ^ 31) (hsrc : rows * cols ≤ src.size) (hdst : rows * cols ≤ dst.size) :
    ∃ dst', slowMedian3x3 true src dst rows cols = some (0, dst') ∧
      Filtered src rows cols dst dst' := by
  have hvalue : ∀ p ∈ steps 1 (rows - 1) 1 ×ˢ steps 1 (cols - 1) 1,
      median src cols p.1 p.2 = some (((sortPxls (windowAt src cols p.1 p.2))[4]?).getD 0) := by
    intro p hp
    obtain ⟨v, hv, hsorted⟩ := median_eq (mem_rounds.mp hp) hsrc hsmall
    rw [hv, hsorted]
    rfl
  have hstore : ∀ p ∈ steps 1 (rows - 1) 1 ×ˢ steps 1 (cols - 1) 1, ∀ b : Buffer Int,
      storeMedian src cols b p.1 p.2 =
        (do b.store (p.1 * cols + p.2) (← median src cols p.1 p.2)) := by
    intro p hp b
    rw [hvalue p hp]
    exact storeMedian_eq (mem_rounds.mp hp) hsmall (hvalue p hp) b
  obtain ⟨dst', hloop, hs⟩ := foldlM_scatters
    (fun p hp q hq heq => Prod.ext_iff.mpr ((mem_rounds.mp hp).inj (mem_rounds.mp hq) heq))
    (fun p hp => (mem_rounds.mp hp).lt.trans_le hdst) hvalue
  have hlast {n : Nat} (hn : n < 2 ^ 31) : int ((n : Int) - 1) = some ((n : Int) - 1) :=
    int_eq (by omega) (by omega)
  have hbound {n : Nat} : ((n : Int) - 1).toNat = n - 1 := by omega
  refine ⟨dst', ?_, hs.size, ?_, ?_⟩
  · rw [slowMedian3x3, hlast hrows]
    simp only [Option.bind_eq_bind, Option.bind_some, hlast hcols, hbound]
    rw [foldlM_nest (fun dst r c => storeMedian src cols dst r c), foldlM_congr hstore, hloop]
    rfl
  · intro r c hin
    obtain ⟨v, -, hsorted⟩ := median_eq hin hsrc hsmall
    rw [hs.written (r, c) (mem_rounds.mpr hin), hsorted]
    rfl
  · intro k hk
    exact hs.kept k fun p hp => hk p.1 p.2 (mem_rounds.mp hp)

variable {dst' : Buffer Int}

theorem Filtered.lt_iff (hf : Filtered src rows cols dst dst') {t : Int}
    (hold : ∀ k, dst.cell k < t) : (∀ k < rows * cols, dst'.cell k < t) ↔
      ∀ r c, Inner rows cols r c → 5 ≤ (windowAt src cols r c).countP (· < t) := by
  constructor
  · intro hlt r c hin
    exact (median_lt_iff (hf.inner r c hin) t).mp (hlt _ hin.lt)
  · intro hcount k _
    by_cases hk : ∃ r c, Inner rows cols r c ∧ k = r * cols + c
    · obtain ⟨r, c, hin, rfl⟩ := hk
      exact (median_lt_iff (hf.inner r c hin) t).mpr (hcount r c hin)
    · rw [hf.kept k fun r c hin heq => hk ⟨r, c, hin, heq⟩]
      exact hold k

theorem Filtered.nonneg (hf : Filtered src rows cols dst dst') (hold : ∀ k, 0 ≤ dst.cell k)
    (hsrc : ∀ k < rows * cols, 0 ≤ src.cell k) (k : Nat) : 0 ≤ dst'.cell k := by
  by_cases hk : ∃ r c, Inner rows cols r c ∧ k = r * cols + c
  · obtain ⟨r, c, hin, rfl⟩ := hk
    have hmem := (sortPxls_perm _).mem_iff.mp (List.mem_of_getElem? (hf.inner r c hin))
    obtain ⟨d, hd, heq⟩ := List.mem_map.mp hmem
    rw [← heq]
    exact hsrc _ (neighbour_lt hin hd)
  · rw [hf.kept k fun r c hin heq => hk ⟨r, c, hin, heq⟩]
    exact hold k

end Median

end EspDrivers.Vision
