import EspDrivers.MedianFilter

/-! The reference run of visionchip.c. init_buf stores frames of 16-bit pixels, ensemble_1 filters
a frame and equalises it. hist has a bin for a pixel of any value, histEq reads LUT at the value
itself, so all depends on what the medians of a frame are. -/
namespace EspDrivers.Vision
open Buffers Checked Ranks

section Code

def defaultNbppIn : Nat := 8

def defaultNbppOut : Nat := 8

def nPxls (rows cols : Nat) : Nat := rows * cols % 2 ^ 32

/-- What the last loops of init_buf change. -/
structure Images where
  hbufI : Int
  hbuf : Buffer (BitVec 8)
  sbufIn : Buffer Int

def storePixel (rawBuf : Buffer (BitVec 16)) (t : Images) (j : Nat) : Option Images := do
  let v ← rawBuf.load j
  let k ← index t.hbufI
  let hbuf ← t.hbuf.store k (v.setWidth 8)
  let sbufIn ← t.sbufIn.store k (v.toNat : Int)
  let hbufI ← int (t.hbufI + 1)
  some ⟨hbufI, hbuf, sbufIn⟩

/-- init_buf, from the pixels of the file on. -/
def initBuf (rawBuf : Buffer (BitVec 16)) (nimages rows cols : Nat) (hbuf : Buffer (BitVec 8))
    (sbufIn : Buffer Int) : Option Images :=
  (List.range nimages).foldlM (fun t _ =>
    (List.range (nPxls rows cols)).foldlM (storePixel rawBuf) t) ⟨0, hbuf, sbufIn⟩

/-- buf_in of visionchip_comp for image `i`. -/
def bufIn (sbufIn : Buffer Int) (i rows cols : Nat) : Buffer Int :=
  let start := i * cols * rows % 2 ^ 32
  ⟨sbufIn.size - start, fun k => sbufIn.cell (start + k)⟩

def memcpy (dst src : Buffer Int) (n : Nat) : Option (Buffer Int) :=
  if n ≤ dst.size ∧ n ≤ src.size then
    some ⟨dst.size, fun k => if k < n then src.cell k else dst.cell k⟩
  else none

/-- The calls of calloc of ensemble_1. -/
structure Memory where
  h : Bool
  wrkBuf1 : Bool
  wrkBuf2 : Bool
  pxlList : Bool
  histEq : Callocs

/-- ensemble_1 up to nf. There is no image when ensemble_1 has no memory for its buffers. -/
def filtered (memory : Memory) (streamA : Buffer Int) (nRows nCols : Int) (nInpBpp : Nat) :
    Option (Option (Buffer Int)) := do
  let _ ← shiftOne nInpBpp
  let n ← int (nRows * nCols)
  if !(memory.h && memory.wrkBuf1 && memory.wrkBuf2) then some none
  else
    let wrkBuf1 ← memcpy (zeros n.toNat) streamA n.toNat
    let wrkBuf2 ← clear (zeros n.toNat) n.toNat
    let (_, wrkBuf2) ← nf memory.pxlList wrkBuf1 wrkBuf2 nRows nCols
    some (some wrkBuf2)

/-- DEFAULT_DO_DWT is 0, and err is what histEq returns. -/
def ensemble1 (memory : Memory) (streamA out : Buffer Int) (nRows nCols : Int)
    (nInpBpp nOutBpp : Nat) : Option (Int × Buffer Int) := do
  match ← filtered memory streamA nRows nCols nInpBpp with
  | none => some (-1, out)
  | some wrkBuf2 =>
    let nHistBins ← shiftOne nInpBpp
    let (_, h) ← hist wrkBuf2 (some (zeros nHistBins.toNat)) nRows nCols nInpBpp
    histEq memory.histEq wrkBuf2 out (← h) nRows nCols nInpBpp nOutBpp

end Code

section Frames
variable {rawBuf : Buffer (BitVec 16)} {t t' : Images} {n m i j rows cols nimages : Nat}

/-- The first `m` pixels of `sbuf_in` are those of the file, over and over. -/
structure Loaded (rawBuf : Buffer (BitVec 16)) (n m : Nat) (t : Images) : Prop where
  next : t.hbufI = m
  small : m < 2 ^ 31
  fits : m ≤ t.sbufIn.size
  cells : ∀ k < m, t.sbufIn.cell k = (rawBuf.cell (k % n)).toNat

theorem Loaded.step (hl : Loaded rawBuf n m t) (hj : m % n = j)
    (h : storePixel rawBuf t j = some t') : Loaded rawBuf n (m + 1) t' := by
  obtain ⟨v, hv, h⟩ := Option.bind_eq_some_iff.mp h
  obtain ⟨k, hk, h⟩ := Option.bind_eq_some_iff.mp h
  obtain ⟨hbuf, -, h⟩ := Option.bind_eq_some_iff.mp h
  obtain ⟨sbufIn, hstore, h⟩ := Option.bind_eq_some_iff.mp h
  obtain ⟨next, hnext, h⟩ := Option.bind_eq_some_iff.mp h
  obtain rfl := Option.some.inj h
  obtain rfl : k = m := by
    rw [hl.next, index_natCast] at hk
    exact (Option.some.inj hk).symm
  obtain ⟨hlt, rfl⟩ := Buffer.store_some hstore
  obtain ⟨hint, rfl⟩ := int_some hnext
  obtain ⟨-, rfl⟩ := Buffer.load_some hv
  have hsum := hl.next
  refine ⟨?_, by omega, hlt, ?_⟩
  · rw [hl.next]
    norm_cast
  · intro l hmem
    by_cases heq : l = k
    · rw [heq, hj]
      exact Function.update_self _ _ _
    · rw [← hl.cells l (by omega)]
      exact Function.update_of_ne heq _ _

theorem initBuf_loads {hbuf : Buffer (BitVec 8)} {sbufIn : Buffer Int}
    (h : initBuf rawBuf nimages rows cols hbuf sbufIn = some t) :
    Loaded rawBuf (nPxls rows cols) (nPxls rows cols * nimages) t := by
  refine foldlM_range_keeps (fun i t => Loaded rawBuf (nPxls rows cols) (nPxls rows cols * i) t)
    ⟨rfl, by norm_num, Nat.zero_le _, fun k hk => by omega⟩ ?_ h
  intro i _ t u hl himage
  refine foldlM_range_keeps (fun j t => Loaded rawBuf (nPxls rows cols) (nPxls rows cols * i + j) t)
    hl ?_ himage
  intro j hj t u hl hpixel
  refine hl.step ?_ hpixel
  rw [Nat.mul_add_mod, Nat.mod_eq_of_lt hj]

theorem Loaded.frame (hl : Loaded rawBuf (nPxls rows cols) (nPxls rows cols * nimages) t)
    (hsmall : rows * cols < 2 ^ 31) (hi : i < nimages) :
    rows * cols ≤ (bufIn t.sbufIn i rows cols).size ∧
      ∀ k < rows * cols, (bufIn t.sbufIn i rows cols).cell k = (rawBuf.cell k).toNat := by
  have hn : nPxls rows cols = rows * cols := Nat.mod_eq_of_lt (by omega)
  rw [hn] at hl
  have hle := Nat.mul_le_mul_left (rows * cols) (Nat.succ_le_of_lt hi)
  rw [Nat.mul_succ] at hle
  have hfits := hl.fits
  have hbound := hl.small
  have hstart : i * cols * rows % 2 ^ 32 = rows * cols * i := by
    have heq : i * cols * rows = rows * cols * i := by ring
    rw [heq]
    exact Nat.mod_eq_of_lt (by omega)
  rw [bufIn, hstart]
  refine ⟨?_, ?_⟩
  · dsimp only
    omega
  · intro k hk
    dsimp only
    rw [hl.cells _ (by omega), Nat.mul_add_mod, Nat.mod_eq_of_lt hk]

end Frames

def Memory.all (memory : Memory) : Bool :=
  memory.h && memory.wrkBuf1 && memory.wrkBuf2 && memory.pxlList && memory.histEq.cdf &&
    memory.histEq.lut

def WindowsInRange (rawBuf : Buffer (BitVec 16)) (rows cols nInpBpp : Nat) : Prop :=
  ∀ r c, Inner rows cols r c → 5 ≤ window.countP fun d =>
    (rawBuf.cell (((r : Int) + d.1) * cols + c + d.2).toNat).toNat < 2 ^ nInpBpp

/-- The last loop of histEq gives every pixel the entry of the bin that hist counts it in. -/
def LutReadsInside (memory : Memory) (streamA : Buffer Int) (nRows nCols : Int) (nInpBpp : Nat) :
    Prop :=
  ∃ image, filtered memory streamA nRows nCols nInpBpp = some image ∧
    ∀ wrkBuf2, image = some wrkBuf2 → memory.histEq.cdf = true → memory.histEq.lut = true →
      ∀ lut out : Buffer Int, lut.size = 2 ^ nInpBpp → (nRows * nCols).toNat ≤ out.size →
        ∃ out', applyLut lut wrkBuf2 out (nRows * nCols).toNat = some out' ∧
          ∀ i < (nRows * nCols).toNat,
            out'.cell i = lut.cell (binOf (2 ^ nInpBpp) (wrkBuf2.cell i))

section Reads
variable {lut streamA out : Buffer Int} {n b : Nat}

theorem lookup_some {i : Nat} {v : Int} (h : lookup lut streamA i = some v) :
    streamA.cell i < lut.size := by
  obtain ⟨x, hx, h⟩ := Option.bind_eq_some_iff.mp h
  obtain ⟨k, hk, hload⟩ := Option.bind_eq_some_iff.mp h
  obtain ⟨-, rfl⟩ := Buffer.load_some hx
  have hlt := (Buffer.load_some hload).1
  rw [index] at hk
  split at hk
  · obtain rfl := Option.some.inj hk
    omega
  · cases hk

theorem applyLut_some_iff (hs : n ≤ streamA.size) (ho : n ≤ out.size)
    (hv : ∀ i < n, 0 ≤ streamA.cell i) :
    (∃ out', applyLut lut streamA out n = some out') ↔ ∀ i < n, streamA.cell i < lut.size := by
  constructor
  · rintro ⟨out', h⟩ i hi
    obtain ⟨-, hall⟩ := foldlM_rounds (I := fun _ => True) (fun _ _ _ _ _ => trivial) trivial h
    obtain ⟨u, v, -, hround⟩ := hall i (List.mem_range.mpr hi)
    obtain ⟨x, hx, -⟩ := Option.bind_eq_some_iff.mp hround
    exact lookup_some hx
  · intro hlt
    obtain ⟨out', h, -⟩ := applyLut_eq hs ho fun i hi => ⟨hv i hi, hlt i hi⟩
    exact ⟨out', h⟩

theorem applyLut_bins_iff (hs : n ≤ streamA.size) (hv : ∀ i < n, 0 ≤ streamA.cell i) :
    (∀ lut out : Buffer Int, lut.size = b → n ≤ out.size →
      ∃ out', applyLut lut streamA out n = some out' ∧
        ∀ i < n, out'.cell i = lut.cell (binOf b (streamA.cell i))) ↔
      ∀ i < n, streamA.cell i < b := by
  constructor
  · intro h
    obtain ⟨out', hout, -⟩ := h (zeros b) (zeros n) rfl le_rfl
    exact (applyLut_some_iff hs le_rfl hv).mp ⟨out', hout⟩
  · intro hlt lut out hsize ho
    obtain ⟨out', hout, hcells⟩ := @applyLut_eq streamA lut out n hs ho
      fun i hi => ⟨hv i hi, hsize ▸ hlt i hi⟩
    refine ⟨out', hout, ?_⟩
    intro i hi
    rw [binOf_of_lt (hlt i hi)]
    exact hcells i hi

end Reads

section Ensemble
variable {memory : Memory} {rawBuf : Buffer (BitVec 16)} {streamA out : Buffer Int}
  {rows cols nInpBpp nOutBpp : Nat}

theorem windowAt_frame {r c : Nat} (hin : Inner rows cols r c)
    (hcells : ∀ k < rows * cols, streamA.cell k = (rawBuf.cell k).toNat) (n : Nat) :
    (windowAt streamA cols r c).countP (· < (n : Int)) = window.countP fun d =>
      (rawBuf.cell (((r : Int) + d.1) * cols + c + d.2).toNat).toNat < n := by
  rw [windowAt, List.countP_map]
  refine List.countP_congr ?_
  intro d hd
  simp only [Function.comp_apply, decide_eq_true_eq, hcells _ (neighbour_lt hin hd)]
  norm_cast

theorem clear_zeros (n : Nat) : clear (zeros n) n = some (zeros n) := by simp [clear, zeros]

theorem filtered_frame (hmem : (memory.h && memory.wrkBuf1 && memory.wrkBuf2) = true)
    (hinp : nInpBpp ≤ 30) (hrows : rows < 2 ^ 31) (hcols : cols < 2 ^ 31)
    (hsmall : rows * cols < 2 ^ 31) (hsize : rows * cols ≤ streamA.size)
    (hcells : ∀ k < rows * cols, streamA.cell k = (rawBuf.cell k).toNat) :
    ∃ wrkBuf2, filtered memory streamA rows cols nInpBpp = some (some wrkBuf2) ∧
      wrkBuf2.size = rows * cols ∧ (∀ k, 0 ≤ wrkBuf2.cell k) ∧
      ((∀ k < rows * cols, wrkBuf2.cell k < (2 ^ nInpBpp : Nat)) ↔
        (memory.pxlList = true → WindowsInRange rawBuf rows cols nInpBpp)) := by
  have hbufs : filtered memory streamA rows cols nInpBpp = (nf memory.pxlList
      ⟨rows * cols, fun k => if k < rows * cols then streamA.cell k else 0⟩ (zeros (rows * cols))
      rows cols).map fun r => some r.2 := by
    rw [filtered, shiftOne, if_pos hinp, hmem, ← Nat.cast_mul, int_natCast hsmall]
    simp only [Option.bind_eq_bind, Option.bind_some, Int.toNat_natCast, clear_zeros, Bool.not_true,
      Bool.false_eq_true, if_false]
    rw [memcpy, if_pos ⟨le_rfl, hsize⟩, Option.map_eq_bind]
    rfl
  have hpow : (0 : Int) < (2 ^ nInpBpp : Nat) := by exact_mod_cast Nat.two_pow_pos nInpBpp
  cases hlist : memory.pxlList with
  | false =>
    refine ⟨zeros (rows * cols), by rw [hbufs, hlist]; rfl, rfl, fun k => le_rfl, ?_⟩
    exact iff_of_true (fun k _ => hpow) (fun h => by cases h)
  | true =>
    obtain ⟨wrkBuf2, hfilter, hf⟩ := @slowMedian3x3_filters
      ⟨rows * cols, fun k => if k < rows * cols then streamA.cell k else 0⟩ (zeros (rows * cols))
      rows cols hrows hcols hsmall le_rfl le_rfl
    have hsrc : ∀ k < rows * cols,
        (if k < rows * cols then streamA.cell k else 0) = (rawBuf.cell k).toNat := by
      intro k hk
      rw [if_pos hk, hcells k hk]
    refine ⟨wrkBuf2, ?_, hf.size, ?_, ?_⟩
    · rw [hbufs, hlist, nf, hfilter]
      rfl
    · refine hf.nonneg (fun k => le_rfl) ?_
      intro k hk
      dsimp only
      rw [hsrc k hk]
      exact Int.natCast_nonneg _
    · rw [hf.lt_iff fun k => hpow]
      simp only [forall_const, WindowsInRange]
      refine forall_congr' fun r => forall_congr' fun c => forall_congr' fun hin => ?_
      rw [windowAt_frame hin hsrc]

theorem ensemble1_ends_iff {n : Nat} {nRows nCols : Int} {wrkBuf2 : Buffer Int}
    (hinp : 1 ≤ nInpBpp ∧ nInpBpp ≤ 30) (hout : 1 ≤ nOutBpp ∧ nOutBpp ≤ 30)
    (hn : nRows * nCols = n) (hpos : 1 ≤ n) (hfits : n * (2 ^ nOutBpp - 1) < 2 ^ 31)
    (hfilter : filtered memory streamA nRows nCols nInpBpp = some (some wrkBuf2))
    (hsize : n ≤ wrkBuf2.size) (hv : ∀ i < n, 0 ≤ wrkBuf2.cell i) (ho : n ≤ out.size) :
    (∃ r, ensemble1 memory streamA out nRows nCols nInpBpp nOutBpp = some r) ↔
      (memory.histEq.cdf = true → memory.histEq.lut = true →
        ∀ i < n, wrkBuf2.cell i < (2 ^ nInpBpp : Nat)) := by
  have hM : 2 ≤ 2 ^ nOutBpp := Nat.le_self_pow (by omega) 2
  have hsmall : n < 2 ^ 31 := (Nat.le_mul_of_pos_right n (by omega)).trans_lt hfits
  have hbins : ((2 ^ nInpBpp : Int)).toNat = 2 ^ nInpBpp := by norm_cast
  obtain ⟨h', hhist, hc⟩ := @hist_counts wrkBuf2 (zeros (2 ^ nInpBpp)) n nRows nCols nInpBpp hinp.2
    hn hsmall hsize hv le_rfl
  have hrun : ensemble1 memory streamA out nRows nCols nInpBpp nOutBpp =
      histEq memory.histEq wrkBuf2 out h' nRows nCols nInpBpp nOutBpp := by
    rw [ensemble1, hfilter, shiftOne, if_pos hinp.2]
    simp only [Option.bind_eq_bind, Option.bind_some, hbins, hhist]
  rw [hrun]
  cases hmem : memory.histEq.cdf && memory.histEq.lut with
  | false =>
    refine iff_of_true ⟨_, histEq_fails hinp.2 hout.2 hmem⟩ ?_
    intro hcdf hlut
    simp [hcdf, hlut] at hmem
  | true =>
    obtain ⟨hcdf, hlut⟩ : memory.histEq.cdf = true ∧ memory.histEq.lut = true := by
      simpa using hmem
    have hboth : memory.histEq = ⟨true, true⟩ := congrArg₂ Callocs.mk hcdf hlut
    obtain ⟨m, lut, -, hlutSize, -, heq⟩ := histEq_table hinp hout hn hpos hfits hv hc
    rw [hboth, heq, ← hlutSize, ← applyLut_some_iff hsize ho hv]
    simp

theorem filtered_small {image : Option (Buffer Int)}
    (h : filtered memory streamA rows cols nInpBpp = some image) : rows * cols < 2 ^ 31 := by
  obtain ⟨b, -, h⟩ := Option.bind_eq_some_iff.mp h
  obtain ⟨n, hn, -⟩ := Option.bind_eq_some_iff.mp h
  have hrange := (int_some hn).1.2
  exact_mod_cast hrange

theorem lutReads_iff {n : Nat} {nRows nCols : Int} {wrkBuf2 : Buffer Int} (hn : nRows * nCols = n)
    (hfilter : filtered memory streamA nRows nCols nInpBpp = some (some wrkBuf2))
    (hsize : n ≤ wrkBuf2.size) (hv : ∀ i < n, 0 ≤ wrkBuf2.cell i) :
    LutReadsInside memory streamA nRows nCols nInpBpp ↔
      (memory.histEq.cdf = true → memory.histEq.lut = true →
        ∀ i < n, wrkBuf2.cell i < (2 ^ nInpBpp : Nat)) := by
  rw [LutReadsInside, hn, Int.toNat_natCast, hfilter]
  constructor
  · rintro ⟨image, himage, hreads⟩ hcdf hlut
    exact (applyLut_bins_iff hsize hv).mp (hreads wrkBuf2 (Option.some.inj himage).symm hcdf hlut)
  · intro hlt
    refine ⟨_, rfl, ?_⟩
    intro wrk hwrk hcdf hlut
    obtain rfl := Option.some.inj hwrk
    exact (applyLut_bins_iff hsize hv).mpr (hlt hcdf hlut)

theorem filtered_cases (memory : Memory) (hinp : nInpBpp ≤ 30) (hrows : rows < 2 ^ 31)
    (hcols : cols < 2 ^ 31) (hsmall : rows * cols < 2 ^ 31) (hsize : rows * cols ≤ streamA.size)
    (hcells : ∀ k < rows * cols, streamA.cell k = (rawBuf.cell k).toNat) :
    filtered memory streamA rows cols nInpBpp = some none ∧ memory.all = false ∨
      ∃ wrkBuf2, filtered memory streamA rows cols nInpBpp = some (some wrkBuf2) ∧
        rows * cols ≤ wrkBuf2.size ∧ (∀ k < rows * cols, 0 ≤ wrkBuf2.cell k) ∧
        ((memory.histEq.cdf = true → memory.histEq.lut = true →
            ∀ k < rows * cols, wrkBuf2.cell k < (2 ^ nInpBpp : Nat)) ↔
          (memory.all = true → WindowsInRange rawBuf rows cols nInpBpp)) := by
  cases hmem : memory.h && memory.wrkBuf1 && memory.wrkBuf2 with
  | false =>
    refine .inl ⟨?_, by rw [Memory.all, hmem]; rfl⟩
    rw [filtered, shiftOne, if_pos hinp, hmem, ← Nat.cast_mul, int_natCast hsmall]
    rfl
  | true =>
    obtain ⟨wrkBuf2, hfilter, hwrk, hv, hlt⟩ := filtered_frame hmem hinp hrows hcols hsmall hsize
      hcells
    refine .inr ⟨wrkBuf2, hfilter, hwrk.ge, fun k _ => hv k, ?_⟩
    rw [hlt, Memory.all, hmem]
    simp only [Bool.true_and, Bool.and_eq_true]
    constructor
    · intro h hall
      exact h hall.1.2 hall.2 hall.1.1
    · intro h hcdf hlut hlist
      exact h ⟨⟨hlist, hcdf⟩, hlut⟩

theorem lutReads_frame_iff (memory : Memory) (hinp : nInpBpp ≤ 30) (hrows : rows < 2 ^ 31)
    (hcols : cols < 2 ^ 31) (hsmall : rows * cols < 2 ^ 31) (hsize : rows * cols ≤ streamA.size)
    (hcells : ∀ k < rows * cols, streamA.cell k = (rawBuf.cell k).toNat) :
    LutReadsInside memory streamA rows cols nInpBpp ↔
      (memory.all = true → WindowsInRange rawBuf rows cols nInpBpp) := by
  have hn : (rows : Int) * cols = (rows * cols : Nat) := (Nat.cast_mul rows cols).symm
  obtain ⟨hnone, hall⟩ | ⟨wrkBuf2, hfilter, hwrk, hv, hiff⟩ :=
    filtered_cases memory hinp hrows hcols hsmall hsize hcells
  · exact iff_of_true ⟨none, hnone, fun wrk hwrk => by cases hwrk⟩ fun h => by simp [hall] at h
  · rw [lutReads_iff hn hfilter hwrk hv, hiff]

theorem ensemble1_frame_iff (memory : Memory) (hinp : 1 ≤ nInpBpp ∧ nInpBpp ≤ 30)
    (hout : 1 ≤ nOutBpp ∧ nOutBpp ≤ 30) (hrows : rows < 2 ^ 31) (hcols : cols < 2 ^ 31)
    (hpos : 1 ≤ rows * cols) (hfits : rows * cols * (2 ^ nOutBpp - 1) < 2 ^ 31)
    (hsmall : rows * cols < 2 ^ 31) (hsize : rows * cols ≤ streamA.size)
    (hcells : ∀ k < rows * cols, streamA.cell k = (rawBuf.cell k).toNat)
    (ho : rows * cols ≤ out.size) :
    (∃ r, ensemble1 memory streamA out rows cols nInpBpp nOutBpp = some r) ↔
      (memory.all = true → WindowsInRange rawBuf rows cols nInpBpp) := by
  have hn : (rows : Int) * cols = (rows * cols : Nat) := (Nat.cast_mul rows cols).symm
  obtain ⟨hnone, hall⟩ | ⟨wrkBuf2, hfilter, hwrk, hv, hiff⟩ :=
    filtered_cases memory hinp.2 hrows hcols hsmall hsize hcells
  · refine iff_of_true ⟨(-1, out), ?_⟩ fun h => by simp [hall] at h
    rw [ensemble1, hnone]
    rfl
  · rw [ensemble1_ends_iff hinp hout hn hpos hfits hfilter hwrk hv ho, hiff]

/-- LUT is read inside its bounds, and a small file gets its result, when every inner window of the
file has five pixels in range or some calloc fails. -/
theorem lutReads_inside_iff (memory : Memory) {t : Images} {nimages i : Nat}
    {hbuf : Buffer (BitVec 8)} {sbufIn : Buffer Int} (hrows : rows < 2 ^ 31) (hcols : cols < 2 ^ 31)
    (hload : initBuf rawBuf nimages rows cols hbuf sbufIn = some t) (hi : i < nimages) :
    (LutReadsInside memory (bufIn t.sbufIn i rows cols) rows cols defaultNbppIn ↔
      rows * cols < 2 ^ 31 ∧ (memory.all = true → WindowsInRange rawBuf rows cols defaultNbppIn)) ∧
    ∀ out : Buffer Int, rows * cols ≤ out.size → 1 ≤ rows * cols →
      rows * cols * (2 ^ defaultNbppOut - 1) < 2 ^ 31 →
      ((∃ r, ensemble1 memory (bufIn t.sbufIn i rows cols) out rows cols defaultNbppIn
          defaultNbppOut = some r) ↔
        (memory.all = true → WindowsInRange rawBuf rows cols defaultNbppIn)) := by
  constructor
  · constructor
    · intro hreads
      obtain ⟨image, himage, -⟩ := id hreads
      have hsmall := filtered_small himage
      obtain ⟨hsize, hcells⟩ := (initBuf_loads hload).frame hsmall hi
      exact ⟨hsmall, (lutReads_frame_iff memory (by decide) hrows hcols hsmall hsize hcells).mp
        hreads⟩
    · rintro ⟨hsmall, hwindows⟩
      obtain ⟨hsize, hcells⟩ := (initBuf_loads hload).frame hsmall hi
      exact (lutReads_frame_iff memory (by decide) hrows hcols hsmall hsize hcells).mpr hwindows
  · intro out ho hpos hfits
    have hbound : 0 < 2 ^ defaultNbppOut - 1 := by decide
    have hsmall := (Nat.le_mul_of_pos_right (rows * cols) hbound).trans_lt hfits
    obtain ⟨hsize, hcells⟩ := (initBuf_loads hload).frame hsmall hi
    exact ensemble1_frame_iff memory (by decide) (by decide) hrows hcols hpos hfits hsmall hsize
      hcells ho

theorem lutReads_inside_four_large : ∃ t,
    initBuf ⟨9, fun k => if k < 4 then 300 else 7⟩ 1 3 3 ⟨9, fun _ => 0⟩ (zeros 9) = some t ∧
      LutReadsInside ⟨true, true, true, true, ⟨true, true⟩⟩ (bufIn t.sbufIn 0 3 3) 3 3
        defaultNbppIn := by
  obtain ⟨t, hload⟩ := Option.isSome_iff_exists.mp (by decide +kernel :
    (initBuf ⟨9, fun k => if k < 4 then 300 else 7⟩ 1 3 3 ⟨9, fun _ => 0⟩ (zeros 9)).isSome)
  refine ⟨t, hload, (lutReads_inside_iff _ (by decide) (by decide) hload (by decide)).1.mpr ?_⟩
  refine ⟨by decide, fun _ r c hin => ?_⟩
  obtain ⟨htop, hbottom, hleft, hright⟩ := hin
  obtain ⟨rfl, rfl⟩ : r = 1 ∧ c = 1 := by omega
  decide

theorem nine_large_pixels_leave_lut : ∃ t,
    initBuf ⟨9, fun _ => 256⟩ 1 3 3 ⟨9, fun _ => 0⟩ (zeros 9) = some t ∧
      ¬ LutReadsInside ⟨true, true, true, true, ⟨true, true⟩⟩ (bufIn t.sbufIn 0 3 3) 3 3
        defaultNbppIn := by
  obtain ⟨t, hload⟩ := Option.isSome_iff_exists.mp
    (by decide +kernel : (initBuf ⟨9, fun _ => 256⟩ 1 3 3 ⟨9, fun _ => 0⟩ (zeros 9)).isSome)
  refine ⟨t, hload, ?_⟩
  intro hreads
  obtain ⟨hsize, hcells⟩ := (initBuf_loads hload).frame (by decide) (by decide : 0 < 1)
  have hwindows := (lutReads_frame_iff _ (by decide) (by decide) (by decide) (by decide) hsize
    hcells).mp hreads rfl
  exact absurd (hwindows 1 1 ⟨by decide, by decide, by decide, by decide⟩) (by decide)

end Ensemble

end EspDrivers.Vision
