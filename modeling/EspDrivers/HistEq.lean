import EspDrivers.Checked
import EspDrivers.Ranks
import EspDrivers.Strides

/-! Histogram equalisation of visionchip.c. hist counts the pixels of each value, histEq sums
the counts up, scales them and sends every pixel through the table it gets. An int expression
that overflows, a division by zero and an access outside a buffer have no result. -/
namespace EspDrivers.Vision
open Buffers Checked Ranks Strides

section Code

/-- `1 << n` as an `int`. -/
def shiftOne (n : Nat) : Option Int := if n ≤ 30 then some (2 ^ n) else none

def divide (x y : Int) : Option Int := if y = 0 then none else int (x.tdiv y)

def index (i : Int) : Option Nat := if 0 ≤ i then some i.toNat else none

def clear (b : Buffer Int) (n : Nat) : Option (Buffer Int) :=
  if n ≤ b.size then some ⟨b.size, fun k => if k < n then 0 else b.cell k⟩ else none

def increment (h : Buffer Int) (bin : Int) : Option (Buffer Int) := do
  let k ← index bin
  let count ← int ((← h.load k) + 1)
  h.store k count

/-- hist counts a value that is out of range in the last bin. -/
def countPixel (streamA : Buffer Int) (nBins : Int) (h : Buffer Int) (i : Nat) :
    Option (Buffer Int) := do
  let v ← streamA.load i
  if nBins ≤ v then increment h (← int (nBins - 1)) else increment h v

/-- `h` is `none` for NULL. -/
def hist (streamA : Buffer Int) (h : Option (Buffer Int)) (nRows nCols : Int) (nBpp : Nat) :
    Option (Int × Option (Buffer Int)) := do
  let nBins ← shiftOne nBpp
  let nPxls ← int (nRows * nCols)
  match h with
  | none => some (-1, none)
  | some h =>
    let h ← clear h nBins.toNat
    let h ← (List.range nPxls.toNat).foldlM (countPixel streamA nBins) h
    some (0, some h)

def intMax : Int := 2 ^ 31 - 1

def accumulate (h cdf : Buffer Int) (nInpBins : Int) : Option (Int × Buffer Int) :=
  (List.range nInpBins.toNat).foldlM (fun s i => do
    let sum ← int (s.1 + (← h.load i))
    let cdf ← s.2.store i sum
    some (sum, cdf)) (0, cdf)

def smallestBin (h : Buffer Int) (nInpBins : Int) : Option Int :=
  (List.range nInpBins.toNat).foldlM (fun m i => do
    let x ← h.load i
    some (if m < x then m else x)) intMax

/-- An entry of LUT: the product comes before the quotient. -/
def lutEntry (count cdfMin nOutBins nPxls : Int) : Option Int := do
  let rank ← int (count - cdfMin)
  let scaled ← int (rank * (← int (nOutBins - 1)))
  divide scaled (← int (nPxls - cdfMin))

def fillLut (cdf lut : Buffer Int) (cdfMin nInpBins nOutBins nPxls : Int) : Option (Buffer Int) :=
  (List.range nInpBins.toNat).foldlM (fun lut i => do
    lut.store i (← (do lutEntry (← cdf.load i) cdfMin nOutBins nPxls))) lut

def lookup (lut streamA : Buffer Int) (i : Nat) : Option Int := do
  lut.load (← index (← streamA.load i))

def applyLut (lut streamA out : Buffer Int) (nPxls : Nat) : Option (Buffer Int) :=
  (List.range nPxls).foldlM (fun out i => do out.store i (← lookup lut streamA i)) out

structure Callocs where
  cdf : Bool
  lut : Bool

def zeros (n : Nat) : Buffer Int := ⟨n, fun _ => 0⟩

def histEq (memory : Callocs) (streamA out h : Buffer Int) (nRows nCols : Int)
    (nInpBpp nOutBpp : Nat) : Option (Int × Buffer Int) := do
  let nOutBins ← shiftOne nOutBpp
  let nInpBins ← shiftOne nInpBpp
  if !(memory.cdf && memory.lut) then some (-1, out)
  else
    let nPxls ← int (nRows * nCols)
    let (_, cdf) ← accumulate h (zeros nInpBins.toNat) nInpBins
    let cdfMin ← smallestBin h nInpBins
    let lut ← fillLut cdf (zeros nInpBins.toNat) cdfMin nInpBins nOutBins nPxls
    let out ← applyLut lut streamA out nPxls.toNat
    some (0, out)

end Code

def binOf (nBins : Nat) (v : Int) : Nat := if nBins ≤ v then nBins - 1 else v.toNat

section Hist
variable {streamA h : Buffer Int} {n b : Nat}

theorem index_natCast (k : Nat) : index (k : Int) = some k := if_pos (Int.natCast_nonneg k)

theorem binOf_lt {v : Int} (hb : 0 < b) (hv : 0 ≤ v) : binOf b v < b := by
  rw [binOf]
  split
  · omega
  · omega

theorem binOf_of_lt {v : Int} (h : v < b) : binOf b v = v.toNat := if_neg (by omega)

theorem increment_eq {k : Nat} {c : Int} (hk : k < h.size) (hc : h.cell k = c) (hlow : 0 ≤ c)
    (hhigh : c + 1 < 2 ^ 31) : increment h k = some ⟨h.size, Function.update h.cell k (c + 1)⟩ := by
  rw [increment, index_natCast, Option.bind_eq_bind, Option.bind_some, Buffer.load_eq hk, hc]
  simp only [Option.bind_eq_bind, Option.bind_some, int_eq (by omega : -2 ^ 31 ≤ c + 1) hhigh]
  exact Buffer.store_eq hk _

theorem countPixel_eq {i : Nat} (hb : 0 < b) (hbig : b ≤ 2 ^ 30) (hi : i < streamA.size)
    (hv : 0 ≤ streamA.cell i) : countPixel streamA b h i = increment h (binOf b (streamA.cell i)) := by
  rw [countPixel, Buffer.load_eq hi, Option.bind_eq_bind, Option.bind_some]
  by_cases hle : (b : Int) ≤ streamA.cell i
  · have hint : int ((b : Int) - 1) = some ((b - 1 : Nat) : Int) := by
      rw [int_eq (by omega) (by omega)]
      congr 1
      omega
    rw [if_pos hle, hint, binOf, if_pos hle]
    rfl
  · rw [if_neg hle, binOf, if_neg hle, Int.toNat_of_nonneg hv]

structure Counted (streamA : Buffer Int) (b n : Nat) (h : Buffer Int) : Prop where
  size : b ≤ h.size
  bins : ∀ k < b, h.cell k = tally (fun i => binOf b (streamA.cell i)) n k

theorem Counted.step {i : Nat} (hc : Counted streamA b i h) (hb : 0 < b) (hbig : b ≤ 2 ^ 30)
    (hi : i < streamA.size) (hv : 0 ≤ streamA.cell i) (hn : i + 1 < 2 ^ 31) :
    ∃ h', countPixel streamA b h i = some h' ∧ Counted streamA b (i + 1) h' := by
  have hlt := binOf_lt hb hv
  have htally := tally_le (fun i => binOf b (streamA.cell i)) i (binOf b (streamA.cell i))
  rw [countPixel_eq hb hbig hi hv, increment_eq (hlt.trans_le hc.size) (hc.bins _ hlt) (by omega)
    (by omega)]
  refine ⟨_, rfl, hc.size, ?_⟩
  intro k hk
  rw [tally_succ]
  by_cases heq : k = binOf b (streamA.cell i)
  · rw [heq]
    simp
  · dsimp only
    rw [Function.update_of_ne heq, hc.bins k hk, if_neg fun he => heq he.symm, Nat.add_zero]

theorem hist_counts {nRows nCols : Int} {nBpp : Nat} (hbpp : nBpp ≤ 30) (hn : nRows * nCols = n)
    (hsmall : n < 2 ^ 31) (hstream : n ≤ streamA.size) (hv : ∀ i < n, 0 ≤ streamA.cell i)
    (hh : 2 ^ nBpp ≤ h.size) :
    ∃ h', hist streamA (some h) nRows nCols nBpp = some (0, some h') ∧
      Counted streamA (2 ^ nBpp) n h' := by
  have hpos : 0 < 2 ^ nBpp := Nat.two_pow_pos nBpp
  have hbig : 2 ^ nBpp ≤ 2 ^ 30 := Nat.pow_le_pow_right (by norm_num) hbpp
  have hcast : (2 ^ nBpp : Int) = ((2 ^ nBpp : Nat) : Int) := by norm_cast
  have hstart : Counted streamA (2 ^ nBpp) 0
      ⟨h.size, fun k => if k < 2 ^ nBpp then 0 else h.cell k⟩ := by
    refine ⟨hh, ?_⟩
    intro k hk
    simp [hk, tally]
  obtain ⟨h', hloop, hc⟩ := foldlM_range_ends n (Counted streamA (2 ^ nBpp)) hstart
    (fun i hi h hc => hc.step hpos hbig (by omega) (hv i hi) (by omega))
  refine ⟨h', ?_, hc⟩
  rw [hist, shiftOne, if_pos hbpp, hn, int_eq (by omega) (by omega), hcast]
  simp only [Option.bind_eq_bind, Option.bind_some, Int.toNat_natCast, clear, if_pos hh, hloop]

end Hist

section Tables
variable {h cdf lut : Buffer Int} {bins : Nat → Nat} {b n m M : Nat}

structure Summed (bins : Nat → Nat) (size i : Nat) (s : Int × Buffer Int) : Prop where
  size : s.2.size = size
  sum : s.1 = (∑ j ∈ Finset.range i, bins j : Nat)
  cells : ∀ k < i, s.2.cell k = running bins k

theorem accumulate_sums (hh : b ≤ h.size) (hc : b ≤ cdf.size) (hbins : ∀ k < b, h.cell k = bins k)
    (hsum : ∑ j ∈ Finset.range b, bins j < 2 ^ 31) :
    ∃ s, accumulate h cdf b = some s ∧ Summed bins cdf.size b s := by
  rw [accumulate, Int.toNat_natCast]
  refine foldlM_range_ends b (Summed bins cdf.size) ⟨rfl, rfl, fun k hk => by omega⟩ ?_
  intro i hi s hs
  have hnext : s.1 + h.cell i = (running bins i : Nat) := by
    rw [hs.sum, hbins i hi, running, Finset.sum_range_succ]
    norm_cast
  have hle : running bins i < 2 ^ 31 := (running_le_sum hi).trans_lt hsum
  have hin : i < s.2.size := by
    rw [hs.size]
    omega
  rw [Buffer.load_eq (by omega : i < h.size)]
  simp only [Option.bind_eq_bind, Option.bind_some, hnext,
    int_eq (by omega : -2 ^ 31 ≤ ((running bins i : Nat) : Int)) (by omega), Buffer.store_eq hin]
  refine ⟨_, rfl, hs.size, rfl, ?_⟩
  intro k hk
  by_cases heq : k = i
  · rw [heq]
    exact Function.update_self _ _ _
  · rw [← hs.cells k (by omega)]
    exact Function.update_of_ne heq _ _

theorem smallestBin_least (hh : b ≤ h.size) (hbins : ∀ k < b, h.cell k = bins k) :
    ∃ m : Nat, smallestBin h b = some (m : Int) ∧ ∀ k < b, m ≤ bins k := by
  have hends : ∃ m : Int, smallestBin h b = some m ∧ 0 ≤ m ∧ ∀ k < b, m ≤ bins k := by
    rw [smallestBin, Int.toNat_natCast]
    refine foldlM_range_ends b (fun i (m : Int) => 0 ≤ m ∧ ∀ k < i, m ≤ bins k) ?_ ?_
    · exact ⟨by norm_num [intMax], fun k hk => by omega⟩
    · intro i hi m hm
      refine ⟨_, by rw [Buffer.load_eq (by omega : i < h.size)]; rfl, ?_, ?_⟩
      · rw [hbins i hi]
        split
        · exact hm.1
        · omega
      · intro k hk
        rw [hbins i hi]
        by_cases heq : k = i
        · subst heq
          split
          · omega
          · rfl
        · have hold := hm.2 k (by omega)
          split
          · exact hold
          · omega
  obtain ⟨m, hm, hlow, hle⟩ := hends
  lift m to Nat using hlow
  exact ⟨m, hm, fun k hk => by exact_mod_cast hle k hk⟩

theorem lutEntry_eq {c : Nat} (hm : m < n) (hlow : m ≤ c) (hhigh : c ≤ n) (hn : n < 2 ^ 31)
    (hM : M < 2 ^ 30) (hfits : n * M < 2 ^ 31) :
    lutEntry c m (M + 1 : Nat) n = some ((equalise n m M c : Nat) : Int) := by
  have hrank : (c : Int) - m = ((c - m : Nat) : Int) := by omega
  have htop : ((M + 1 : Nat) : Int) - 1 = M := by omega
  have hrest : (n : Int) - m = ((n - m : Nat) : Int) := by omega
  have hscaled : (c - m) * M < 2 ^ 31 :=
    (Nat.mul_le_mul_right M ((Nat.sub_le c m).trans hhigh)).trans_lt hfits
  have hle : equalise n m M c ≤ M := equalise_le hm hhigh
  have hscale : int ((c - m : Nat) * M : Int) = some (((c - m) * M : Nat) : Int) := by
    rw [← Nat.cast_mul]
    exact int_natCast hscaled
  rw [lutEntry, hrank, htop, hrest, int_natCast (by omega : c - m < 2 ^ 31), Option.bind_eq_bind,
    Option.bind_some, int_natCast (by omega : M < 2 ^ 31), Option.bind_some, hscale,
    Option.bind_some, int_natCast (by omega : n - m < 2 ^ 31), Option.bind_some]
  rw [equalise] at hle ⊢
  rw [divide, if_neg (by omega), ← Int.ofNat_tdiv]
  exact int_natCast (by omega)

theorem fillLut_equalises (hc : b ≤ cdf.size) (hlut : lut.size = b)
    (hcdf : ∀ k < b, cdf.cell k = running bins k) (hmin : ∀ k < b, m ≤ bins k) (hm : m < n)
    (hsum : ∑ j ∈ Finset.range b, bins j = n) (hn : n < 2 ^ 31) (hM : M < 2 ^ 30)
    (hfits : n * M < 2 ^ 31) :
    ∃ lut', fillLut cdf lut m b (M + 1 : Nat) n = some lut' ∧ lut'.size = b ∧
      ∀ k < b, lut'.cell k = (equalise n m M (running bins k) : Nat) := by
  have hvalue : ∀ k ∈ List.range b, (do lutEntry (← cdf.load k) m (M + 1 : Nat) n) =
      some ((equalise n m M (running bins k) : Nat) : Int) := by
    intro k hk
    have hlt : k < b := List.mem_range.mp hk
    have hlow : m ≤ running bins k := by
      refine (hmin k hlt).trans ?_
      rw [running, Finset.sum_range_succ]
      exact Nat.le_add_left _ _
    rw [Buffer.load_eq (by omega : k < cdf.size), hcdf k hlt]
    exact lutEntry_eq hm hlow ((running_le_sum hlt).trans_eq hsum) hn hM hfits
  rw [fillLut, Int.toNat_natCast]
  obtain ⟨lut', hloop, hs⟩ := foldlM_scatters (fun _ _ _ _ heq => heq)
    (fun k hk => hlut ▸ List.mem_range.mp hk) hvalue
  exact ⟨lut', hloop, hs.size.trans hlut, fun k hk => hs.written k (List.mem_range.mpr hk)⟩

end Tables

section Equalise
variable {streamA h lut out : Buffer Int} {nRows nCols : Int} {nInpBpp nOutBpp n b : Nat}

theorem sum_bins (hb : 0 < b) (hv : ∀ i < n, 0 ≤ streamA.cell i) :
    ∑ k ∈ Finset.range b, tally (fun i => binOf b (streamA.cell i)) n k = n :=
  sum_tally fun i hi => binOf_lt hb (hv i hi)

/-- histEq makes one table from the counts and sends every pixel through it. -/
theorem histEq_table (hinp : 1 ≤ nInpBpp ∧ nInpBpp ≤ 30) (hout : 1 ≤ nOutBpp ∧ nOutBpp ≤ 30)
    (hn : nRows * nCols = n) (hpos : 1 ≤ n) (hfits : n * (2 ^ nOutBpp - 1) < 2 ^ 31)
    (hv : ∀ i < n, 0 ≤ streamA.cell i) (hc : Counted streamA (2 ^ nInpBpp) n h) :
    ∃ (m : Nat) (lut : Buffer Int), m < n ∧ lut.size = 2 ^ nInpBpp ∧
      (∀ k < 2 ^ nInpBpp, lut.cell k = (equalise n m (2 ^ nOutBpp - 1)
        (running (tally (fun i => binOf (2 ^ nInpBpp) (streamA.cell i)) n) k) : Nat)) ∧
      ∀ out, histEq ⟨true, true⟩ streamA out h nRows nCols nInpBpp nOutBpp =
        (applyLut lut streamA out n).map fun out => (0, out) := by
  have hb : 2 ≤ 2 ^ nInpBpp := Nat.le_self_pow (by omega) 2
  have hM : 2 ≤ 2 ^ nOutBpp := Nat.le_self_pow (by omega) 2
  have hbig : 2 ^ nOutBpp ≤ 2 ^ 30 := Nat.pow_le_pow_right (by norm_num) hout.2
  have hsmall : n < 2 ^ 31 := (Nat.le_mul_of_pos_right n (by omega)).trans_lt hfits
  have hsum := @sum_bins streamA n (2 ^ nInpBpp) (by omega) hv
  obtain ⟨s, hs, hsummed⟩ := @accumulate_sums h (zeros (2 ^ nInpBpp)) _ _ hc.size le_rfl hc.bins
    (hsum.trans_lt hsmall)
  obtain ⟨m, hm, hmin⟩ := smallestBin_least hc.size hc.bins
  have hlt : m < n := hsum ▸ least_lt_sum hb hmin (by omega)
  obtain ⟨lut, hlut, hsize, hcells⟩ := @fillLut_equalises s.2 (zeros (2 ^ nInpBpp)) _
    (2 ^ nInpBpp) n m (2 ^ nOutBpp - 1) hsummed.size.ge rfl hsummed.cells hmin hlt hsum hsmall (by omega) hfits
  refine ⟨m, lut, hlt, hsize, hcells, ?_⟩
  intro out
  have hcast (k : Nat) : (2 ^ k : Int) = ((2 ^ k : Nat) : Int) := by norm_cast
  have htop : 2 ^ nOutBpp - 1 + 1 = 2 ^ nOutBpp := by omega
  rw [htop] at hlut
  rw [histEq, shiftOne, shiftOne, if_pos hinp.2, if_pos hout.2, hcast, hcast, hn,
    int_natCast hsmall]
  simp only [Option.bind_eq_bind, Option.bind_some, Int.toNat_natCast, hs, hm, hlut]
  cases applyLut lut streamA out n with
  | none => rfl
  | some out => rfl

theorem histEq_fails {memory : Callocs} (hinp : nInpBpp ≤ 30) (hout : nOutBpp ≤ 30)
    (hfail : (memory.cdf && memory.lut) = false) :
    histEq memory streamA out h nRows nCols nInpBpp nOutBpp = some (-1, out) := by
  rw [histEq, shiftOne, shiftOne, if_pos hinp, if_pos hout, hfail]
  rfl

theorem applyLut_eq (hs : n ≤ streamA.size) (ho : n ≤ out.size)
    (hv : ∀ i < n, 0 ≤ streamA.cell i ∧ streamA.cell i < lut.size) :
    ∃ out', applyLut lut streamA out n = some out' ∧
      ∀ i < n, out'.cell i = lut.cell (streamA.cell i).toNat := by
  have hvalue : ∀ i ∈ List.range n,
      lookup lut streamA i = some (lut.cell (streamA.cell i).toNat) := by
    intro i hi
    have hlt : i < n := List.mem_range.mp hi
    have hin := hv i hlt
    rw [lookup, Buffer.load_eq (by omega : i < streamA.size), Option.bind_eq_bind, Option.bind_some,
      index, if_pos hin.1]
    exact Buffer.load_eq (by omega)
  obtain ⟨out', hloop, hc⟩ := foldlM_scatters (fun _ _ _ _ heq => heq)
    (fun i hi => (List.mem_range.mp hi).trans_le ho) hvalue
  exact ⟨out', hloop, fun i hi => hc.written i (List.mem_range.mpr hi)⟩

/-- The first `n` pixels of `out` are those of `streamA`, spread over the output range. -/
structure Equalised (streamA out : Buffer Int) (n nOutBpp : Nat) : Prop where
  range : ∀ i < n, 0 ≤ out.cell i ∧ out.cell i ≤ 2 ^ nOutBpp - 1
  equal : ∀ i < n, ∀ j < n, streamA.cell i = streamA.cell j → out.cell i = out.cell j
  mono : ∀ i < n, ∀ j < n, streamA.cell i < streamA.cell j → out.cell i ≤ out.cell j
  top : ∀ i < n, (∀ j < n, streamA.cell j ≤ streamA.cell i) → out.cell i = 2 ^ nOutBpp - 1

theorem Equalised.of_running {m : Nat} (hm : m < n)
    (hv : ∀ i < n, 0 ≤ streamA.cell i ∧ streamA.cell i < (2 ^ nInpBpp : Nat))
    (hcells : ∀ i < n, out.cell i = (equalise n m (2 ^ nOutBpp - 1) (running
      (tally (fun i => binOf (2 ^ nInpBpp) (streamA.cell i)) n) (streamA.cell i).toNat) : Nat)) :
    Equalised streamA out n nOutBpp := by
  have hM : 1 ≤ 2 ^ nOutBpp := Nat.one_le_two_pow
  have htop : ((2 ^ nOutBpp - 1 : Nat) : Int) = 2 ^ nOutBpp - 1 := by
    rw [Nat.cast_sub hM]
    norm_cast
  have hbin : ∀ i < n, binOf (2 ^ nInpBpp) (streamA.cell i) = (streamA.cell i).toNat :=
    fun i hi => binOf_of_lt (hv i hi).2
  have hall : running (tally (fun i => binOf (2 ^ nInpBpp) (streamA.cell i)) n) (2 ^ nInpBpp) = n :=
    running_tally fun i hi => (binOf_lt (Nat.two_pow_pos nInpBpp) (hv i hi).1).le
  refine ⟨?_, ?_, ?_, ?_⟩
  · intro i hi
    have hcount := running_mono (tally (fun i => binOf (2 ^ nInpBpp) (streamA.cell i)) n)
      (by have := hv i hi; omega : (streamA.cell i).toNat ≤ 2 ^ nInpBpp)
    have hle := @equalise_le n m _ (2 ^ nOutBpp - 1) hm (hcount.trans_eq hall)
    rw [hcells i hi, ← htop]
    omega
  · intro i hi j hj heq
    rw [hcells i hi, hcells j hj, heq]
  · intro i hi j hj hlt
    rw [hcells i hi, hcells j hj]
    exact_mod_cast equalise_mono n m _ (running_mono _ (Int.toNat_le_toNat hlt.le))
  · intro i hi hmax
    have hcount : running (tally (fun i => binOf (2 ^ nInpBpp) (streamA.cell i)) n)
        (streamA.cell i).toNat = n := by
      refine running_tally fun j hj => ?_
      rw [hbin j hj]
      exact Int.toNat_le_toNat (hmax j hj)
    rw [hcells i hi, hcount, equalise_top hm, htop]

/-- hist and histEq of any image whose scaled ranks are ints. -/
theorem histEq_equalises (memory : Callocs) (hn : nRows * nCols = n) (hpos : 1 ≤ n)
    (hinp : 1 ≤ nInpBpp ∧ nInpBpp ≤ 30) (hout : 1 ≤ nOutBpp ∧ nOutBpp ≤ 30)
    (hfits : n * (2 ^ nOutBpp - 1) < 2 ^ 31)
    (hv : ∀ i < n, 0 ≤ streamA.cell i ∧ streamA.cell i < 2 ^ nInpBpp)
    (hstream : n ≤ streamA.size) (hbins : 2 ^ nInpBpp ≤ h.size) (hbuf : n ≤ out.size) :
    ∃ h' code out', hist streamA (some h) nRows nCols nInpBpp = some (0, some h') ∧
      histEq memory streamA out h' nRows nCols nInpBpp nOutBpp = some (code, out') ∧
      if memory.cdf && memory.lut then code = 0 ∧ Equalised streamA out' n nOutBpp
        else code = -1 ∧ out' = out := by
  have hM : 2 ≤ 2 ^ nOutBpp := Nat.le_self_pow (by omega) 2
  have hsmall : n < 2 ^ 31 := (Nat.le_mul_of_pos_right n (by omega)).trans_lt hfits
  have hlow : ∀ i < n, 0 ≤ streamA.cell i := fun i hi => (hv i hi).1
  have hin : ∀ i < n, 0 ≤ streamA.cell i ∧ streamA.cell i < (2 ^ nInpBpp : Nat) := by
    intro i hi
    exact_mod_cast hv i hi
  obtain ⟨h', hhist, hc⟩ := hist_counts hinp.2 hn hsmall hstream hlow hbins
  cases hmem : memory.cdf && memory.lut with
  | false => exact ⟨h', -1, out, hhist, histEq_fails hinp.2 hout.2 hmem, rfl, rfl⟩
  | true =>
    obtain ⟨cdf, lut⟩ := memory
    obtain ⟨rfl, rfl⟩ : cdf = true ∧ lut = true := by simpa using hmem
    obtain ⟨m, lut, hm, hsize, hcells, heq⟩ := histEq_table hinp hout hn hpos hfits hlow hc
    obtain ⟨out', happly, hpixels⟩ := @applyLut_eq streamA lut out n hstream hbuf (hsize ▸ hin)
    refine ⟨h', 0, out', hhist, ?_, rfl, .of_running hm hin ?_⟩
    · rw [heq, happly]
      rfl
    · intro i hi
      have hlt := hin i hi
      rw [hpixels i hi]
      exact hcells _ (by omega)

theorem histEq_equalises_square : ∃ h' code out',
    hist ⟨4, fun i => [3, 1, 3, 0].getD i 0⟩ (some (zeros 4)) 2 2 2 = some (0, some h') ∧
      histEq ⟨true, true⟩ ⟨4, fun i => [3, 1, 3, 0].getD i 0⟩ (zeros 4) h' 2 2 2 8 =
        some (code, out') ∧
      code = 0 ∧ Equalised ⟨4, fun i => [3, 1, 3, 0].getD i 0⟩ out' 4 8 :=
  histEq_equalises ⟨true, true⟩ (by decide) (by decide) (by decide) (by decide) (by decide)
    (by decide) le_rfl le_rfl le_rfl

end Equalise

end EspDrivers.Vision
