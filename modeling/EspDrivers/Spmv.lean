import EspDrivers.Fills
import EspDrivers.SparseRows

/-! The two programs that multiply a sparse matrix with a vector: spmv of the benchmark on the
host, and spmv_comp of the application. The arithmetic is a parameter: what the programs access
does not depend on how sums and products are rounded. -/
namespace EspDrivers.Spmv
open Buffers SparseRows

section Model
variable {F D : Type} [Mul F] [Add D] [Mul D] [Zero D]

def subscript {α : Type} (b : Buffer α) (j : Int) : Option α :=
  if 0 ≤ j then b.load j.toNat else none

/-- `for (j = start; j < stop; j++)` with a long `j`. -/
def forLong {σ : Type} (start stop : Int) (body : σ → Int → Option σ) (s : σ) : Option σ :=
  (List.range (stop - start).toNat).foldlM (fun s (k : Nat) => body s (start + (k : Int))) s

/-- What spmv uses of struct bench_args_t: `D` is TYPE, and the integers of the arrays are of type
int32_t. -/
structure BenchArgs (D : Type) where
  nrows : Int
  val : Buffer D
  cols : Buffer (BitVec 32)
  rowDelimiters : Buffer (BitVec 32)
  vec : Buffer D
  out : Buffer D

def spmvRow (data : BenchArgs D) (i : Nat) : Option D := do
  let tmpBegin := (← data.rowDelimiters.load i).toInt
  let tmpEnd := (← data.rowDelimiters.load (i + 1)).toInt
  forLong tmpBegin tmpEnd (fun sum j => do
    let si := (← subscript data.val j) * (← subscript data.vec (← subscript data.cols j).toInt)
    some (sum + si)) 0

def spmv (data : BenchArgs D) : Option (BenchArgs D) := do
  let out ← (List.range data.nrows.toNat).foldlM (fun out i => do
    out.store i (← spmvRow data i)) data.out
  some { data with out := out }

/-- What spmv_comp uses of struct spmv_test: `F` is float, and the integers of the arrays are
unsigned. -/
structure SpmvTest (F : Type) where
  nrows : Nat
  inValsBuf : Buffer F
  inColsBuf : Buffer (BitVec 32)
  inRowsBuf : Buffer (BitVec 32)
  inVectBuf : Buffer F
  goldBuf : Buffer F

def SpmvTest.tmpBegin (t : SpmvTest F) (i : Nat) : Option Int :=
  if i = 0 then some 0 else do some (← t.inRowsBuf.load (i - 1)).toInt

/-- The product is one of floats, and `widen` makes it a double. -/
def spmvCompRow (widen : F → D) (t : SpmvTest F) (i : Nat) : Option D := do
  let tmpBegin ← t.tmpBegin i
  let tmpEnd := (← t.inRowsBuf.load i).toInt
  forLong tmpBegin tmpEnd (fun sum j => do
    let si := (← subscript t.inValsBuf j) * (← t.inVectBuf.load (← subscript t.inColsBuf j).toNat)
    some (sum + widen si)) 0

def spmvComp (widen : F → D) (narrow : D → F) (t : SpmvTest F) : Option (SpmvTest F) := do
  let goldBuf ← (List.range t.nrows).foldlM (fun goldBuf i => do
    goldBuf.store i (narrow (← spmvCompRow widen t i))) t.goldBuf
  some { t with goldBuf := goldBuf }

end Model

section Access
variable {α σ : Type} {b : Buffer α} {j start stop : Int} {v : α}

theorem subscript_eq (h : 0 ≤ j) (hlt : j.toNat < b.size) :
    subscript b j = some (b.cell j.toNat) := by
  rw [subscript, if_pos h, Buffer.load_eq hlt]

theorem subscript_some (h : subscript b j = some v) :
    0 ≤ j ∧ j.toNat < b.size ∧ v = b.cell j.toNat := by
  rw [subscript] at h
  split at h
  · next hj => exact ⟨hj, Buffer.load_some h⟩
  · cases h

end Access

section Host
variable {D : Type} {data : BenchArgs D} {i : Nat}

def BenchArgs.inRow (data : BenchArgs D) (i : Nat) (j : Int) : Prop :=
  (data.rowDelimiters.cell i).toInt ≤ j ∧ j < (data.rowDelimiters.cell (i + 1)).toInt

structure BenchArgs.RowInside (data : BenchArgs D) (i : Nat) : Prop where
  delimiter : i + 1 < data.rowDelimiters.size
  value : ∀ j, data.inRow i j → 0 ≤ j ∧ j.toNat < data.val.size ∧ j.toNat < data.cols.size
  column : ∀ j, data.inRow i j → 0 ≤ (data.cols.cell j.toNat).toInt ∧
    (data.cols.cell j.toNat).toInt.toNat < data.vec.size

variable [Add D] [Zero D]

/-- `sum` after a loop that adds `f j` in the round for `j`. -/
def sumLong (start stop : Int) (f : Int → D) : D :=
  (List.range (stop - start).toNat).foldl (fun sum (k : Nat) => sum + f (start + k)) 0

theorem forLong_sum {start stop : Int} {body : D → Int → Option D} {f : Int → D}
    (h : ∀ sum j, start ≤ j → j < stop → body sum j = some (sum + f j)) :
    forLong start stop body 0 = some (sumLong start stop f) := by
  have hloop : ∃ t, forLong start stop body 0 = some t ∧ t = sumLong start stop f := by
    refine foldlM_range_ends (stop - start).toNat
      (fun n s => s = (List.range n).foldl (fun sum (k : Nat) => sum + f (start + k)) 0) rfl ?_
    intro k hk s hs
    refine ⟨s + f (start + k), h s (start + k) (by omega) (by omega), ?_⟩
    rw [hs, List.range_succ, List.foldl_append]
    rfl
  obtain ⟨t, hrun, ht⟩ := hloop
  rw [hrun, ht]

variable [Mul D]

def BenchArgs.product (data : BenchArgs D) (j : Int) : D :=
  data.val.cell j.toNat * data.vec.cell (data.cols.cell j.toNat).toInt.toNat

def BenchArgs.rowSum (data : BenchArgs D) (i : Nat) : D :=
  sumLong (data.rowDelimiters.cell i).toInt (data.rowDelimiters.cell (i + 1)).toInt data.product

theorem spmvRow_eq (h : data.RowInside i) : spmvRow data i = some (data.rowSum i) := by
  have hdelimiter := h.delimiter
  rw [spmvRow, Buffer.load_eq (by omega), Buffer.load_eq hdelimiter]
  simp only [Option.bind_eq_bind, Option.bind_some]
  refine forLong_sum (f := data.product) ?_
  intro sum j hle hlt
  obtain ⟨hj, hval, hcols⟩ := h.value j ⟨hle, hlt⟩
  obtain ⟨hcol, hvec⟩ := h.column j ⟨hle, hlt⟩
  rw [subscript_eq hj hval, subscript_eq hj hcols, Option.bind_some, Option.bind_some,
    subscript_eq hcol hvec]
  rfl

theorem spmvRow_some {v : D} (h : spmvRow data i = some v) : data.RowInside i := by
  rw [spmvRow] at h
  obtain ⟨b, hb, h⟩ := Option.bind_eq_some_iff.mp h
  obtain ⟨e, he, h⟩ := Option.bind_eq_some_iff.mp h
  obtain ⟨-, rfl⟩ := Buffer.load_some hb
  obtain ⟨hdelimiter, rfl⟩ := Buffer.load_some he
  have hrounds := (foldlM_rounds (I := fun _ => True) (fun _ _ _ _ _ => trivial) trivial h).2
  have hround (j : Int) (hj : data.inRow i j) :
      (0 ≤ j ∧ j.toNat < data.val.size ∧ j.toNat < data.cols.size) ∧
        0 ≤ (data.cols.cell j.toNat).toInt ∧
        (data.cols.cell j.toNat).toInt.toNat < data.vec.size := by
    obtain ⟨hle, hlt⟩ := hj
    have hmem : (j - (data.rowDelimiters.cell i).toInt).toNat ∈ List.range
        ((data.rowDelimiters.cell (i + 1)).toInt - (data.rowDelimiters.cell i).toInt).toNat :=
      List.mem_range.mpr (by omega)
    obtain ⟨s, t, -, hbody⟩ := hrounds _ hmem
    have hat : (data.rowDelimiters.cell i).toInt +
        ((j - (data.rowDelimiters.cell i).toInt).toNat : Int) = j := by omega
    rw [hat] at hbody
    obtain ⟨x, hx, hbody⟩ := Option.bind_eq_some_iff.mp hbody
    obtain ⟨c, hc, hbody⟩ := Option.bind_eq_some_iff.mp hbody
    obtain ⟨y, hy, -⟩ := Option.bind_eq_some_iff.mp hbody
    obtain ⟨hj, hval, -⟩ := subscript_some hx
    obtain ⟨-, hcols, rfl⟩ := subscript_some hc
    obtain ⟨hcol, hvec, -⟩ := subscript_some hy
    exact ⟨⟨hj, hval, hcols⟩, hcol, hvec⟩
  exact ⟨hdelimiter, fun j hj => (hround j hj).1, fun j hj => (hround j hj).2⟩

theorem spmv_eq (hout : data.nrows.toNat ≤ data.out.size)
    (h : ∀ i < data.nrows.toNat, data.RowInside i) :
    spmv data = some { data with out := Fills.fill data.out 0 data.nrows.toNat data.rowSum } := by
  have hloop : (List.range data.nrows.toNat).foldlM (fun (out : Buffer D) i => do
      out.store (0 + i) (← spmvRow data i)) data.out =
        some (Fills.fill data.out 0 data.nrows.toNat data.rowSum) :=
    Fills.foldlM_fill_values (by omega) fun i hi => spmvRow_eq (h i hi)
  simp only [Nat.zero_add] at hloop
  rw [spmv, hloop]
  rfl

theorem spmv_some {data' : BenchArgs D} (h : spmv data = some data') :
    data.nrows.toNat ≤ data.out.size ∧ ∀ i < data.nrows.toNat, data.RowInside i := by
  obtain ⟨out, hloop, -⟩ := Option.bind_eq_some_iff.mp h
  have hrounds := (foldlM_rounds (I := fun b : Buffer D => b.size = data.out.size) (by
    intro b i c hb hround
    obtain ⟨v, -, hstore⟩ := Option.bind_eq_some_iff.mp hround
    obtain ⟨-, rfl⟩ := Buffer.store_some hstore
    exact hb) rfl hloop).2
  have hround (i : Nat) (hi : i < data.nrows.toNat) : i < data.out.size ∧ data.RowInside i := by
    obtain ⟨b, c, hb, hbody⟩ := hrounds i (List.mem_range.mpr hi)
    obtain ⟨v, hrow, hstore⟩ := Option.bind_eq_some_iff.mp hbody
    exact ⟨hb ▸ (Buffer.store_some hstore).1, spmvRow_some hrow⟩
  refine ⟨?_, fun i hi => (hround i hi).2⟩
  by_contra hlong
  have hlast := (hround (data.nrows.toNat - 1) (by omega)).1
  omega

/-- spmv stays inside its arrays exactly when every position between two delimiters is one of the
values and the columns, and its column is one of the vector. -/
theorem spmv_ends_iff (data : BenchArgs D) : (∃ data', spmv data = some data') ↔
    data.nrows.toNat ≤ data.out.size ∧ ∀ i < data.nrows.toNat, data.RowInside i := by
  constructor
  · exact fun ⟨_, h⟩ => spmv_some h
  · exact fun ⟨hout, h⟩ => ⟨_, spmv_eq hout h⟩

end Host

section Products
variable {R : Type} {data : BenchArgs R} {m n len i : Nat}

def BenchArgs.rows (data : BenchArgs R) : Rows R where
  start i := (data.rowDelimiters.cell i).toInt.toNat
  col k := (data.cols.cell k).toInt.toNat
  val k := data.val.cell k

/-- `m` rows and `n` columns in arrays that are long enough. -/
structure BenchArgs.Formed (data : BenchArgs R) (m n len : Nat) : Prop where
  nrows : data.nrows = m
  compressed : data.rows.Compressed m n len
  delimiter : ∀ i ≤ m, 0 ≤ (data.rowDelimiters.cell i).toInt
  column : ∀ k < len, 0 ≤ (data.cols.cell k).toInt
  delimiters : m < data.rowDelimiters.size
  val : len ≤ data.val.size
  cols : len ≤ data.cols.size
  vec : n ≤ data.vec.size
  out : m ≤ data.out.size

theorem BenchArgs.Formed.rowInside (h : data.Formed m n len) (hi : i < m) : data.RowInside i := by
  have hdelimiters := h.delimiters
  have hbegin := h.delimiter i hi.le
  have hend := h.delimiter (i + 1) hi
  have hlast : (data.rowDelimiters.cell (i + 1)).toInt.toNat ≤ len :=
    h.compressed.start_le_len (i := i + 1) hi
  have hval := h.val
  have hcols := h.cols
  have hplace (j : Int) (hj : data.inRow i j) : 0 ≤ j ∧ j.toNat < len := by
    obtain ⟨hle, hlt⟩ := hj
    omega
  refine ⟨by omega, ?_, ?_⟩
  · intro j hj
    obtain ⟨hpos, hlt⟩ := hplace j hj
    exact ⟨hpos, by omega, by omega⟩
  · intro j hj
    obtain ⟨-, hlt⟩ := hplace j hj
    have hcol : (data.cols.cell j.toNat).toInt.toNat < n := h.compressed.col j.toNat hlt
    exact ⟨h.column j.toNat hlt, hcol.trans_le h.vec⟩

variable [Semiring R]

/-- The matrix with the rows 2 0 and 0 3, and the vector 5 7. -/
def twoRows : BenchArgs Int where
  nrows := 2
  val := ⟨2, fun k => [2, 3].getD k 0⟩
  cols := ⟨2, fun k => [0, 1].getD k 0⟩
  rowDelimiters := ⟨3, fun k => [0, 1, 2].getD k 0⟩
  vec := ⟨2, fun k => [5, 7].getD k 0⟩
  out := ⟨2, fun _ => 0⟩

theorem twoRows_formed : twoRows.Formed 2 2 2 :=
  ⟨rfl, ⟨rfl, by decide, rfl, by decide⟩, by decide, by decide, by decide, by decide, by decide,
    by decide, by decide⟩

example : ((spmv twoRows).map fun data => (data.out.cell 0, data.out.cell 1)) = some (10, 21) := by
  decide

end Products

section Application
variable {F D : Type} [Mul F] [Add D] [Mul D] [Zero D] {widen : F → D} {narrow : D → F}
  {data : BenchArgs D} {t : SpmvTest F} {i : Nat}

/-- The values that the host program has, as floats. -/
structure Narrower (widen : F → D) (b : Buffer F) (c : Buffer D) : Prop where
  size : c.size = b.size
  cell : ∀ k < b.size, c.cell k = widen (b.cell k)

/-- The application has read the matrix and the vector that the host program has read: all the
delimiters but the first, which is zero. -/
structure SameInput (widen : F → D) (t : SpmvTest F) (data : BenchArgs D) : Prop where
  nrows : data.nrows = t.nrows
  vals : Narrower widen t.inValsBuf data.val
  cols : data.cols = t.inColsBuf
  vect : Narrower widen t.inVectBuf data.vec
  first : data.rowDelimiters.cell 0 = 0
  size : t.inRowsBuf.size = t.nrows
  row : ∀ i < t.nrows, t.inRowsBuf.cell i = data.rowDelimiters.cell (i + 1)
  gold : t.nrows ≤ t.goldBuf.size

/-- No product of the row `i` is rounded to a float. -/
def ExactRow (widen : F → D) (t : SpmvTest F) (data : BenchArgs D) (i : Nat) : Prop :=
  ∀ j, data.inRow i j →
    widen (t.inValsBuf.cell j.toNat * t.inVectBuf.cell (t.inColsBuf.cell j.toNat).toNat) =
      widen (t.inValsBuf.cell j.toNat) *
        widen (t.inVectBuf.cell (t.inColsBuf.cell j.toNat).toNat)

theorem spmvCompRow_eq (h : SameInput widen t data) (hi : i < t.nrows) (hrow : data.RowInside i)
    (hexact : ExactRow widen t data i) : spmvCompRow widen t i = some (data.rowSum i) := by
  have hsize := h.size
  have hbegin : t.tmpBegin i = some (data.rowDelimiters.cell i).toInt := by
    rw [SpmvTest.tmpBegin]
    by_cases hzero : i = 0
    · subst hzero
      rw [if_pos rfl, h.first]
      rfl
    · have hat : i - 1 + 1 = i := by omega
      rw [if_neg hzero, Buffer.load_eq (by omega), h.row (i - 1) (by omega), hat]
      rfl
  rw [spmvCompRow, hbegin, Buffer.load_eq (by omega), h.row i hi]
  simp only [Option.bind_eq_bind, Option.bind_some]
  refine forLong_sum (f := data.product) ?_
  intro sum j hle hlt
  obtain ⟨hj, hval, hcols⟩ := hrow.value j ⟨hle, hlt⟩
  obtain ⟨hcol, hvec⟩ := hrow.column j ⟨hle, hlt⟩
  rw [h.vals.size] at hval
  rw [h.cols] at hcols hcol hvec
  have hnat : (t.inColsBuf.cell j.toNat).toInt.toNat = (t.inColsBuf.cell j.toNat).toNat := by
    rw [BitVec.toInt_eq_toNat_cond] at hcol ⊢
    split at hcol <;> omega
  rw [h.vect.size, hnat] at hvec
  have hproduct : data.product j = widen
      (t.inValsBuf.cell j.toNat * t.inVectBuf.cell (t.inColsBuf.cell j.toNat).toNat) := by
    rw [hexact j ⟨hle, hlt⟩, BenchArgs.product, h.cols, hnat, h.vals.cell _ hval,
      h.vect.cell _ hvec]
  rw [subscript_eq hj hval, subscript_eq hj hcols, Option.bind_some, Option.bind_some,
    Buffer.load_eq hvec, hproduct]
  rfl

/-- Where the host program has a result and no product is rounded to a float, the golden output
of the application is that result, made floats. -/
theorem spmvComp_follows (h : SameInput widen t data) {data' : BenchArgs D}
    (hrun : spmv data = some data') (hexact : ∀ i < t.nrows, ExactRow widen t data i) :
    ∃ t', spmvComp widen narrow t = some t' ∧
      ∀ i < t.nrows, t'.goldBuf.cell i = narrow (data'.out.cell i) := by
  have hn : data.nrows.toNat = t.nrows := by
    have hnrows := h.nrows
    omega
  obtain ⟨hout, hrows⟩ := spmv_some hrun
  have hgold := h.gold
  have hloop : (List.range t.nrows).foldlM (fun (goldBuf : Buffer F) i => do
      goldBuf.store (0 + i) (← (spmvCompRow widen t i).map narrow)) t.goldBuf =
        some (Fills.fill t.goldBuf 0 t.nrows fun i => narrow (data.rowSum i)) := by
    refine Fills.foldlM_fill_values (by omega) ?_
    intro i hi
    rw [spmvCompRow_eq h hi (hrows i (hn ▸ hi)) (hexact i hi)]
    rfl
  simp only [Nat.zero_add, Option.bind_eq_bind, Option.bind_map] at hloop
  refine ⟨{ t with goldBuf := Fills.fill t.goldBuf 0 t.nrows fun i => narrow (data.rowSum i) },
    ?_, ?_⟩
  · rw [spmvComp]
    simp only [Option.bind_eq_bind]
    exact hloop ▸ rfl
  · intro i hi
    obtain rfl := Option.some.inj (hrun.symm.trans (spmv_eq hout hrows))
    have hhost : (Fills.fill data.out 0 data.nrows.toNat data.rowSum).cell (0 + i) =
        data.rowSum i := Fills.fill_inside (by omega)
    have hgold : (Fills.fill t.goldBuf 0 t.nrows fun i => narrow (data.rowSum i)).cell (0 + i) =
        narrow (data.rowSum i) := Fills.fill_inside hi
    rw [Nat.zero_add] at hhost hgold
    rw [hhost, hgold]

def twoRowsTest : SpmvTest Nat where
  nrows := 2
  inValsBuf := ⟨2, fun k => [2, 3].getD k 0⟩
  inColsBuf := twoRows.cols
  inRowsBuf := ⟨2, fun k => [1, 2].getD k 0⟩
  inVectBuf := ⟨2, fun k => [5, 7].getD k 0⟩
  goldBuf := ⟨2, fun _ => 0⟩

theorem twoRowsTest_same : SameInput Int.ofNat twoRowsTest twoRows :=
  ⟨rfl, ⟨rfl, by decide⟩, rfl, ⟨rfl, by decide⟩, rfl, rfl, by decide, by decide⟩

theorem spmvComp_follows_two : ∃ t', spmvComp Int.ofNat Int.toNat twoRowsTest = some t' ∧
    ∀ i < 2, t'.goldBuf.cell i =
      ((Fills.fill twoRows.out 0 2 twoRows.rowSum).cell i).toNat :=
  spmvComp_follows twoRowsTest_same (spmv_eq (by decide) fun _ hi => twoRows_formed.rowInside hi)
    fun _ _ _ _ => Int.natCast_mul _ _

end Application

end EspDrivers.Spmv
