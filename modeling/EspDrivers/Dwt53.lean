import EspDrivers.Lifting
import EspDrivers.Strides

/-! The wavelet transform of visionchip.c and its inverse: each pass lifts the rows in place
and writes them, low half first, as the columns of the other buffer. -/
namespace EspDrivers.Dwt53
open Buffers Lifting

section Model

abbrev Pixel := BitVec 32

def intIndex (n : Nat) : Option Nat :=
  if n % 2 ^ 32 < 2 ^ 31 then some (n % 2 ^ 32) else none

def get (b : Buffer Pixel) (n : Nat) : Option Pixel := do
  b.load (← intIndex n)

def set (b : Buffer Pixel) (n : Nat) (v : Pixel) : Option (Buffer Pixel) := do
  b.store (← intIndex n) v

/-- The statement that the loops make, `b[cur] op= (b[cur - 1] + b[cur + 1]) >> shift`. -/
def adjust (op : Pixel → Pixel → Pixel) (shift : Nat) (b : Buffer Pixel) (cur : Nat) :
    Option (Buffer Pixel) := do
  let left ← get b (cur - 1)
  let right ← get b (cur + 1)
  let old ← get b cur
  set b cur (op old ((left + right).sshiftRight shift))

/-- The odd pixels of a row. The last one only has its left neighbour. -/
def predictRow (op : Pixel → Pixel → Pixel) (ncols i : Nat) (b : Buffer Pixel) :
    Option (Buffer Pixel) := do
  let b ← (steps 1 (ncols - 1) 2).foldlM (fun b j => adjust op 1 b (i * ncols + j)) b
  let cur := i * ncols + ncols - 1
  let left ← get b (cur - 1)
  let old ← get b cur
  set b cur (op old left)

/-- The even pixels of a row. The first one only has its right neighbour. -/
def updateRow (op : Pixel → Pixel → Pixel) (ncols i : Nat) (b : Buffer Pixel) :
    Option (Buffer Pixel) := do
  let b ← (steps 2 ncols 2).foldlM (fun b j => adjust op 2 b (i * ncols + j)) b
  let cur := i * ncols + 0
  let right ← get b (cur + 1)
  let old ← get b cur
  set b cur (op old (right.sshiftRight 1))

/-- Row `i` of `data` becomes column `i` of `data2`. -/
def splitRow (nrows ncols i : Nat) (data data2 : Buffer Pixel) : Option (Buffer Pixel) :=
  (List.range (ncols / 2)).foldlM (fun data2 j => do
    let low ← get data (i * ncols + 2 * j)
    let data2 ← set data2 (j * nrows + i) low
    let high ← get data (i * ncols + 2 * j + 1)
    set data2 ((j + ncols / 2) * nrows + i) high) data2

/-- Column `i` of `data` becomes row `i` of `data2`. -/
def mergeRow (nrows ncols i : Nat) (data data2 : Buffer Pixel) : Option (Buffer Pixel) :=
  (List.range (ncols / 2)).foldlM (fun data2 j => do
    let low ← get data (j * nrows + i)
    let data2 ← set data2 (i * ncols + 2 * j) low
    let high ← get data ((j + ncols / 2) * nrows + i)
    set data2 (i * ncols + 2 * j + 1) high) data2

/-- Both buffers change: the rows of `data` are lifted where they are. -/
def dwt53RowTranspose (data data2 : Buffer Pixel) (nrows ncols : Nat) :
    Option (Buffer Pixel × Buffer Pixel) :=
  (List.range nrows).foldlM (fun s i => do
    let data ← predictRow (· - ·) ncols i s.1
    let data ← updateRow (· + ·) ncols i data
    let data2 ← splitRow nrows ncols i data s.2
    some (data, data2)) (data, data2)

def dwt53RowTransposeInverse (data data2 : Buffer Pixel) (nrows ncols : Nat) :
    Option (Buffer Pixel) :=
  (List.range nrows).foldlM (fun data2 i => do
    let data2 ← mergeRow nrows ncols i data data2
    let data2 ← updateRow (· - ·) ncols i data2
    predictRow (· + ·) ncols i data2) data2

/-- calloc of `nmemb` pixels, an int that is converted to size_t. It refuses what is more
than the address space, and anything when there is no memory. -/
def callocPixels (memory : Bool) (nmemb : Nat) : Option (Buffer Pixel) :=
  let n := ((BitVec.ofNat 32 nmemb).signExtend 64).toNat
  if memory && n * 4 < 2 ^ 64 then some ⟨n, fun _ => 0⟩ else none

/-- The image and what is returned; `none` for an access outside of a buffer. -/
def dwt53Inverse (memory : Bool) (data : Buffer Pixel) (nrows ncols : Nat) :
    Option (Buffer Pixel × Int) :=
  match callocPixels memory (nrows * ncols) with
  | none => some (data, -1)
  | some data2 => do
    let data2 ← dwt53RowTransposeInverse data data2 ncols nrows
    let data ← dwt53RowTransposeInverse data2 data nrows ncols
    some (data, 0)

def dwt53 (memory : Bool) (data : Buffer Pixel) (nrows ncols : Nat) :
    Option (Buffer Pixel × Int) :=
  match callocPixels memory (nrows * ncols) with
  | none => some (data, -1)
  | some data2 => do
    let rows ← dwt53RowTranspose data data2 nrows ncols
    let cols ← dwt53RowTranspose rows.2 rows.1 ncols nrows
    some (cols.2, 0)

end Model

section Places
variable {ncols i j k : Nat}

theorem place_iff (hj : j < ncols) : k = i * ncols + j ↔ k / ncols = i ∧ k % ncols = j := by
  have hpos : 0 < ncols := Nat.zero_lt_of_lt hj
  constructor
  · rintro rfl
    rw [Nat.mul_comm, Nat.mul_add_div hpos, Nat.mul_add_mod, Nat.div_eq_of_lt hj, Nat.mod_eq_of_lt hj]
    exact ⟨Nat.add_zero i, rfl⟩
  · rintro ⟨rfl, rfl⟩
    exact (Nat.div_add_mod' k ncols).symm

theorem place_lt {nrows : Nat} (hi : i < nrows) (hj : j < ncols) :
    i * ncols + j < nrows * ncols := by
  rw [Nat.mul_comm i, Nat.mul_comm nrows]
  exact Strides.place_lt hi hj

theorem left_place (h : 0 < k % ncols) (hn : 0 < ncols) :
    (k - 1) / ncols = k / ncols ∧ (k - 1) % ncols = k % ncols - 1 := by
  have hlt := Nat.mod_lt k hn
  have hk := Nat.div_add_mod' k ncols
  exact (place_iff (by omega)).mp (by omega)

theorem right_place (h : k % ncols + 1 < ncols) :
    (k + 1) / ncols = k / ncols ∧ (k + 1) % ncols = k % ncols + 1 := by
  have hk := Nat.div_add_mod' k ncols
  exact (place_iff h).mp (by omega)

end Places

section Rows

def Odd (ncols k : Nat) : Prop := k % ncols % 2 = 1
def Even (ncols k : Nat) : Prop := k % ncols % 2 = 0

instance (ncols : Nat) : DecidablePred (Odd ncols) :=
  fun k => inferInstanceAs (Decidable (k % ncols % 2 = 1))
instance (ncols : Nat) : DecidablePred (Even ncols) :=
  fun k => inferInstanceAs (Decidable (k % ncols % 2 = 0))

def prediction (ncols : Nat) (x : Nat → Pixel) (k : Nat) : Pixel :=
  if k % ncols + 1 < ncols then (x (k - 1) + x (k + 1)).sshiftRight 1 else x (k - 1)

def correction (ncols : Nat) (x : Nat → Pixel) (k : Nat) : Pixel :=
  if k % ncols = 0 then (x (k + 1)).sshiftRight 1 else (x (k - 1) + x (k + 1)).sshiftRight 2

def forward (ncols : Nat) (x : Nat → Pixel) : Nat → Pixel :=
  lift (· + ·) (Even ncols) (correction ncols) (lift (· - ·) (Odd ncols) (prediction ncols) x)

def backward (ncols : Nat) (x : Nat → Pixel) : Nat → Pixel :=
  lift (· + ·) (Odd ncols) (prediction ncols) (lift (· - ·) (Even ncols) (correction ncols) x)

variable {ncols i k : Nat} {x y : Nat → Pixel}

theorem prediction_outside (hn : 2 ≤ ncols) :
    FromOutside (fun k => k / ncols = i) (Odd ncols) (prediction ncols) := by
  intro x y h k hk hodd
  have hpos : 0 < k % ncols := by
    unfold Odd at hodd
    omega
  have hleft := left_place hpos (by omega)
  have hl : x (k - 1) = y (k - 1) := by
    refine h _ (hleft.1.trans hk) ?_
    unfold Odd at hodd ⊢
    omega
  rw [prediction, prediction]
  split
  · next hright =>
    have hplace := right_place hright
    have hr : x (k + 1) = y (k + 1) := by
      refine h _ (hplace.1.trans hk) ?_
      unfold Odd at hodd ⊢
      omega
    rw [hl, hr]
  · exact hl

theorem correction_outside (hn : 2 ≤ ncols) (heven : 2 ∣ ncols) :
    FromOutside (fun k => k / ncols = i) (Even ncols) (correction ncols) := by
  intro x y h k hk hev
  have hlt : k % ncols < ncols := Nat.mod_lt k (by omega)
  have hright : k % ncols + 1 < ncols := by
    unfold Even at hev
    omega
  have hplace := right_place hright
  have hr : x (k + 1) = y (k + 1) := by
    refine h _ (hplace.1.trans hk) ?_
    unfold Even at hev ⊢
    omega
  rw [correction, correction]
  split
  · rw [hr]
  · next hne =>
    have hleft := left_place (Nat.pos_of_ne_zero hne) (by omega)
    have hl : x (k - 1) = y (k - 1) := by
      refine h _ (hleft.1.trans hk) ?_
      unfold Even at hev ⊢
      omega
    rw [hl, hr]

theorem backward_forward (hn : 2 ≤ ncols) (heven : 2 ∣ ncols) :
    backward ncols (forward ncols x) = x := by
  funext k
  exact sub_add_sub_add (prediction_outside hn) (correction_outside hn heven) rfl

theorem forward_backward (hn : 2 ≤ ncols) (heven : 2 ∣ ncols) :
    forward ncols (backward ncols x) = x := by
  funext k
  exact add_sub_add_sub (prediction_outside hn) (correction_outside hn heven) rfl

theorem forward_congr (hn : 2 ≤ ncols) (heven : 2 ∣ ncols)
    (h : ∀ k, k / ncols = i → x k = y k) (hk : k / ncols = i) :
    forward ncols x k = forward ncols y k :=
  lift_congr (correction_outside hn heven)
    (fun _ hj => lift_congr (prediction_outside hn) h hj) hk

theorem backward_congr (hn : 2 ≤ ncols) (heven : 2 ∣ ncols)
    (h : ∀ k, k / ncols = i → x k = y k) (hk : k / ncols = i) :
    backward ncols x k = backward ncols y k :=
  lift_congr (prediction_outside hn)
    (fun _ hj => lift_congr (correction_outside hn heven) h hj) hk

end Rows

section Statements
variable {size n cur shift : Nat} {cell : Nat → Pixel} {op : Pixel → Pixel → Pixel}

theorem intIndex_eq (h : n < 2 ^ 31) : intIndex n = some n := by
  have hmod : n % 2 ^ 32 = n := Nat.mod_eq_of_lt (by omega)
  rw [intIndex, hmod, if_pos h]

theorem get_eq (hsize : size ≤ 2 ^ 31) (h : n < size) : get ⟨size, cell⟩ n = some (cell n) := by
  rw [get, intIndex_eq (by omega)]
  exact Buffer.load_eq h

theorem set_eq (hsize : size ≤ 2 ^ 31) (h : n < size) (v : Pixel) :
    set ⟨size, cell⟩ n v = some ⟨size, Function.update cell n v⟩ := by
  rw [set, intIndex_eq (by omega)]
  exact Buffer.store_eq h v

theorem adjust_eq (hsize : size ≤ 2 ^ 31) (hcur : 0 < cur) (h : cur + 1 < size) :
    adjust op shift ⟨size, cell⟩ cur = some ⟨size, Function.update cell cur
      (op (cell cur) ((cell (cur - 1) + cell (cur + 1)).sshiftRight shift))⟩ := by
  rw [adjust, get_eq hsize (by omega), get_eq hsize h, get_eq hsize (by omega)]
  exact set_eq hsize (by omega) _

end Statements

section Lifted
variable {nrows ncols i : Nat} {x z : Nat → Pixel} {op : Pixel → Pixel → Pixel}

def onRow (ncols i : Nat) (new old : Nat → Pixel) : Nat → Pixel :=
  fun k => if k / ncols = i then new k else old k

theorem adjust_loop {start stop shift : Nat} (hstart : 0 < start)
    (hstop : ∀ j ∈ steps start stop 2, j + 1 < ncols) (hi : i < nrows)
    (hsize : nrows * ncols ≤ 2 ^ 31) :
    (steps start stop 2).foldlM (fun b j => adjust op shift b (i * ncols + j)) ⟨nrows * ncols, x⟩ =
      some ⟨nrows * ncols, overwritten (fun j k => k = i * ncols + j) (steps start stop 2)
        (fun k => op (x k) ((x (k - 1) + x (k + 1)).sshiftRight shift)) x⟩ := by
  refine foldlM_overwrites ?_ ?_
  · refine (nodup_steps (by decide)).imp ?_
    intro j j' hne k hk hk'
    omega
  · intro j hj cell hown hother
    have hmem := (mem_steps (by decide)).mp hj
    have hlt := place_lt hi (hstop j hj)
    have hold := hown (i * ncols + j) rfl
    have hleft : cell (i * ncols + j - 1) = x (i * ncols + j - 1) := by
      refine hother _ fun j' hj' heq => ?_
      have hmem' := (mem_steps (by decide)).mp hj'
      omega
    have hright : cell (i * ncols + j + 1) = x (i * ncols + j + 1) := by
      refine hother _ fun j' hj' heq => ?_
      have hmem' := (mem_steps (by decide)).mp hj'
      omega
    rw [adjust_eq hsize (by omega) (by omega), hold, hleft, hright]
    congr 2
    funext k
    rw [Function.update_apply]
    by_cases hk : k = i * ncols + j
    · rw [if_pos hk, if_pos hk, hk]
    · rw [if_neg hk, if_neg hk]

theorem onRow_of_loop {ι : Type} {js : List ι} {w : ι → Nat → Prop} [∀ j, DecidablePred (w j)]
    {S : Nat → Prop} [DecidablePred S] {p : (Nat → Pixel) → Nat → Pixel} {new : Nat → Pixel}
    {bound : Nat} {v : Pixel}
    (hrow : ∀ k, (∃ j ∈ js, w j k) ↔ (k / ncols = i ∧ S k) ∧ k ≠ bound)
    (hbound : bound / ncols = i) (hS : S bound)
    (hnew : ∀ k, k / ncols = i → S k → k ≠ bound → new k = op (x k) (p x k))
    (hv : v = op (x bound) (p x bound)) :
    Function.update (overwritten w js new x) bound v = onRow ncols i (lift op S p x) x := by
  funext k
  rw [Function.update_apply, onRow]
  by_cases hk : k = bound
  · rw [if_pos hk, hk, if_pos hbound, lift, if_pos hS, hv]
  · by_cases hdiv : k / ncols = i
    · by_cases hSk : S k
      · rw [if_neg hk, overwritten_pos ((hrow k).mpr ⟨⟨hdiv, hSk⟩, hk⟩), if_pos hdiv, lift,
          if_pos hSk, hnew k hdiv hSk hk]
      · rw [if_neg hk, overwritten_neg fun h => hSk ((hrow k).mp h).1.2, if_pos hdiv, lift,
          if_neg hSk]
    · rw [if_neg hk, overwritten_neg fun h => hdiv ((hrow k).mp h).1.1, if_neg hdiv]

theorem predictRow_eq (hn : 2 ≤ ncols) (heven : 2 ∣ ncols) (hi : i < nrows)
    (hsize : nrows * ncols ≤ 2 ^ 31) : predictRow op ncols i ⟨nrows * ncols, x⟩ =
      some ⟨nrows * ncols, onRow ncols i (lift op (Odd ncols) (prediction ncols) x) x⟩ := by
  have hlast := place_lt hi (show ncols - 1 < ncols by omega)
  have hsame : ∀ {k}, k = i * ncols + (ncols - 1) ↔ k / ncols = i ∧ k % ncols = ncols - 1 :=
    place_iff (by omega)
  have hplace := hsame.mp rfl
  have hcur : i * ncols + ncols - 1 = i * ncols + (ncols - 1) := by omega
  have hrow : ∀ k, (∃ j ∈ steps 1 (ncols - 1) 2, k = i * ncols + j) ↔
      (k / ncols = i ∧ Odd ncols k) ∧ k ≠ i * ncols + (ncols - 1) := by
    intro k
    rw [Ne, hsame]
    constructor
    · rintro ⟨j, hj, hk⟩
      have hmem := (mem_steps (by decide)).mp hj
      obtain ⟨hdiv, hmod⟩ := (place_iff (by omega)).mp hk
      refine ⟨⟨hdiv, ?_⟩, by omega⟩
      unfold Odd
      omega
    · rintro ⟨⟨hdiv, hodd⟩, hne⟩
      have hlt := Nat.mod_lt k (show 0 < ncols by omega)
      unfold Odd at hodd
      refine ⟨k % ncols, (mem_steps (by decide)).mpr ⟨by omega, by omega, by omega⟩, ?_⟩
      exact (place_iff hlt).mpr ⟨hdiv, rfl⟩
  have hodd : Odd ncols (i * ncols + (ncols - 1)) := by
    unfold Odd
    omega
  have hleft : ¬ Odd ncols (i * ncols + (ncols - 1) - 1) := by
    have hmod := (@left_place ncols (i * ncols + (ncols - 1)) (by omega) (by omega)).2
    unfold Odd
    omega
  have hstop : ∀ j ∈ steps 1 (ncols - 1) 2, j + 1 < ncols := by
    intro j hj
    have hmem := (mem_steps (by decide)).mp hj
    omega
  rw [predictRow, adjust_loop Nat.one_pos hstop hi hsize, Option.bind_eq_bind, Option.bind_some]
  dsimp only
  rw [hcur, get_eq hsize (by omega), get_eq hsize hlast]
  simp only [Option.bind_eq_bind, Option.bind_some, set_eq hsize hlast]
  congr 2
  refine onRow_of_loop hrow hplace.1 hodd ?_ ?_
  · intro k hdiv _ hne
    have hlt := Nat.mod_lt k (show 0 < ncols by omega)
    have hmod : k % ncols ≠ ncols - 1 := fun hmod => hne (hsame.mpr ⟨hdiv, hmod⟩)
    rw [prediction, if_pos (by omega)]
  · rw [prediction, if_neg (by omega), overwritten_neg fun h => ((hrow _).mp h).2 rfl,
      overwritten_neg fun h => hleft ((hrow _).mp h).1.2]

theorem updateRow_eq (hn : 2 ≤ ncols) (heven : 2 ∣ ncols) (hi : i < nrows)
    (hsize : nrows * ncols ≤ 2 ^ 31) : updateRow op ncols i ⟨nrows * ncols, x⟩ =
      some ⟨nrows * ncols, onRow ncols i (lift op (Even ncols) (correction ncols) x) x⟩ := by
  have hfirst := place_lt hi (show 0 < ncols by omega)
  have hnext := place_lt hi (show 1 < ncols by omega)
  have hsame : ∀ {k}, k = i * ncols + 0 ↔ k / ncols = i ∧ k % ncols = 0 := place_iff (by omega)
  have hplace := hsame.mp rfl
  have hrow : ∀ k, (∃ j ∈ steps 2 ncols 2, k = i * ncols + j) ↔
      (k / ncols = i ∧ Even ncols k) ∧ k ≠ i * ncols + 0 := by
    intro k
    rw [Ne, hsame]
    constructor
    · rintro ⟨j, hj, hk⟩
      have hmem := (mem_steps (by decide)).mp hj
      obtain ⟨hdiv, hmod⟩ := (place_iff (by omega)).mp hk
      refine ⟨⟨hdiv, ?_⟩, by omega⟩
      unfold Even
      omega
    · rintro ⟨⟨hdiv, hev⟩, hne⟩
      have hlt := Nat.mod_lt k (show 0 < ncols by omega)
      unfold Even at hev
      refine ⟨k % ncols, (mem_steps (by decide)).mpr ⟨by omega, hlt, by omega⟩, ?_⟩
      exact (place_iff hlt).mpr ⟨hdiv, rfl⟩
  have hev : Even ncols (i * ncols + 0) := by
    unfold Even
    omega
  have hright : ¬ Even ncols (i * ncols + 0 + 1) := by
    have hmod := (@right_place ncols (i * ncols + 0) (by omega)).2
    unfold Even
    omega
  have hstop : ∀ j ∈ steps 2 ncols 2, j + 1 < ncols := by
    intro j hj
    have hmem := (mem_steps (by decide)).mp hj
    omega
  rw [updateRow, adjust_loop Nat.two_pos hstop hi hsize, Option.bind_eq_bind, Option.bind_some]
  dsimp only
  rw [get_eq hsize hnext, get_eq hsize hfirst]
  simp only [Option.bind_eq_bind, Option.bind_some, set_eq hsize hfirst]
  congr 2
  refine onRow_of_loop hrow hplace.1 hev ?_ ?_
  · intro k hdiv _ hne
    rw [correction, if_neg fun hmod => hne (hsame.mpr ⟨hdiv, hmod⟩)]
  · rw [correction, if_pos hplace.2, overwritten_neg fun h => ((hrow _).mp h).2 rfl,
      overwritten_neg fun h => hright ((hrow _).mp h).1.2]

end Lifted

end EspDrivers.Dwt53
