import EspDrivers.Checked
import EspDrivers.Spmv

/-! initMat of the benchmark: a matrix of N rows and N columns with NNZ values at places that are
drawn one after the other. When few places are left, all of them are taken. An int that overflows
has no result. -/
namespace EspDrivers.Spmv
open Buffers Checked SparseRows

section Model

structure Filling where
  nnzAssigned : Nat
  fillRemaining : Bool
  calls : Nat
  colind : Buffer Nat
  rowDelimiters : Buffer Nat

variable (N NNZ : Nat) (draw : Nat → Bool)

/-- The round for `i` and `j`. `draw k` is whether the call `k` of drand48 is at most `prob`; it
is made only as long as values are missing. -/
def initEntry (i : Nat) (s : Filling) (j : Nat) : Option Filling := do
  let numEntriesLeft ← int ((← int (N * N)) - (← int ((← int (i * N)) + j)))
  let needToAssign ← int (NNZ - s.nnzAssigned)
  let fillRemaining := s.fillRemaining || decide (numEntriesLeft ≤ needToAssign)
  let drawn := decide (s.nnzAssigned < NNZ) && draw s.calls
  let calls := if s.nnzAssigned < NNZ then s.calls + 1 else s.calls
  if drawn || fillRemaining then
    let colind ← s.colind.store s.nnzAssigned j
    return ⟨s.nnzAssigned + 1, fillRemaining, calls, colind, s.rowDelimiters⟩
  else return { s with fillRemaining := fillRemaining, calls := calls }

def initRow (s : Filling) (i : Nat) : Option Filling := do
  let rowDelimiters ← s.rowDelimiters.store i s.nnzAssigned
  (List.range N).foldlM (initEntry N NNZ draw i) { s with rowDelimiters := rowDelimiters }

def initMat (colind rowDelimiters : Buffer Nat) : Option (Buffer Nat × Buffer Nat) := do
  let s ← (List.range N).foldlM (initRow N NNZ draw) ⟨0, false, 0, colind, rowDelimiters⟩
  some (s.colind, ← s.rowDelimiters.store N NNZ)

end Model

section Filled
variable {N NNZ p i j : Nat} {draw : Nat → Bool} {s t : Filling}

/-- Where the rows begin: those from `i` on have not been begun. -/
def starts (s : Filling) (i r : Nat) : Nat :=
  if r < i then s.rowDelimiters.cell r else s.nnzAssigned

/-- The rows before `i` are in the arrays. -/
structure Filled (N NNZ i : Nat) (s : Filling) : Prop where
  colind : s.colind.size = NNZ
  rowDelimiters : s.rowDelimiters.size = N + 1
  few : s.nnzAssigned ≤ NNZ
  col : ∀ k < s.nnzAssigned, s.colind.cell k < N
  first : starts s i 0 = 0
  mono : ∀ r < i, starts s i r ≤ starts s i (r + 1)
  rising : ∀ r < i, ∀ k, starts s i r ≤ k → k + 1 < starts s i (r + 1) →
    s.colind.cell k < s.colind.cell (k + 1)

/-- No more values are missing than there are places from `p` on, and just as many once all
places are taken. -/
structure Missing (N NNZ p : Nat) (s : Filling) : Prop where
  room : NNZ - s.nnzAssigned ≤ N * N - p
  tight : s.fillRemaining = true → NNZ - s.nnzAssigned = N * N - p

def Below (i j : Nat) (s : Filling) : Prop :=
  ∀ k, s.rowDelimiters.cell i ≤ k → k < s.nnzAssigned → s.colind.cell k < j

theorem starts_succ (s : Filling) (i : Nat) : starts s (i + 1) (i + 1) = s.nnzAssigned :=
  if_neg (Nat.lt_irrefl _)

theorem starts_row (h : j ≤ i) : starts s (i + 1) j = s.rowDelimiters.cell j :=
  if_pos (Nat.lt_succ_of_le h)

theorem Filled.starts_le {r q : Nat} (h : Filled N NNZ i s) (hrq : r ≤ q) (hq : q ≤ i) :
    starts s i r ≤ starts s i q := by
  induction q, hrq using Nat.le_induction with
  | base => exact le_rfl
  | succ q _ ih => exact (ih (by omega)).trans (h.mono q hq)

/-- A value of the row `i` has been put in the column `j`. -/
structure Assigned (j : Nat) (s t : Filling) : Prop where
  count : t.nnzAssigned = s.nnzAssigned + 1
  colind : t.colind = ⟨s.colind.size, Function.update s.colind.cell s.nnzAssigned j⟩
  rowDelimiters : t.rowDelimiters = s.rowDelimiters

theorem Assigned.old (ha : Assigned j s t) {k : Nat} (hk : k < s.nnzAssigned) :
    t.colind.cell k = s.colind.cell k := by
  rw [ha.colind]
  exact Function.update_of_ne hk.ne _ _

theorem Assigned.new (ha : Assigned j s t) : t.colind.cell s.nnzAssigned = j := by
  rw [ha.colind]
  exact Function.update_self _ _ _

theorem Assigned.starts_eq (ha : Assigned j s t) {r : Nat} (hr : r ≤ i) :
    starts t (i + 1) r = starts s (i + 1) r := by
  rw [starts_row hr, starts_row hr, ha.rowDelimiters]

theorem Filled.starts_le_assigned (h : Filled N NNZ (i + 1) s) {r : Nat} (hr : r ≤ i) :
    starts s (i + 1) r ≤ s.nnzAssigned := by
  rw [← starts_succ s i]
  exact h.starts_le (by omega) le_rfl

theorem Assigned.mono (ha : Assigned j s t) (h : Filled N NNZ (i + 1) s) :
    ∀ r < i + 1, starts t (i + 1) r ≤ starts t (i + 1) (r + 1) := by
  intro r hr
  rw [ha.starts_eq (Nat.le_of_lt_succ hr)]
  cases Nat.lt_or_eq_of_le (Nat.le_of_lt_succ hr) with
  | inl hlt =>
    rw [ha.starts_eq hlt]
    exact h.mono r hr
  | inr heq =>
    subst heq
    rw [starts_succ, ha.count]
    exact (h.starts_le_assigned le_rfl).trans (Nat.le_succ _)

theorem Assigned.rising (ha : Assigned j s t) (h : Filled N NNZ (i + 1) s)
    (hbelow : Below i j s) : ∀ r < i + 1, ∀ k, starts t (i + 1) r ≤ k →
      k + 1 < starts t (i + 1) (r + 1) → t.colind.cell k < t.colind.cell (k + 1) := by
  intro r hr k hle hlt
  rw [ha.starts_eq (Nat.le_of_lt_succ hr)] at hle
  cases Nat.lt_or_eq_of_le (Nat.le_of_lt_succ hr) with
  | inl hri =>
    rw [ha.starts_eq (show r + 1 ≤ i from hri)] at hlt
    have hbound : starts s (i + 1) (r + 1) ≤ s.nnzAssigned := h.starts_le_assigned hri
    rw [ha.old (by omega), ha.old (by omega)]
    exact h.rising r hr k hle hlt
  | inr heq =>
    subst heq
    rw [starts_succ, ha.count] at hlt
    rw [ha.old (by omega)]
    cases Nat.lt_or_eq_of_le (show k + 1 ≤ s.nnzAssigned by omega) with
    | inl hk =>
      rw [ha.old hk]
      exact h.rising r hr k hle (by rw [starts_succ]; exact hk)
    | inr hk =>
      rw [hk, ha.new]
      exact hbelow k (by rwa [starts_row le_rfl] at hle) (by omega)

theorem Assigned.below (ha : Assigned j s t) (hbelow : Below i j s) : Below i (j + 1) t := by
  intro k hle hk
  rw [ha.rowDelimiters] at hle
  rw [ha.count] at hk
  cases Nat.lt_or_eq_of_le (Nat.le_of_lt_succ hk) with
  | inl hlt =>
    rw [ha.old hlt]
    exact (hbelow k hle hlt).trans (Nat.lt_succ_self j)
  | inr heq =>
    rw [heq, ha.new]
    exact Nat.lt_succ_self j

theorem Assigned.filled (ha : Assigned j s t) (h : Filled N NNZ (i + 1) s)
    (hbelow : Below i j s) (hj : j < N) (hroom : s.nnzAssigned < NNZ) :
    Filled N NNZ (i + 1) t where
  colind := by
    rw [ha.colind]
    exact h.colind
  rowDelimiters := by
    rw [ha.rowDelimiters]
    exact h.rowDelimiters
  few := ha.count ▸ hroom
  col k hk := by
    rw [ha.count] at hk
    cases Nat.lt_or_eq_of_le (Nat.le_of_lt_succ hk) with
    | inl hlt =>
      rw [ha.old hlt]
      exact h.col k hlt
    | inr heq =>
      rw [heq, ha.new]
      exact hj
  first := (ha.starts_eq (Nat.zero_le i)).trans h.first
  mono := ha.mono h
  rising := ha.rising h hbelow

theorem int_places (hij : i * N + j < N * N) (hsmall : N * N < 2 ^ 31) :
    int ((N : Int) * N) = some ((N : Int) * N) ∧ int ((i : Int) * N) = some ((i : Int) * N) ∧
      int ((i : Int) * N + j) = some ((i : Int) * N + j) ∧
      int ((N : Int) * N - ((i : Int) * N + j)) = some ((N : Int) * N - ((i : Int) * N + j)) := by
  have hij' : (i : Int) * N + j < N * N := by exact_mod_cast hij
  have hsmall' : (N : Int) * N < 2 ^ 31 := by exact_mod_cast hsmall
  have hrow : 0 ≤ (i : Int) * N := by positivity
  exact ⟨int_eq (by omega) hsmall', int_eq (by omega) (by omega), int_eq (by omega) (by omega),
    int_eq (by omega) (by omega)⟩

/-- The round for `i` and `j`, counted in natural numbers. -/
theorem initEntry_eq (hij : i * N + j < N * N) (hsmall : N * N < 2 ^ 31) (hfit : NNZ ≤ N * N)
    (hfew : s.nnzAssigned ≤ NNZ) : initEntry N NNZ draw i s j =
      let fillRemaining := s.fillRemaining ||
        decide (N * N - (i * N + j) ≤ NNZ - s.nnzAssigned)
      let calls := if s.nnzAssigned < NNZ then s.calls + 1 else s.calls
      if (decide (s.nnzAssigned < NNZ) && draw s.calls) || fillRemaining then
        (s.colind.store s.nnzAssigned j).map fun colind =>
          ⟨s.nnzAssigned + 1, fillRemaining, calls, colind, s.rowDelimiters⟩
      else some { s with fillRemaining := fillRemaining, calls := calls } := by
  have hleft : decide ((N : Int) * N - ((i : Int) * N + j) ≤ (NNZ : Int) - s.nnzAssigned) =
      decide (N * N - (i * N + j) ≤ NNZ - s.nnzAssigned) := by
    refine decide_eq_decide.mpr ?_
    have hiff : ((N * N : Nat) : Int) - ((i * N + j : Nat) : Int) ≤
        ((NNZ : Nat) : Int) - ((s.nnzAssigned : Nat) : Int) ↔
          N * N - (i * N + j) ≤ NNZ - s.nnzAssigned := by omega
    push_cast at hiff
    exact hiff
  obtain ⟨hsquare, hrow, hplace, hdiff⟩ := int_places hij hsmall
  have hneed : int ((NNZ : Int) - s.nnzAssigned) = some ((NNZ : Int) - s.nnzAssigned) :=
    int_eq (by omega) (by omega)
  rw [initEntry, hsquare, hrow, Option.bind_eq_bind, Option.bind_some, Option.bind_eq_bind,
    Option.bind_some, hplace, Option.bind_some, hdiff, Option.bind_some, hneed, Option.bind_some,
    hleft]
  dsimp only
  split
  · cases s.colind.store s.nnzAssigned j <;> rfl
  · rfl

theorem initEntry_ends (hij : i * N + j < N * N) (hsmall : N * N < 2 ^ 31) (hfit : NNZ ≤ N * N)
    (hj : j < N) (h : Filled N NNZ (i + 1) s) (hbelow : Below i j s)
    (hmissing : Missing N NNZ (i * N + j) s) :
    ∃ t, initEntry N NNZ draw i s j = some t ∧ Filled N NNZ (i + 1) t ∧ Below i (j + 1) t ∧
      Missing N NNZ (i * N + (j + 1)) t := by
  have hfew := h.few
  have hroom := hmissing.room
  rw [initEntry_eq hij hsmall hfit hfew]
  dsimp only
  split
  · next htake =>
    have hfree : s.nnzAssigned < NNZ := by
      simp only [Bool.or_eq_true, Bool.and_eq_true, decide_eq_true_eq] at htake
      obtain ⟨hlt, -⟩ | hfill | hfull := htake
      · exact hlt
      · have htight := hmissing.tight hfill
        omega
      · omega
    have hstore : s.colind.store s.nnzAssigned j = some
        ⟨s.colind.size, Function.update s.colind.cell s.nnzAssigned j⟩ :=
      Buffer.store_eq (h.colind ▸ hfree) j
    rw [hstore]
    have ha (fillRemaining : Bool) (calls : Nat) : Assigned j s ⟨s.nnzAssigned + 1, fillRemaining,
      calls, ⟨s.colind.size, Function.update s.colind.cell s.nnzAssigned j⟩, s.rowDelimiters⟩ :=
        ⟨rfl, rfl, rfl⟩
    refine ⟨_, rfl, (ha _ _).filled h hbelow hj hfree, (ha _ _).below hbelow, ?_, ?_⟩
    · simp only
      omega
    · intro hfill
      simp only [Bool.or_eq_true, decide_eq_true_eq] at hfill ⊢
      cases hfill with
      | inl hold =>
        have htight := hmissing.tight hold
        omega
      | inr hnow => omega
  · next hskip =>
    refine ⟨_, rfl, ⟨h.colind, h.rowDelimiters, h.few, h.col, h.first, h.mono, h.rising⟩, ?_, ?_,
      ?_⟩
    · intro k hle hk
      exact (hbelow k hle hk).trans (Nat.lt_succ_self j)
    · simp only [Bool.or_eq_true, decide_eq_true_eq, not_or] at hskip
      simp only
      omega
    · intro hfill
      simp only at hfill
      exact absurd (by rw [hfill, Bool.or_true]) hskip

theorem Filled.begin (h : Filled N NNZ i s) (hi : i < N) : ∃ t,
    s.rowDelimiters.store i s.nnzAssigned = some t ∧
      Filled N NNZ (i + 1) { s with rowDelimiters := t } ∧
      Below i 0 { s with rowDelimiters := t } := by
  have hsize := h.rowDelimiters
  let t : Buffer Nat := ⟨s.rowDelimiters.size, Function.update s.rowDelimiters.cell i s.nnzAssigned⟩
  have hself : t.cell i = s.nnzAssigned := Function.update_self _ _ _
  have hsame : starts { s with rowDelimiters := t } (i + 1) = starts s i := by
    funext r
    obtain hlt | heq | hgt := Nat.lt_trichotomy r i
    · rw [starts_row hlt.le, starts, if_pos hlt]
      exact Function.update_of_ne hlt.ne _ _
    · subst heq
      rw [starts_row le_rfl, starts, if_neg (Nat.lt_irrefl r)]
      exact hself
    · rw [starts, starts, if_neg (by omega), if_neg (by omega)]
  refine ⟨t, Buffer.store_eq (by omega) _, ⟨h.colind, hsize, h.few, h.col, ?_, ?_, ?_⟩, ?_⟩
  · rw [hsame]
    exact h.first
  · intro r hr
    rw [hsame]
    cases Nat.lt_or_eq_of_le (Nat.le_of_lt_succ hr) with
    | inl hlt => exact h.mono r hlt
    | inr heq =>
      rw [heq, starts, starts, if_neg (by omega), if_neg (by omega)]
  · intro r hr k hle hlt
    rw [hsame] at hle hlt
    cases Nat.lt_or_eq_of_le (Nat.le_of_lt_succ hr) with
    | inl hri => exact h.rising r hri k hle hlt
    | inr heq =>
      rw [heq, starts, if_neg (by omega)] at hle hlt
      omega
  · intro k hle hlt
    simp only [hself] at hle hlt
    omega

theorem initRow_ends (hi : i < N) (hsmall : N * N < 2 ^ 31) (hfit : NNZ ≤ N * N)
    (h : Filled N NNZ i s) (hmissing : Missing N NNZ (i * N) s) :
    ∃ t, initRow N NNZ draw s i = some t ∧ Filled N NNZ (i + 1) t ∧
      Missing N NNZ ((i + 1) * N) t := by
  obtain ⟨rowDelimiters, hstore, hfilled, hbelow⟩ := h.begin hi
  have hlast : i * N + N ≤ N * N := by
    have hmul := Nat.mul_le_mul_right N (Nat.succ_le_of_lt hi)
    rwa [Nat.succ_mul] at hmul
  have hloop : ∃ t, (List.range N).foldlM (initEntry N NNZ draw i)
      { s with rowDelimiters := rowDelimiters } = some t ∧
        Filled N NNZ (i + 1) t ∧ Below i N t ∧ Missing N NNZ (i * N + N) t := by
    refine foldlM_range_ends N
      (fun j s => Filled N NNZ (i + 1) s ∧ Below i j s ∧ Missing N NNZ (i * N + j) s)
      ⟨hfilled, hbelow, hmissing.room, hmissing.tight⟩ ?_
    intro j hj s hs
    obtain ⟨hfilled, hbelow, hmissing⟩ := hs
    exact initEntry_ends (by omega) hsmall hfit hj hfilled hbelow hmissing
  obtain ⟨t, hrun, hfilled', -, hmissing'⟩ := hloop
  refine ⟨t, ?_, hfilled', by rwa [Nat.succ_mul]⟩
  rw [initRow, hstore]
  exact hrun

def rowsOf {R : Type} (val : Nat → R) (colind rowDelimiters : Buffer Nat) : Rows R :=
  ⟨rowDelimiters.cell, colind.cell, val⟩

/-- Whatever numbers are drawn, initMat stays inside its arrays and builds NNZ values, with the
columns of every row in rising order. -/
theorem initMat_compressed (draw : Nat → Bool) (hsmall : N * N < 2 ^ 31) (hfit : NNZ ≤ N * N)
    {colind rowDelimiters : Buffer Nat} (hcolind : colind.size = NNZ)
    (hdelimiters : rowDelimiters.size = N + 1) :
    ∃ c r, initMat N NNZ draw colind rowDelimiters = some (c, r) ∧
      (∀ (R : Type) (val : Nat → R), (rowsOf val c r).Compressed N N NNZ) ∧
      ∀ i < N, ∀ k, r.cell i ≤ k → k + 1 < r.cell (i + 1) → c.cell k < c.cell (k + 1) := by
  have hstart : Filled N NNZ 0 ⟨0, false, 0, colind, rowDelimiters⟩ :=
    ⟨hcolind, hdelimiters, Nat.zero_le _, fun k hk => absurd hk (Nat.not_lt_zero k), rfl,
      fun r hr => absurd hr (Nat.not_lt_zero r), fun r hr => absurd hr (Nat.not_lt_zero r)⟩
  have hloop : ∃ s, (List.range N).foldlM (initRow N NNZ draw)
      ⟨0, false, 0, colind, rowDelimiters⟩ = some s ∧
        Filled N NNZ N s ∧ Missing N NNZ (N * N) s := by
    refine foldlM_range_ends N (fun i s => Filled N NNZ i s ∧ Missing N NNZ (i * N) s)
      ⟨hstart, by simp only; omega, fun h => by cases h⟩ ?_
    exact fun i hi s hs => initRow_ends hi hsmall hfit hs.1 hs.2
  obtain ⟨s, hrun, hfilled, hmissing⟩ := hloop
  have hall : s.nnzAssigned = NNZ := by
    have hroom := hmissing.room
    have hfew := hfilled.few
    omega
  have hsize := hfilled.rowDelimiters
  let r : Buffer Nat := ⟨s.rowDelimiters.size, Function.update s.rowDelimiters.cell N NNZ⟩
  have hcell (i : Nat) (hi : i ≤ N) : r.cell i = starts s N i := by
    cases Nat.lt_or_eq_of_le hi with
    | inl hlt =>
      rw [starts, if_pos hlt]
      exact Function.update_of_ne hlt.ne _ _
    | inr heq =>
      subst heq
      rw [starts, if_neg (Nat.lt_irrefl i), hall]
      exact Function.update_self _ _ _
  refine ⟨s.colind, r, ?_, ?_, ?_⟩
  · rw [initMat, hrun, Option.bind_eq_bind, Option.bind_some, Buffer.store_eq (by omega)]
    rfl
  · intro R val
    refine ⟨?_, ?_, ?_, ?_⟩
    · exact (hcell 0 (Nat.zero_le N)).trans hfilled.first
    · intro i hi
      change r.cell i ≤ r.cell (i + 1)
      rw [hcell i hi.le, hcell (i + 1) hi]
      exact hfilled.mono i hi
    · exact Function.update_self _ _ _
    · intro k hk
      exact hfilled.col k (hall ▸ hk)
  · intro i hi k hle hlt
    rw [hcell i hi.le] at hle
    rw [hcell (i + 1) hi] at hlt
    exact hfilled.rising i hi k hle hlt

/-- Three values in two rows: the first number drawn is too large. -/
theorem initMat_compressed_two : ∃ c r,
    initMat 2 3 (fun k => decide (k ≠ 0)) ⟨3, fun _ => 0⟩ ⟨3, fun _ => 0⟩ = some (c, r) ∧
      (∀ (R : Type) (val : Nat → R), (rowsOf val c r).Compressed 2 2 3) ∧
      ∀ i < 2, ∀ k, r.cell i ≤ k → k + 1 < r.cell (i + 1) → c.cell k < c.cell (k + 1) :=
  initMat_compressed (fun k => decide (k ≠ 0)) (by decide) (by decide) rfl rfl

end Filled

end EspDrivers.Spmv
