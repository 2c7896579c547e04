import EspDrivers.Checked
import EspDrivers.Rearrange

/-! The quicksort of the sort application. It leaves short ranges as they are, and one pass of
insertion sort over the whole array finishes the work. -/
namespace EspDrivers.Sort
open Buffers Checked

section Model
variable {α β : Type} [LinearOrder β]

/- The values are compared by `key` only, as two floats that are no NaN are compared by the
numbers that they stand for. A while loop of the source makes less than `fuel` rounds. -/
variable (key : α → β) (fuel : Nat)

structure Hole (α : Type) where
  empty : Nat
  value : Buffer α

def keepsShifting (current : α) (s : Hole α) : Option Bool :=
  if s.empty > 0 then do
    return decide (key current < key (← s.value.load (s.empty - 1)))
  else some false

def shift (s : Hole α) : Option (Hole α) := do
  let value ← s.value.store s.empty (← s.value.load (s.empty - 1))
  return ⟨s.empty - 1, value⟩

def insertRound (value : Buffer α) (i : Nat) : Option (Buffer α) := do
  let current ← value.load i
  let s ← whileLoop (keepsShifting key current) shift fuel ⟨i, value⟩
  s.value.store s.empty current

def insertionSort (value : Buffer α) (len : Int) : Option (Buffer α) :=
  (steps 1 len.toNat 1).foldlM (insertRound key fuel) value

inductive Candidate
  | low | mid | high

def Candidate.index (low mid high : Nat) : Candidate → Nat
  | .low => low
  | .mid => mid
  | .high => high

/-- Which candidate partition takes for a range, from the values at its ends and in its middle. -/
abbrev Choice (α : Type) := Nat → Nat → α → α → α → Candidate

/-- The choice of the source, by the arithmetic of floats. -/
def medianOfThree (sub mul : α → α → α) (nonneg : α → Bool) : Choice α :=
  fun _ _ low mid high =>
    if nonneg (mul (sub low mid) (sub high low)) then .low
    else if nonneg (mul (sub mid low) (sub high mid)) then .mid
    else .high

def keepsLeft (array : Buffer α) (cur : α) (high left : Nat) : Option Bool := do
  return decide (key (← array.load left) ≤ key cur) && decide (left < high)

def scanLeft (array : Buffer α) (cur : α) (high left : Nat) : Option Nat :=
  whileLoop (keepsLeft key array cur high) (fun left => some (left + 1)) fuel left

def keepsRight (array : Buffer α) (cur : α) (right : Nat) : Option Bool := do
  return decide (key cur < key (← array.load right))

/-- The read that would follow a step below 0 is outside of the array. -/
def scanRight (array : Buffer α) (cur : α) (right : Nat) : Option Nat :=
  whileLoop (keepsRight key array cur)
    (fun right => if right = 0 then none else some (right - 1)) fuel right

structure Scan (α : Type) where
  left : Nat
  right : Nat
  array : Buffer α

def partitionRound (cur : α) (high : Nat) (s : Scan α) : Option (Scan α) := do
  let left ← scanLeft key fuel s.array cur high s.left
  let right ← scanRight key fuel s.array cur s.right
  if left < right then
    let tmpVal ← s.array.load right
    let array ← s.array.store right (← s.array.load left)
    let array ← array.store left tmpVal
    return ⟨left, right, array⟩
  else
    return ⟨left, right, s.array⟩

variable (pick : Choice α)

def partition (array : Buffer α) (low high : Nat) : Option (Nat × Buffer α) := do
  let mid := (← int (low + high)).toNat / 2
  let candidate := pick low high (← array.load low) (← array.load mid) (← array.load high)
  let pivot := candidate.index low mid high
  let cur ← array.load pivot
  let array ← array.store pivot (← array.load low)
  let array ← array.store low cur
  let s ← whileLoop (fun s => some (decide (s.left < s.right)))
    (partitionRound key fuel cur high) fuel ⟨low, high, array⟩
  let array ← s.array.store low (← s.array.load s.right)
  let array ← array.store s.right cur
  return (s.right, array)

def maxThresh : Int := 10

/-- `high` is -1 where the pivot came to stand at 0. -/
def quicksortInner : Nat → Buffer α → Nat → Int → Option (Buffer α)
  | 0, _, _, _ => none
  | fuel + 1, array, low, high => do
    let length ← int (high - low + 1)
    if high > low then
      if length > maxThresh then
        let (pivot, array) ← partition key fuel pick array low high.toNat
        let array ← quicksortInner fuel array low (pivot - 1)
        quicksortInner fuel array (pivot + 1) high
      else return array
    else return array

def quicksort (array : Buffer α) (len : Int) : Option (Buffer α) := do
  let array ← quicksortInner key pick fuel array 0 (len - 1)
  insertionSort key fuel array len

end Model

section Insertion
variable {α β : Type} [LinearOrder β] {key : α → β} {b : Buffer α} {i n : Nat}

def SortedTo (key : α → β) (b : Buffer α) (n : Nat) : Prop :=
  ∀ k < n, ∀ j < k, key (b.cell j) ≤ key (b.cell k)

def filled (empty : Nat) (value : Buffer α) (current : α) : Buffer α :=
  ⟨value.size, Function.update value.cell empty current⟩

/-- The values behind the hole are greater than the one to insert, and the others of the
prefix are in order. -/
structure Inserting (key : α → β) (b : Buffer α) (i empty : Nat) (value : Buffer α) : Prop where
  place : empty ≤ i
  size : value.size = b.size
  sifted : Siftings key b (filled empty value (b.cell i))
  behind : ∀ k, empty < k → k ≤ i → key (b.cell i) < key (value.cell k)
  ordered : SortedTo key b i → ∀ k ≤ i, k ≠ empty → ∀ j < k, j ≠ empty →
    key (value.cell j) ≤ key (value.cell k)

theorem inserting_start (key : α → β) (b : Buffer α) (i : Nat) : Inserting key b i i b := by
  refine ⟨le_rfl, rfl, ?_, ?_, ?_⟩
  · have hself : filled i b (b.cell i) = b := Buffer.ext rfl (Function.update_eq_self i b.cell)
    rw [hself]
  · intro k hik hki
    omega
  · intro hsorted k hki hne j hj _
    exact hsorted k (by omega) j hj

theorem Inserting.shift {e : Nat} {value : Buffer α} (h : Inserting key b i (e + 1) value)
    (hi : i < b.size) (hlt : key (b.cell i) < key (value.cell e)) :
    Inserting key b i e ⟨value.size, Function.update value.cell (e + 1) (value.cell e)⟩ := by
  have hplace := h.place
  have hsize := h.size
  refine ⟨by omega, h.size, ?_, ?_, ?_⟩
  · refine h.sifted.tail ⟨e, ?_, ?_, ?_⟩
    · exact hsize ▸ Nat.lt_of_le_of_lt hplace hi
    · simpa [filled] using hlt
    · refine Buffer.ext rfl ?_
      funext k
      by_cases hk : k = e
      · subst hk
        simp [filled]
      · by_cases hk' : k = e + 1
        · subst hk'
          simp [filled]
        · simp [filled, Buffer.swap_of_ne, hk, hk']
  · intro k hk hki
    by_cases hk' : k = e + 1
    · subst hk'
      simpa using hlt
    · simpa [hk'] using h.behind k (by omega) hki
  · intro hsorted k hki hk j hjk hj
    have hordered := h.ordered hsorted
    by_cases hk' : k = e + 1
    · subst hk'
      simpa [Nat.ne_of_lt hjk] using hordered e (by omega) (by omega) j (by omega) (by omega)
    · by_cases hj' : j = e + 1
      · subst hj'
        simpa [hk'] using hordered k hki hk' e (by omega) (by omega)
      · simpa [hk', hj'] using hordered k hki hk' j hjk hj'

theorem Inserting.stop {e : Nat} {value : Buffer α} (h : Inserting key b i e value)
    (hlast : ∀ j, j + 1 = e → key (value.cell j) ≤ key (b.cell i)) (hsorted : SortedTo key b i) :
    SortedTo key (filled e value (b.cell i)) (i + 1) := by
  intro k hk j hjk
  have hordered := h.ordered hsorted
  by_cases hke : k = e
  · subst hke
    have hle : key (value.cell j) ≤ key (b.cell i) := by
      by_cases hj : j + 1 = k
      · exact hlast j hj
      · have hpos : 0 < k := Nat.zero_lt_of_lt hjk
        refine le_trans ?_ (hlast (k - 1) (by omega))
        exact hordered (k - 1) (by omega) (by omega) j (by omega) (by omega)
    simpa [filled, Nat.ne_of_lt hjk] using hle
  · by_cases hje : j = e
    · subst hje
      simpa [filled, hke] using (h.behind k hjk (by omega)).le
    · simpa [filled, hke, hje] using hordered k (by omega) hke j hjk hje

theorem insertRound_ends (key : α → β) (hi : i < b.size) :
    ∃ c, (∀ fuel, i < fuel → insertRound key fuel b i = some c) ∧ Siftings key b c ∧
      (SortedTo key b i → SortedTo key c (i + 1)) := by
  have hround : ∀ s : Hole α, Inserting key b i s.empty s.value →
      keepsShifting key (b.cell i) s = some false ∨ keepsShifting key (b.cell i) s = some true ∧
        ∃ t, shift s = some t ∧ Inserting key b i t.empty t.value ∧ t.empty < s.empty := by
    rintro ⟨e, value⟩ hs
    have hplace : e ≤ i := hs.place
    have hsize : value.size = b.size := hs.size
    cases e with
    | zero => exact Or.inl rfl
    | succ e =>
      have hload : value.load e = some (value.cell e) := Buffer.load_eq (by omega)
      have hstore := Buffer.store_eq (b := value) (k := e + 1) (by omega) (value.cell e)
      by_cases hlt : key (b.cell i) < key (value.cell e)
      · refine Or.inr ⟨by simp [keepsShifting, hload, hlt],
          ⟨e, ⟨value.size, Function.update value.cell (e + 1) (value.cell e)⟩⟩, ?_,
          hs.shift hi hlt, Nat.lt_succ_self e⟩
        simp [Sort.shift, hload, hstore]
      · exact Or.inl (by simpa [keepsShifting, hload] using hlt)
  obtain ⟨⟨e, value⟩, hrun, hs, hstop⟩ := whileLoop_ends _ (fun s : Hole α => s.empty) hround
    (s := ⟨i, b⟩) (inserting_start key b i)
  have hplace : e ≤ i := hs.place
  have hsize : value.size = b.size := hs.size
  refine ⟨filled e value (b.cell i), ?_, hs.sifted, hs.stop ?_⟩
  · intro fuel hfuel
    have hstore := Buffer.store_eq (b := value) (k := e) (by omega) (b.cell i)
    simp [insertRound, Buffer.load_eq hi, hrun fuel hfuel, hstore, filled]
  · rintro j rfl
    simpa [keepsShifting, Buffer.load_eq (b := value) (k := j) (by omega)] using hstop

theorem insertionSort_ends (key : α → β) (b : Buffer α) :
    ∃ c, (∀ fuel, b.size ≤ fuel → insertionSort key fuel b b.size = some c) ∧ Siftings key b c ∧
      SortedTo key c b.size := by
  have hrun (n : Nat) (hn : n + 1 ≤ b.size) :
      ∃ c, (∀ fuel, b.size ≤ fuel →
        (List.range' 1 n).foldlM (insertRound key fuel) b = some c) ∧ Siftings key b c ∧
          SortedTo key c (n + 1) := by
    induction n with
    | zero =>
      refine ⟨b, fun _ _ => rfl, Relation.ReflTransGen.refl, ?_⟩
      intro k hk j hjk
      omega
    | succ n ih =>
      obtain ⟨c, hc, hsift, hsorted⟩ := ih (by omega)
      have hsize := hsift.size
      obtain ⟨d, hd, hsift', hsorted'⟩ := insertRound_ends (b := c) (i := n + 1) key (by omega)
      refine ⟨d, ?_, hsift.trans hsift', hsorted' hsorted⟩
      intro fuel hfuel
      have hround := hd fuel (by omega)
      rw [Nat.add_comm n 1] at hround
      simp [List.range'_concat, hc fuel hfuel, hround]
  have hsteps : steps 1 (b.size : Int).toNat 1 = List.range' 1 (b.size - 1) := by
    simp [steps]
  simp only [insertionSort, hsteps]
  cases hb : b.size with
  | zero =>
    refine ⟨b, fun _ _ => rfl, Relation.ReflTransGen.refl, ?_⟩
    intro k hk
    omega
  | succ n => simpa [hb] using hrun n hb.ge

end Insertion

section Partition
variable {α β : Type} [LinearOrder β] {key : α → β} {pick : Choice α} {b : Buffer α} {cur : α}
  {low high : Nat}

theorem swap_stores {i j : Nat} (hi : i < b.size) (hj : j < b.size) :
    (do
      let c ← b.store j (b.cell i)
      c.store i (b.cell j)) = some (b.swap i j) := by
  have hswap : b.swap j i = b.swap i j := by
    rw [Buffer.swap, Equiv.swap_comm, Buffer.swap]
  rw [Buffer.store_eq hj, ← hswap, ← Buffer.update_update]
  exact Buffer.store_eq (b := ⟨b.size, Function.update b.cell j (b.cell i)⟩) hi (b.cell j)

theorem scanLeft_ends (key : α → β) (cur : α) {left : Nat} (hhigh : high < b.size)
    (hleft : left ≤ high) :
    ∃ l, (∀ fuel, high - left < fuel → scanLeft key fuel b cur high left = some l) ∧
      left ≤ l ∧ l ≤ high ∧ (∀ k, left ≤ k → k < l → key (b.cell k) ≤ key cur) ∧
      (l < high → key cur < key (b.cell l)) := by
  have htest (l : Nat) (hl : l ≤ high) : keepsLeft key b cur high l =
      some (decide (key (b.cell l) ≤ key cur) && decide (l < high)) := by
    simp [keepsLeft, Buffer.load_eq (Nat.lt_of_le_of_lt hl hhigh)]
  have hround : ∀ l, (left ≤ l ∧ l ≤ high ∧ ∀ k, left ≤ k → k < l → key (b.cell k) ≤ key cur) →
      keepsLeft key b cur high l = some false ∨ keepsLeft key b cur high l = some true ∧
        ∃ r, some (l + 1) = some r ∧
          (left ≤ r ∧ r ≤ high ∧ ∀ k, left ≤ k → k < r → key (b.cell k) ≤ key cur) ∧
            high - r < high - l := by
    rintro l ⟨hl, hle, hpassed⟩
    by_cases hgo : key (b.cell l) ≤ key cur ∧ l < high
    · refine Or.inr ⟨by simp [htest l hle, hgo], l + 1, rfl, ⟨by omega, by omega, ?_⟩, by omega⟩
      intro k hk hkl
      by_cases heq : k = l
      · exact heq ▸ hgo.1
      · exact hpassed k hk (by omega)
    · exact Or.inl (by simpa [htest l hle] using hgo)
  obtain ⟨l, hrun, ⟨hl, hle, hpassed⟩, hstop⟩ := whileLoop_ends _ (fun l => high - l) hround
    ⟨le_rfl, hleft, by omega⟩
  refine ⟨l, hrun, hl, hle, hpassed, ?_⟩
  intro hlt
  simpa [htest l hle, hlt] using hstop

/-- The scan from the right stops at the latest at `low`, where no greater value stands. -/
theorem scanRight_ends {right : Nat} (hright : right < b.size) (hlow : low ≤ right)
    (hstop : key (b.cell low) ≤ key cur) :
    ∃ r, (∀ fuel, right - low < fuel → scanRight key fuel b cur right = some r) ∧
      low ≤ r ∧ r ≤ right ∧ (∀ k, r < k → k ≤ right → key cur < key (b.cell k)) ∧
      key (b.cell r) ≤ key cur := by
  have htest (r : Nat) (hr : r ≤ right) : keepsRight key b cur r =
      some (decide (key cur < key (b.cell r))) := by
    simp [keepsRight, Buffer.load_eq (Nat.lt_of_le_of_lt hr hright)]
  have hround : ∀ r, (low ≤ r ∧ r ≤ right ∧ ∀ k, r < k → k ≤ right → key cur < key (b.cell k)) →
      keepsRight key b cur r = some false ∨ keepsRight key b cur r = some true ∧
        ∃ q, (if r = 0 then none else some (r - 1)) = some q ∧
          (low ≤ q ∧ q ≤ right ∧ ∀ k, q < k → k ≤ right → key cur < key (b.cell k)) ∧
            q - low < r - low := by
    rintro r ⟨hr, hle, hpassed⟩
    by_cases hgo : key cur < key (b.cell r)
    · have hne : r ≠ low := by
        rintro rfl
        exact absurd hgo (not_lt.mpr hstop)
      refine Or.inr ⟨by simp [htest r hle, hgo], r - 1, if_neg (by omega),
        ⟨by omega, by omega, ?_⟩, by omega⟩
      intro k hk hkr
      by_cases heq : k = r
      · exact heq ▸ hgo
      · exact hpassed k (by omega) hkr
    · exact Or.inl (by simpa [htest r hle] using hgo)
  obtain ⟨r, hrun, ⟨hr, hle, hpassed⟩, hlast⟩ := whileLoop_ends _ (fun r => r - low) hround
    ⟨hlow, le_rfl, by omega⟩
  exact ⟨r, hrun, hr, hle, hpassed, by simpa [htest r hle] using hlast⟩

/-- Between the scans: what lies left of `left` is at most the pivot, which stands at `low`,
and what lies right of `right` is greater. -/
structure Partitioning (key : α → β) (b : Buffer α) (low high left right : Nat)
    (array : Buffer α) : Prop where
  low_le_left : low ≤ left
  left_le_high : left ≤ high
  low_le_right : low ≤ right
  right_le_high : right ≤ high
  moved : Rearranged (Set.Ioc low high) b array
  small : ∀ k, low ≤ k → k < left → key (array.cell k) ≤ key (b.cell low)
  great : ∀ k, right < k → k ≤ high → key (b.cell low) < key (array.cell k)
  going : left < right → key (array.cell left) ≤ key (b.cell low)
  done : right ≤ left → key (array.cell right) ≤ key (b.cell low)

variable {left right : Nat} {array : Buffer α}

theorem Partitioning.low_eq (h : Partitioning key b low high left right array) :
    array.cell low = b.cell low := h.moved.outside (by simp)

theorem partitioning_start (key : α → β) (b : Buffer α) (h : low ≤ high) :
    Partitioning key b low high low high b := by
  refine ⟨le_rfl, h, h, le_rfl, Rearranged.refl _ b, ?_, ?_, fun _ => le_rfl, ?_⟩
  · intro k hk hlt
    omega
  · intro k hk hlt
    omega
  · intro hle
    have heq : high = low := le_antisymm hle h
    rw [heq]

/-- The scans stand at a greater value and at one that is not, and the two change places. -/
theorem Partitioning.exchanged {l r : Nat} (h : Partitioning key b low high left right array)
    (hl : low < l) (hlr : l < r) (hr : r ≤ high)
    (hsmall : ∀ k, low ≤ k → k < l → key (array.cell k) ≤ key (b.cell low))
    (hgreat : ∀ k, r < k → k ≤ high → key (b.cell low) < key (array.cell k))
    (hstop : key (array.cell r) ≤ key (b.cell low)) :
    Partitioning key b low high l r (array.swap l r) := by
  refine ⟨by omega, by omega, by omega, hr, ?_, ?_, ?_, ?_, ?_⟩
  · refine h.moved.trans (rearranged_swap array ?_ ?_)
    · exact ⟨hl, by omega⟩
    · exact ⟨by omega, hr⟩
  · intro k hk hkl
    rw [Buffer.swap_of_ne (by omega) (by omega)]
    exact hsmall k hk hkl
  · intro k hk hkhigh
    rw [Buffer.swap_of_ne (by omega) (by omega)]
    exact hgreat k hk hkhigh
  · intro _
    rw [Buffer.swap_left]
    exact hstop
  · intro hle
    omega

theorem partitionRound_ends (h : Partitioning key b low high left right array)
    (hlt : left < right) (hhigh : high < b.size) :
    ∃ t : Scan α, (∀ fuel, high - low < fuel →
        partitionRound key fuel (b.cell low) high ⟨left, right, array⟩ = some t) ∧
      Partitioning key b low high t.left t.right t.array ∧ t.right - t.left < right - left := by
  have hsize := h.moved.size
  have hlow := h.low_eq
  have hlow_left := h.low_le_left
  have hright_high := h.right_le_high
  obtain ⟨l, hl, hleft, hlhigh, hpassed, hlstop⟩ := scanLeft_ends (b := array) key (b.cell low)
    (by omega : high < array.size) h.left_le_high
  have hsentinel : key (array.cell low) ≤ key (b.cell low) := le_of_eq (congrArg key hlow)
  obtain ⟨r, hr, hlowr, hright, hrpassed, hrstop⟩ := scanRight_ends
    (by omega : right < array.size) h.low_le_right hsentinel
  -- the scan from the left leaves the cell where it starts
  have hstep : left < l := by
    by_contra hle
    obtain rfl : l = left := by omega
    exact absurd (h.going hlt) (not_le.mpr (hlstop (by omega)))
  have hsmall : ∀ k, low ≤ k → k < l → key (array.cell k) ≤ key (b.cell low) := by
    intro k hk hkl
    by_cases hkleft : k < left
    · exact h.small k hk hkleft
    · exact hpassed k (by omega) hkl
  have hgreat : ∀ k, r < k → k ≤ high → key (b.cell low) < key (array.cell k) := by
    intro k hk hkhigh
    by_cases hkright : k ≤ right
    · exact hrpassed k hk hkright
    · exact h.great k (by omega) hkhigh
  by_cases hcross : l < r
  · have hnext := h.exchanged (by omega) hcross (by omega) hsmall hgreat hrstop
    refine ⟨⟨l, r, array.swap l r⟩, ?_, hnext, (by omega : r - l < right - left)⟩
    intro fuel hfuel
    have hswap := swap_stores (b := array) (i := l) (j := r) (by omega) (by omega)
    have hloadl := Buffer.load_eq (b := array) (k := l) (by omega)
    have hloadr := Buffer.load_eq (b := array) (k := r) (by omega)
    simp only [partitionRound, hl fuel (by omega), hr fuel (by omega), hloadl, hloadr,
      Option.bind_eq_bind, Option.bind_some, if_pos hcross] at hswap ⊢
    rw [← Option.bind_assoc, hswap]
    rfl
  · have hnext : Partitioning key b low high l r array := by
      refine ⟨by omega, hlhigh, hlowr, by omega, h.moved, hsmall, hgreat, ?_, fun _ => hrstop⟩
      intro hlr
      exact absurd hlr hcross
    refine ⟨⟨l, r, array⟩, ?_, hnext, (by omega : r - l < right - left)⟩
    intro fuel hfuel
    simp [partitionRound, hl fuel (by omega), hr fuel (by omega), hcross]

theorem index_mem (candidate : Candidate) (h : low ≤ high) :
    candidate.index low ((low + high) / 2) high ∈ Set.Icc low high := by
  rw [Set.mem_Icc]
  cases candidate with
  | low => exact ⟨le_rfl, h⟩
  | mid => simp only [Candidate.index]; omega
  | high => exact ⟨h, le_rfl⟩

structure Parted (key : α → β) (b : Buffer α) (low high p : Nat) (c : Buffer α) : Prop where
  low_le : low ≤ p
  le_high : p ≤ high
  moved : Rearranged (Set.Icc low high) b c
  small : ∀ k, low ≤ k → k < p → key (c.cell k) ≤ key (c.cell p)
  great : ∀ k, p < k → k ≤ high → key (c.cell p) < key (c.cell k)

theorem Partitioning.parted {d : Buffer α} (h : Partitioning key b low high left right array)
    (hle : right ≤ left) (hpark : Rearranged (Set.Icc low high) d b) :
    Parted key d low high right (array.swap low right) := by
  have hlow := h.low_eq
  have hright := h.low_le_right
  have hhigh := h.right_le_high
  refine ⟨hright, hhigh, ?_, ?_, ?_⟩
  · refine hpark.trans ((h.moved.mono Set.Ioc_subset_Icc_self).trans ?_)
    exact rearranged_swap array ⟨le_rfl, by omega⟩ ⟨hright, hhigh⟩
  · intro k hk hkr
    rw [Buffer.swap_right, hlow]
    by_cases heq : k = low
    · rw [heq, Buffer.swap_left]
      exact h.done hle
    · rw [Buffer.swap_of_ne heq (by omega)]
      exact h.small k hk (by omega)
  · intro k hk hkhigh
    rw [Buffer.swap_right, hlow, Buffer.swap_of_ne (by omega) (by omega)]
    exact h.great k hk hkhigh

theorem partition_ends (key : α → β) (pick : Choice α) (hlt : low < high) (hhigh : high < b.size)
    (hsize : b.size ≤ 2 ^ 30) :
    ∃ p c, (∀ fuel, high - low < fuel → partition key fuel pick b low high = some (p, c)) ∧
      Parted key b low high p c := by
  have hint : int ((low : Int) + high) = some ((low : Int) + high) := int_eq (by omega) (by omega)
  have hmid : ((low : Int) + high).toNat / 2 = (low + high) / 2 := by omega
  have hloadlow := Buffer.load_eq (b := b) (k := low) (by omega)
  have hloadmid := Buffer.load_eq (b := b) (k := (low + high) / 2) (by omega)
  have hloadhigh := Buffer.load_eq hhigh
  have hq := index_mem (pick low high (b.cell low) (b.cell ((low + high) / 2)) (b.cell high)) hlt.le
  generalize hcand : (pick low high (b.cell low) (b.cell ((low + high) / 2))
    (b.cell high)).index low ((low + high) / 2) high = q at hq
  have hloadq := Buffer.load_eq (b := b) (k := q) (Nat.lt_of_le_of_lt hq.2 hhigh)
  have hpark := swap_stores (b := b) (i := low) (j := q) (by omega) (Nat.lt_of_le_of_lt hq.2 hhigh)
  have hparked : Rearranged (Set.Icc low high) b (b.swap low q) :=
    rearranged_swap b ⟨le_rfl, hlt.le⟩ hq
  have hround : ∀ s : Scan α, Partitioning key (b.swap low q) low high s.left s.right s.array →
      some (decide (s.left < s.right)) = some false ∨ some (decide (s.left < s.right)) = some true ∧
        ∃ t : Scan α, (∀ i : {fuel // high - low < fuel},
            partitionRound key i.1 ((b.swap low q).cell low) high s = some t) ∧
          Partitioning key (b.swap low q) low high t.left t.right t.array ∧
            t.right - t.left < s.right - s.left := by
    rintro ⟨left, right, array⟩ hs
    by_cases hgo : left < right
    · obtain ⟨t, ht, hnext, hsmaller⟩ := partitionRound_ends hs hgo hhigh
      exact Or.inr ⟨by simp [hgo], t, fun i => ht i.1 i.2, hnext, hsmaller⟩
    · exact Or.inl (by simp [hgo])
  obtain ⟨⟨left, right, array⟩, hrun, hs, hstop⟩ := whileLoop_ends_all _
    (fun s : Scan α => s.right - s.left) hround (s := ⟨low, high, b.swap low q⟩)
    (partitioning_start key _ hlt.le)
  have hle : right ≤ left := by simpa using hstop
  have hsizes : array.size = b.size := hs.moved.size
  have hright : right < array.size := hsizes ▸ Nat.lt_of_le_of_lt hs.right_le_high hhigh
  have hlast := swap_stores (b := array) (i := right) (j := low) hright (by omega)
  refine ⟨right, array.swap low right, ?_, hs.parted hle hparked⟩
  intro fuel hfuel
  have hloop := hrun ⟨fuel, hfuel⟩ fuel hfuel
  have hcur : (b.swap low q).cell low = b.cell q := Buffer.swap_left b low q
  have hlowcell : array.cell low = b.cell q := hs.low_eq.trans hcur
  have hswap : array.swap right low = array.swap low right := by
    rw [Buffer.swap, Equiv.swap_comm, Buffer.swap]
  rw [hlowcell, hswap] at hlast
  rw [hcur] at hloop
  simp only [partition, hint, hmid, hloadlow, hloadmid, hloadhigh, hcand, hloadq,
    Option.bind_eq_bind, Option.bind_some] at hpark ⊢
  rw [← Option.bind_assoc, hpark, Option.bind_some, hloop, Option.bind_some,
    Buffer.load_eq hright, Option.bind_some, ← Option.bind_assoc]
  exact congrArg (Option.bind · fun c => some (right, c)) hlast

end Partition

section Inner
variable {α β : Type} [LinearOrder β] {key : α → β} {pick : Choice α} {b c : Buffer α}

/-- Every cell of the range lies between two cuts that are near each other. -/
def Blocks (key : α → β) (b : Buffer α) (low stop : Nat) : Prop :=
  ∀ i, low ≤ i → i < stop → ∃ s e, low ≤ s ∧ s ≤ i ∧ i < e ∧ e ≤ stop ∧ (e - s : Int) ≤ maxThresh ∧
    Cut key b s ∧ Cut key b e

/-- The cuts inside of a range, and the two at its ends, stay when the cells of another range
change places. -/
theorem Blocks.rearranged {S : Set Nat} {low stop : Nat} (h : Blocks key b low stop)
    (hr : Rearranged S b c) (hS : S ⊆ Set.Iio low ∨ S ⊆ Set.Ico stop b.size) :
    Blocks key c low stop := by
  intro i hi hlt
  obtain ⟨s, e, hs, hsi, hie, he, hlen, hcuts, hcute⟩ := h i hi hlt
  refine ⟨s, e, hs, hsi, hie, he, hlen, hcuts.rearranged hr ?_, hcute.rearranged hr ?_⟩
  · refine hS.imp (fun h k hk => ?_) (fun h k hk => ⟨?_, (h hk).2⟩)
    · exact Nat.lt_of_lt_of_le (h hk) hs
    · exact le_trans (by omega) (h hk).1
  · refine hS.imp (fun h k hk => ?_) (fun h k hk => ⟨?_, (h hk).2⟩)
    · exact Nat.lt_of_lt_of_le (h hk) (by omega)
    · exact le_trans he (h hk).1

theorem Blocks.joined {low p stop : Nat} (hleft : Blocks key b low p)
    (hright : Blocks key b (p + 1) stop) (hlow : low ≤ p) (hstop : p < stop) (hp : Cut key b p)
    (hp' : Cut key b (p + 1)) : Blocks key b low stop := by
  intro i hi hlt
  by_cases hip : i < p
  · obtain ⟨s, t, hs, hsi, hit, ht, hrest⟩ := hleft i hi hip
    exact ⟨s, t, hs, hsi, hit, by omega, hrest⟩
  · by_cases hip' : i = p
    · subst hip'
      exact ⟨i, i + 1, hlow, le_rfl, Nat.lt_succ_self i, hstop, by simp [maxThresh], hp, hp'⟩
    · obtain ⟨s, t, hs, hrest⟩ := hright i (by omega) hlt
      exact ⟨s, t, by omega, hrest⟩

theorem Parted.cuts {low high p : Nat} (h : Parted key b low high p c) (hhigh : high < b.size)
    (hlow : Cut key c low) (hstop : Cut key c (high + 1)) : Cut key c p ∧ Cut key c (p + 1) := by
  have hlowp := h.low_le
  have hphigh := h.le_high
  have hsize := h.moved.size
  -- what stands left of the place is at most the pivot, what stands right of it at least
  have hleft (i : Nat) (hi : i ≤ p) : key (c.cell i) ≤ key (c.cell p) := by
    by_cases hi' : i < low
    · exact hlow i hi' p hlowp (by omega)
    · by_cases heq : i = p
      · rw [heq]
      · exact h.small i (by omega) (by omega)
  have hright (j : Nat) (hj : p ≤ j) (hlt : j < c.size) : key (c.cell p) ≤ key (c.cell j) := by
    by_cases hj' : j ≤ high
    · by_cases heq : j = p
      · rw [heq]
      · exact (h.great j (by omega) hj').le
    · exact hstop p (by omega) j (by omega) hlt
  constructor
  · intro i hi j hj hlt
    exact (hleft i hi.le).trans (hright j hj hlt)
  · intro i hi j hj hlt
    exact (hleft i (by omega)).trans (hright j (by omega) hlt)

theorem quicksortInner_ends (key : α → β) (pick : Choice α) (b : Buffer α) {low stop : Nat}
    (hsize : b.size ≤ 2 ^ 30) (hle : low ≤ stop) (hstop : stop ≤ b.size) (hcl : Cut key b low)
    (hcs : Cut key b stop) :
    ∃ c, (∀ fuel, stop - low < fuel →
        quicksortInner key pick fuel b low ((stop : Int) - 1) = some c) ∧
      Rearranged (Set.Ico low stop) b c ∧ Blocks key c low stop := by
  induction hn : stop - low using Nat.strong_induction_on generalizing b low stop with
  | _ n ih =>
    subst hn
    have hlength : int ((stop : Int) - 1 - low + 1) = some ((stop : Int) - 1 - low + 1) :=
      int_eq (by omega) (by omega)
    by_cases hlong : (maxThresh : Int) < (stop : Int) - 1 - low + 1
    · have hlt : low + 10 < stop := by
        simp only [maxThresh] at hlong
        omega
      have hhigh : ((stop : Int) - 1).toNat = stop - 1 := by omega
      have hgt : (low : Int) < (stop : Int) - 1 := by omega
      obtain ⟨p, c, hc, hparted⟩ := partition_ends key pick
        (by omega : low < stop - 1) (by omega : stop - 1 < b.size) hsize
      have hlowp := hparted.low_le
      have hphigh := hparted.le_high
      have hsub : Set.Icc low (stop - 1) ⊆ Set.Ico low stop := by
        intro k hk
        exact ⟨hk.1, Nat.lt_of_le_of_lt hk.2 (by omega)⟩
      have hpart : Rearranged (Set.Ico low stop) b c := hparted.moved.mono hsub
      have hcsize := hpart.size
      have hcl' : Cut key c low := by
        refine hcl.rearranged hpart (Or.inr ?_)
        exact Set.Ico_subset_Ico_right hstop
      have hcs' : Cut key c stop := by
        refine hcs.rearranged hpart (Or.inl ?_)
        exact fun k hk => hk.2
      have hlast : stop - 1 + 1 = stop := by omega
      obtain ⟨hcp, hcp'⟩ := hparted.cuts (by omega) hcl' (hlast ▸ hcs')
      -- the left part
      obtain ⟨d, hd, hdmoved, hdblocks⟩ := ih (p - low) (by omega) c (by omega) hlowp (by omega)
        hcl' hcp rfl
      have hdsize := hdmoved.size
      have hdleft (s : Nat) (hs : p ≤ s) (h : Cut key c s) : Cut key d s :=
        h.rearranged hdmoved (Or.inl fun k hk => Nat.lt_of_lt_of_le hk.2 hs)
      -- the right part
      obtain ⟨e, he, hemoved, heblocks⟩ := ih (stop - (p + 1)) (by omega) d (by omega) (by omega)
        (by omega) (hdleft (p + 1) (by omega) hcp') (hdleft stop (by omega) hcs') rfl
      have heright (s : Nat) (hs : s ≤ p + 1) (h : Cut key d s) : Cut key e s := by
        refine h.rearranged hemoved (Or.inr fun k hk => ⟨le_trans hs hk.1, ?_⟩)
        exact Nat.lt_of_lt_of_le hk.2 (by omega)
      refine ⟨e, ?_, hpart.trans ((hdmoved.mono ?_).trans (hemoved.mono ?_)), ?_⟩
      · intro fuel hfuel
        cases fuel with
        | zero => omega
        | succ fuel =>
          have hright := he fuel (by omega)
          have hleft := hd fuel (by omega)
          simp only [quicksortInner, hlength, hhigh, hgt, hlong, hc fuel (by omega),
            Option.bind_eq_bind, Option.bind_some, gt_iff_lt, if_true, hleft]
          exact hright
      · exact Set.Ico_subset_Ico_right (by omega)
      · exact Set.Ico_subset_Ico_left (by omega)
      · have hkept : Blocks key e low p := by
          refine hdblocks.rearranged hemoved (Or.inr fun k hk => ⟨?_, ?_⟩)
          · exact le_trans (Nat.le_succ p) hk.1
          · exact Nat.lt_of_lt_of_le hk.2 (by omega)
        exact hkept.joined heblocks hlowp (by omega) (heright p (by omega) (hdleft p le_rfl hcp))
          (heright (p + 1) le_rfl (hdleft (p + 1) (by omega) hcp'))
    · refine ⟨b, ?_, Rearranged.refl _ b, ?_⟩
      · intro fuel hfuel
        cases fuel with
        | zero => omega
        | succ fuel => simp [quicksortInner, hlength, hlong]
      · intro i hi hlt
        exact ⟨low, stop, le_rfl, hi, hlt, le_rfl, by omega, hcl, hcs⟩

end Inner

section Whole
variable {α β γ : Type} [LinearOrder β] {key : α → β} {pick : Choice α} {b c d : Buffer α}

theorem insertRound_map (key : α → β) (fuel : Nat) (f : γ → α) (b : Buffer γ) (i : Nat) :
    insertRound key fuel (b.map f) i =
      (insertRound (fun x => key (f x)) fuel b i).map (Buffer.map f) := by
  rw [insertRound, insertRound, Buffer.load_map]
  cases b.load i with
  | none => rfl
  | some current =>
    have htest (s : Hole γ) : keepsShifting key (f current) ⟨s.empty, s.value.map f⟩ =
        keepsShifting (fun x => key (f x)) current s := by
      simp only [keepsShifting, Buffer.load_map]
      cases s.value.load (s.empty - 1) <;> rfl
    have hbody (s : Hole γ) : shift (⟨s.empty, s.value.map f⟩ : Hole α) =
        (shift s).map fun t => ⟨t.empty, t.value.map f⟩ := by
      simp only [shift, Buffer.load_map]
      cases s.value.load (s.empty - 1) with
      | none => rfl
      | some v =>
        simp only [Option.map_some, Option.bind_eq_bind, Option.bind_some, Buffer.store_map]
        cases s.value.store s.empty v <;> rfl
    have hloop := whileLoop_image htest hbody fuel ⟨i, b⟩
    simp only [Option.map_some, Option.bind_eq_bind, Option.bind_some, hloop]
    cases whileLoop (keepsShifting (fun x => key (f x)) current) shift fuel ⟨i, b⟩ with
    | none => rfl
    | some t => exact Buffer.store_map f t.value t.empty current

theorem insertionSort_map (key : α → β) (fuel : Nat) (f : γ → α) (b : Buffer γ) (len : Int) :
    insertionSort key fuel (b.map f) len =
      (insertionSort (fun x => key (f x)) fuel b len).map (Buffer.map f) := by
  rw [insertionSort, insertionSort]
  induction steps 1 len.toNat 1 generalizing b with
  | nil => rfl
  | cons i is ih =>
    rw [List.foldlM_cons, List.foldlM_cons, insertRound_map]
    cases insertRound (fun x => key (f x)) fuel b i with
    | none => rfl
    | some c => exact ih c

def tagged (b : Buffer α) : Buffer (α × Nat) := ⟨b.size, fun k => (b.cell k, k)⟩

/-- quicksort_inner leaves `c` and quicksort leaves `d`, in order. The pass of insertion_sort in
between, run on values that know their places in `c`, moves none of them far. -/
structure Sorts (key : α → β) (pick : Choice α) (b c d : Buffer α) : Prop where
  inner : ∀ fuel, b.size < fuel → quicksortInner key pick fuel b 0 (b.size - 1) = some c
  whole : ∀ fuel, b.size < fuel → quicksort key fuel pick b b.size = some d
  perm : d.cells.Perm b.cells
  ordered : d.cells.Pairwise fun x y => key x ≤ key y
  near : ∃ e, (∀ fuel, b.size < fuel →
      insertionSort (fun x => key x.1) fuel (tagged c) b.size = some e) ∧ e.map Prod.fst = d ∧
    ∀ i < b.size, ∃ j < b.size, e.cell j = (c.cell i, i) ∧ |(i : Int) - j| < maxThresh

theorem SortedTo.pairwise (h : SortedTo key b b.size) :
    b.cells.Pairwise fun x y => key x ≤ key y := by
  rw [Buffer.cells, List.pairwise_map, List.pairwise_iff_getElem]
  intro i j hi hj hij
  rw [List.length_range] at hj
  simpa using h j hj i hij

/-- Values stay within the blocks that quicksort_inner leaves when they are sifted. -/
theorem Blocks.near {e : Buffer (α × Nat)} (h : Blocks key c 0 c.size)
    (hsift : Siftings (fun x : α × Nat => key x.1) (tagged c) e) {i : Nat} (hi : i < c.size) :
    ∃ j < c.size, e.cell j = (c.cell i, i) ∧ |(i : Int) - j| < maxThresh := by
  obtain ⟨j, hj, hcell⟩ := hsift.rearranged.target (k := i) hi
  refine ⟨j, hj, hcell, ?_⟩
  obtain ⟨s, t, -, hsi, hit, -, hlen, hs, ht⟩ := h i (Nat.zero_le i) hi
  have hsides (s : Nat) (hs : Cut key c s) : i < s ↔ j < s := by
    have hside := (hsift.cut Prod.snd hs (fun _ => Iff.rfl)).2 j
    rwa [hcell] at hside
  have hjs := hsides s hs
  have hjt := hsides t ht
  rw [abs_lt]
  omega

/-- quicksort sorts every array, whichever candidates it takes. -/
theorem quicksort_sorts (key : α → β) (pick : Choice α) (b : Buffer α) (hsize : b.size ≤ 2 ^ 30) :
    ∃ c d, Sorts key pick b c d := by
  obtain ⟨c, hc, hmoved, hblocks⟩ := quicksortInner_ends key pick b hsize (Nat.zero_le b.size) le_rfl
    (cut_zero key b) (cut_size key b)
  have hcsize := hmoved.size
  obtain ⟨d, hd, hsift, hsorted⟩ := insertionSort_ends key c
  obtain ⟨e, he, htags, -⟩ := insertionSort_ends (fun x : α × Nat => key x.1) (tagged c)
  have hproj : e.map Prod.fst = d := by
    have hrun := insertionSort_map key c.size Prod.fst (tagged c) c.size
    have heq := hd c.size le_rfl
    change insertionSort key c.size ((tagged c).map Prod.fst) c.size = some d at heq
    have htagged : insertionSort (fun x => key x.1) c.size (tagged c) c.size = some e :=
      he c.size le_rfl
    rw [hrun, htagged] at heq
    exact Option.some.inj heq
  have hinner : ∀ fuel, b.size < fuel →
      quicksortInner key pick fuel b 0 (b.size - 1) = some c := fun fuel hfuel => hc fuel hfuel
  refine ⟨c, d, hinner, ?_, ?_, ?_, e, ?_, hproj, ?_⟩
  · intro fuel hfuel
    have hfinish := hd fuel (by omega)
    rw [hcsize] at hfinish
    simp [quicksort, hinner fuel hfuel, hfinish]
  · refine (hsift.rearranged.perm subset_rfl).trans (hmoved.perm ?_)
    exact fun k hk => hk.2
  · rw [← hsift.size] at hsorted
    exact hsorted.pairwise
  · intro fuel hfuel
    have hfinish := he fuel (hcsize.le.trans hfuel.le)
    rwa [← hcsize]
  · rw [← hcsize] at hblocks ⊢
    exact fun i hi => hblocks.near htags hi

/-- Twelve values, so that the first call of quicksort_inner partitions. -/
def twelve : Buffer Int := ⟨12, fun k => 7 * k % 12 - 4⟩

theorem quicksort_sorts_twelve : 12 ≤ 2 ^ 30 ∧ maxThresh < 12 ∧
    ∃ c d, Sorts id (medianOfThree (· - ·) (· * ·) (0 ≤ ·)) twelve c d :=
  ⟨by decide, by decide,
    quicksort_sorts id (medianOfThree (· - ·) (· * ·) (0 ≤ ·)) twelve (by decide)⟩

example : (quicksort id 13 (medianOfThree (· - ·) (· * ·) (0 ≤ ·)) twelve 12).map
    (fun b => (List.range 12).map b.cell) = some [-4, -3, -2, -1, 0, 1, 2, 3, 4, 5, 6, 7] := by
  decide +kernel

end Whole

end EspDrivers.Sort
