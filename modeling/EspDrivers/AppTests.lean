import EspDrivers.ContigBooks
import EspDrivers.Sort

/-! The tests of the sort and the adder application: what the hardware has left in its buffer is
compared with what the software has computed. -/
namespace EspDrivers.AppTests
open Buffers Checked
open ContigAlloc (uint toInt)

section CheckGold
variable {α : Type} (differ : α → α → Bool)

def bump (wrong : Bool) (rtn : Int) : Option Int := if wrong then int (rtn + 1) else some rtn

/-- A round of check_gold, with `array[i] != gold[i]` as `differ`. -/
def goldRound (gold array : Buffer α) (rtn : Int) (i : Nat) : Option Int := do
  let rtn ← bump (differ (← array.load i) (← gold.load i)) rtn
  let _ ← int (i + 1)
  return rtn

def checkGold (gold array : Buffer α) (len : Nat) : Option Int :=
  (List.range len).foldlM (goldRound differ gold array) 0

def copied (dst contig : Buffer α) (n : Nat) : Buffer α :=
  ⟨dst.size, fun k => if k < n then contig.cell k else dst.cell k⟩

def contigCopyFrom (dst contig : Buffer α) (n : Nat) : Option (Buffer α) :=
  if n ≤ dst.size ∧ n ≤ contig.size then some (copied dst contig n) else none

variable {differ} {gold array : Buffer α} {len : Nat} {e : Int}

def mismatches (differ : α → α → Bool) (gold array : Buffer α) (n : Nat) : Nat :=
  (List.range n).countP fun k => differ (array.cell k) (gold.cell k)

theorem mismatches_succ (differ : α → α → Bool) (gold array : Buffer α) (n : Nat) :
    mismatches differ gold array (n + 1) =
      mismatches differ gold array n + if differ (array.cell n) (gold.cell n) then 1 else 0 := by
  rw [mismatches, List.range_succ, List.countP_append, List.countP_singleton]
  rfl

theorem mismatches_le (differ : α → α → Bool) (gold array : Buffer α) (n : Nat) :
    mismatches differ gold array n ≤ n := by
  have hle := List.countP_le_length
    (p := fun k => differ (array.cell k) (gold.cell k)) (l := List.range n)
  rwa [List.length_range] at hle

theorem mismatches_eq_zero {n : Nat} :
    mismatches differ gold array n = 0 ↔ ∀ k < n, differ (array.cell k) (gold.cell k) = false := by
  simp [mismatches, List.countP_eq_zero]

theorem mismatches_congr {other : Buffer α} {n : Nat}
    (h : ∀ k < n, array.cell k = other.cell k) :
    mismatches differ gold array n = mismatches differ gold other n := by
  rw [mismatches, mismatches]
  refine List.countP_congr ?_
  intro k hk
  rw [h k (List.mem_range.mp hk)]

/-- In ranges of ints the places are counted. -/
theorem checkGold_ends (hlen : len < 2 ^ 31) (hgold : len ≤ gold.size)
    (harray : len ≤ array.size) :
    checkGold differ gold array len = some (mismatches differ gold array len : Int) := by
  obtain ⟨e, he, rfl⟩ : ∃ e, checkGold differ gold array len = some e ∧
      e = (mismatches differ gold array len : Int) := by
    refine foldlM_range_ends len (fun i rtn => rtn = (mismatches differ gold array i : Int)) rfl ?_
    rintro i hi rtn rfl
    have hle := mismatches_le differ gold array i
    have hstep : int ((i : Int) + 1) = some ((i : Int) + 1) := int_eq (by omega) (by omega)
    refine ⟨(mismatches differ gold array (i + 1) : Int), ?_, rfl⟩
    rw [goldRound, Buffer.load_eq (Nat.lt_of_lt_of_le hi harray),
      Buffer.load_eq (Nat.lt_of_lt_of_le hi hgold), mismatches_succ]
    rw [Option.bind_eq_bind, Option.bind_some, Option.bind_eq_bind, Option.bind_some, bump]
    split
    · rw [int_eq (by omega) (by omega), Option.bind_some, hstep]
      rfl
    · rw [Option.bind_some, hstep]
      rfl
  exact he

theorem checkGold_copied {contig : Buffer α} {n : Nat} (hint : len < 2 ^ 31) (hlen : len ≤ n)
    (hgold : n ≤ gold.size) (harray : n ≤ array.size) :
    checkGold differ gold (copied array contig n) len =
      some (mismatches differ gold contig len : Int) := by
  have hsame : mismatches differ gold (copied array contig n) len =
      mismatches differ gold contig len :=
    mismatches_congr fun k hk => if_pos (Nat.lt_of_lt_of_le hk hlen)
  have hsize : len ≤ (copied array contig n).size := hlen.trans harray
  rw [checkGold_ends hint (hlen.trans hgold) hsize, hsame]

end CheckGold

section SortModel
variable {α β : Type} [LinearOrder β]

structure SortTest (α : Type) where
  hbuf : Buffer α
  sbuf : Buffer α
  nElems : Nat
  nBatches : Nat

/-- sort_size, in values. -/
def sortSize (t : SortTest α) : Nat := uint (t.nElems * t.nBatches)

/-- `quicksort(&sbuf[base], n)` -/
def sortBatch (key : α → β) (fuel : Nat) (pick : Sort.Choice α) (n base : Nat) (sbuf : Buffer α) :
    Option (Buffer α) := do
  if base + n ≤ sbuf.size then
    let batch ← Sort.quicksort key fuel pick ⟨n, fun k => sbuf.cell (base + k)⟩ (toInt n)
    return ⟨sbuf.size, fun k =>
      if base ≤ k ∧ k < base + n then batch.cell (k - base) else sbuf.cell k⟩
  else none

def sortComp (key : α → β) (fuel : Nat) (pick : Sort.Choice α) (t : SortTest α) :
    Option (SortTest α) := do
  let sbuf ← (List.range t.nBatches).foldlM (fun sbuf i => do
    let sbuf ← sortBatch key fuel pick t.nElems (uint (i * t.nElems)) sbuf
    let _ ← int (i + 1)
    return sbuf) t.sbuf
  return { t with sbuf := sbuf }

/-- A round of sort_diff_ok. `check` is the call of check_gold, which is the same for every
batch. -/
def batchRound (check : Option Int) (totalErr : Int) (i : Nat) : Option Int := do
  let err ← check
  let totalErr ← int (totalErr + err)
  let _ ← int (i + 1)
  return totalErr

def sortDiffOk (differ : α → α → Bool) (t : SortTest α) (contig : Buffer α) :
    Option (Bool × SortTest α) := do
  let hbuf ← contigCopyFrom t.hbuf contig (sortSize t)
  let totalErr ← (List.range t.nBatches).foldlM
    (batchRound (checkGold differ t.sbuf hbuf (toInt t.nElems).toNat)) 0
  return (decide (totalErr = 0), { t with hbuf := hbuf })

structure SortTest.Allocated (t : SortTest α) (contig : Buffer α) : Prop where
  hbuf : t.hbuf.size = sortSize t
  sbuf : t.sbuf.size = sortSize t
  contig : contig.size = sortSize t

/-- In every batch the hardware has left what the software has. -/
def SortTest.Agree (differ : α → α → Bool) (t : SortTest α) (contig : Buffer α) : Prop :=
  ∀ b < t.nBatches, ∀ i < t.nElems,
    differ (contig.cell (b * t.nElems + i)) (t.sbuf.cell (b * t.nElems + i)) = false

end SortModel

section SortResults
variable {α : Type} {differ : α → α → Bool} {t : SortTest α} {contig : Buffer α}
  {check : Option Int} {n : Nat} {e : Int}

theorem checkGold_some {gold array : Buffer α} {len : Nat}
    (h : checkGold differ gold array len = some e) :
    len ≤ array.size ∧ e = (mismatches differ gold array len : Int) := by
  refine foldlM_range_keeps
    (fun i rtn => i ≤ array.size ∧ rtn = (mismatches differ gold array i : Int))
    ⟨Nat.zero_le _, rfl⟩ ?_ h
  intro i hi rtn u hrtn hround
  rw [goldRound] at hround
  obtain ⟨x, hx, hsecond⟩ := Option.bind_eq_some_iff.mp hround
  obtain ⟨y, hy, hthird⟩ := Option.bind_eq_some_iff.mp hsecond
  obtain ⟨v, hv, hnext⟩ := Option.bind_eq_some_iff.mp hthird
  obtain ⟨j, -, hlast⟩ := Option.bind_eq_some_iff.mp hnext
  obtain rfl := Option.some.inj hlast
  obtain ⟨hlt, rfl⟩ := Buffer.load_some hx
  obtain ⟨-, rfl⟩ := Buffer.load_some hy
  refine ⟨hlt, ?_⟩
  rw [mismatches_succ]
  rw [bump] at hv
  split at hv
  · next hwrong =>
    obtain ⟨-, rfl⟩ := int_some hv
    rw [hrtn.2, if_pos hwrong]
    rfl
  · next hright =>
    obtain rfl := Option.some.inj hv
    rw [hrtn.2, if_neg hright]
    rfl

theorem batches_zero (hcheck : ∀ e, check = some e → e = 0)
    (h : (List.range n).foldlM (batchRound check) 0 = some e) : e = 0 := by
  refine foldlM_range_keeps (fun _ total => total = 0) rfl ?_ h
  intro i _ total u htotal hround
  rw [batchRound] at hround
  obtain ⟨err, herr, hsum⟩ := Option.bind_eq_some_iff.mp hround
  obtain ⟨v, hv, hnext⟩ := Option.bind_eq_some_iff.mp hsum
  obtain ⟨j, -, hlast⟩ := Option.bind_eq_some_iff.mp hnext
  obtain rfl := Option.some.inj hlast
  obtain ⟨-, rfl⟩ := int_some hv
  rw [htotal, hcheck err herr]
  rfl

theorem batches_few (h : (List.range n).foldlM (batchRound check) 0 = some e) : n < 2 ^ 31 := by
  refine foldlM_range_keeps (fun i _ => i < 2 ^ 31) (by decide) ?_ h
  intro i _ total u _ hround
  rw [batchRound] at hround
  obtain ⟨err, -, hsum⟩ := Option.bind_eq_some_iff.mp hround
  obtain ⟨v, -, hnext⟩ := Option.bind_eq_some_iff.mp hsum
  obtain ⟨j, hj, -⟩ := Option.bind_eq_some_iff.mp hnext
  have hint := (int_some hj).1
  omega

theorem sortDiffOk_copied (differ : α → α → Bool) (halloc : t.Allocated contig) :
    sortDiffOk differ t contig = ((List.range t.nBatches).foldlM
      (batchRound (checkGold differ t.sbuf (copied t.hbuf contig (sortSize t))
        (toInt t.nElems).toNat)) 0).map
        fun totalErr =>
          (decide (totalErr = 0), { t with hbuf := copied t.hbuf contig (sortSize t) }) := by
  have hcopy : contigCopyFrom t.hbuf contig (sortSize t) =
      some (copied t.hbuf contig (sortSize t)) := if_pos ⟨halloc.hbuf.ge, halloc.contig.ge⟩
  rw [sortDiffOk, hcopy, Option.bind_eq_bind, Option.bind_some, Option.map_eq_bind]
  rfl

theorem sortDiffOk_blind (halloc : t.Allocated contig)
    (hsame : ∀ k < (toInt t.nElems).toNat, differ (contig.cell k) (t.sbuf.cell k) = false) {ok : Bool}
    {u : SortTest α} (h : sortDiffOk differ t contig = some (ok, u)) : ok = true := by
  rw [sortDiffOk_copied differ halloc] at h
  obtain ⟨e, he, hresult⟩ := Option.map_eq_some_iff.mp h
  obtain ⟨rfl, -⟩ := Prod.mk.inj hresult
  refine decide_eq_true (batches_zero ?_ he)
  intro err herr
  obtain ⟨hlen, rfl⟩ := checkGold_some herr
  have hroom : (toInt t.nElems).toNat ≤ sortSize t := hlen.trans halloc.hbuf.le
  have hzero : mismatches differ t.sbuf (copied t.hbuf contig (sortSize t))
      (toInt t.nElems).toNat = 0 := by
    refine mismatches_eq_zero.mpr ?_
    intro k hk
    have hcell : (copied t.hbuf contig (sortSize t)).cell k = contig.cell k :=
      if_pos (Nat.lt_of_lt_of_le hk hroom)
    rw [hcell]
    exact hsame k hk
  rw [hzero]
  rfl

theorem not_exact {b i : Nat} (hhbuf : t.hbuf.size = sortSize t) (hsbuf : t.sbuf.size = sortSize t)
    (hself : ∀ k, differ (t.sbuf.cell k) (t.sbuf.cell k) = false)
    (hother : ∀ k, ∃ v, differ v (t.sbuf.cell k) = true) (hb : b < t.nBatches) (hi : i < t.nElems)
    (hplace : (toInt t.nElems).toNat ≤ b * t.nElems + i) :
    ∃ contig : Buffer α, contig.size = sortSize t ∧ ¬∃ ok u,
      sortDiffOk differ t contig = some (ok, u) ∧ (ok = true ↔ t.Agree differ contig) := by
  obtain ⟨v, hv⟩ := hother (b * t.nElems + i)
  refine ⟨⟨sortSize t, Function.update t.sbuf.cell (b * t.nElems + i) v⟩, rfl, ?_⟩
  intro hexact
  obtain ⟨ok, u, h, hok⟩ := hexact
  have htrue := sortDiffOk_blind ⟨hhbuf, hsbuf, rfl⟩ (by
    intro k hk
    change differ (Function.update t.sbuf.cell (b * t.nElems + i) v k) (t.sbuf.cell k) = false
    rw [Function.update_of_ne (by omega)]
    exact hself k) h
  have hwrong := hok.mp htrue b hb i hi
  change differ (Function.update t.sbuf.cell (b * t.nElems + i) v _) _ = false at hwrong
  rw [Function.update_self, hv] at hwrong
  cases hwrong

theorem sortDiffOk_one (halloc : t.Allocated contig) (hone : t.nBatches = 1)
    (hfew : t.nElems < 2 ^ 31) :
    ∃ u, sortDiffOk differ t contig =
      some (decide (mismatches differ t.sbuf contig t.nElems = 0), u) := by
  have hsortSize : sortSize t = t.nElems := by
    rw [sortSize, hone, Nat.mul_one]
    exact Nat.mod_eq_of_lt (Nat.lt_trans hfew (by decide))
  have hword : (toInt t.nElems).toNat = t.nElems := (ContigAlloc.toInt_toNat t.nElems).2.2 hfew
  have hcheck : checkGold differ t.sbuf (copied t.hbuf contig (sortSize t))
      (toInt t.nElems).toNat = some ((mismatches differ t.sbuf contig t.nElems : Nat) : Int) := by
    rw [hword]
    exact checkGold_copied hfew hsortSize.ge halloc.sbuf.ge halloc.hbuf.ge
  have hle := mismatches_le differ t.sbuf contig t.nElems
  refine ⟨{ t with hbuf := copied t.hbuf contig (sortSize t) }, ?_⟩
  have hround : batchRound (some ((mismatches differ t.sbuf contig t.nElems : Nat) : Int)) 0 0 =
      some ((mismatches differ t.sbuf contig t.nElems : Nat) : Int) := by
    rw [batchRound, Option.bind_eq_bind, Option.bind_some, Int.zero_add, int_natCast (by omega),
      Option.bind_some, int_eq (by decide) (by decide)]
    rfl
  rw [sortDiffOk_copied differ halloc, hone, hcheck, List.range_one, List.foldlM_cons, hround]
  simp only [Option.bind_eq_bind, Option.bind_some, List.foldlM_nil, Option.pure_def,
    Option.map_some, Nat.cast_eq_zero]

theorem sortDiffOk_none (halloc : t.Allocated contig) (hnone : t.nBatches = 0 ∨ t.nElems = 0)
    (hfew : t.nBatches < 2 ^ 31) : ∃ u, sortDiffOk differ t contig = some (true, u) := by
  have hloop : ∃ e, (List.range t.nBatches).foldlM (batchRound (checkGold differ t.sbuf
      (copied t.hbuf contig (sortSize t)) (toInt t.nElems).toNat)) 0 = some e ∧ e = 0 := by
    refine foldlM_range_ends t.nBatches (fun _ total => total = 0) rfl ?_
    intro i hi total htotal
    have hzero : t.nElems = 0 := hnone.resolve_left (Nat.ne_zero_of_lt hi)
    refine ⟨0, ?_, rfl⟩
    rw [batchRound, hzero, htotal]
    have hcheck : checkGold differ t.sbuf (copied t.hbuf contig (sortSize t)) (toInt 0).toNat =
        some 0 := rfl
    rw [hcheck, Option.bind_eq_bind, Option.bind_some, Int.zero_add, int_eq (by decide) (by decide),
      Option.bind_some, int_eq (by omega) (by omega)]
    rfl
  obtain ⟨e, he, rfl⟩ := hloop
  refine ⟨{ t with hbuf := copied t.hbuf contig (sortSize t) }, ?_⟩
  rw [sortDiffOk_copied differ halloc, he]
  rfl

/-- For which numbers of values and batches the verdict is exact for every output: for one batch
whose values an int counts, and where there are no values. The outputs that agree with sbuf up to
the place `k`, and differ there, show it for all others. -/
theorem sortDiffOk_exact_iff (differ : α → α → Bool) (t : SortTest α)
    (hhbuf : t.hbuf.size = sortSize t) (hsbuf : t.sbuf.size = sortSize t)
    (hself : ∀ k, differ (t.sbuf.cell k) (t.sbuf.cell k) = false)
    (hother : ∀ k, ∃ v, differ v (t.sbuf.cell k) = true) :
    (∀ contig : Buffer α, contig.size = sortSize t → ∃ ok u,
        sortDiffOk differ t contig = some (ok, u) ∧ (ok = true ↔ t.Agree differ contig)) ↔
      t.nBatches = 0 ∨ (t.nBatches = 1 ∧ t.nElems < 2 ^ 31) ∨
        (t.nElems = 0 ∧ t.nBatches < 2 ^ 31) := by
  constructor
  · intro hexact
    by_cases hzero : t.nBatches = 0
    · exact Or.inl hzero
    by_cases hnone : t.nElems = 0
    · obtain ⟨ok, u, h, -⟩ := hexact ⟨sortSize t, t.sbuf.cell⟩ rfl
      rw [sortDiffOk_copied differ ⟨hhbuf, hsbuf, rfl⟩] at h
      obtain ⟨e, he, -⟩ := Option.map_eq_some_iff.mp h
      exact Or.inr (Or.inr ⟨hnone, batches_few he⟩)
    have hint := ContigAlloc.toInt_toNat t.nElems
    refine Or.inr (Or.inl ?_)
    by_contra hmany
    have hplace : ∃ b i, b < t.nBatches ∧ i < t.nElems ∧
        (toInt t.nElems).toNat ≤ b * t.nElems + i := by
      by_cases hone : t.nBatches = 1
      · exact ⟨0, (toInt t.nElems).toNat, by omega, by omega, by omega⟩
      · exact ⟨1, 0, by omega, by omega, by omega⟩
    obtain ⟨b, i, hb, hi, hbehind⟩ := hplace
    obtain ⟨contig, hcontig, hnot⟩ := not_exact hhbuf hsbuf hself hother hb hi hbehind
    exact hnot (hexact contig hcontig)
  · intro hcond contig hcontig
    have halloc : t.Allocated contig := ⟨hhbuf, hsbuf, hcontig⟩
    have hempty (hnone : t.nBatches = 0 ∨ t.nElems = 0) (hfew : t.nBatches < 2 ^ 31) : ∃ ok u,
        sortDiffOk differ t contig = some (ok, u) ∧ (ok = true ↔ t.Agree differ contig) := by
      obtain ⟨u, hu⟩ := @sortDiffOk_none α differ t contig halloc hnone hfew
      refine ⟨true, u, hu, iff_of_true rfl ?_⟩
      intro b hb i hi
      omega
    obtain hzero | hone | hnone := hcond
    · exact hempty (Or.inl hzero) (by omega)
    · obtain ⟨u, hu⟩ := @sortDiffOk_one α differ t contig halloc hone.1 hone.2
      refine ⟨_, u, hu, ?_⟩
      rw [decide_eq_true_iff, mismatches_eq_zero, SortTest.Agree, hone.1]
      constructor
      · intro hright b hb i hi
        have hfirst : b = 0 := by omega
        rw [hfirst, Nat.zero_mul, Nat.zero_add]
        exact hright i hi
      · intro hagree k hk
        have hright := hagree 0 Nat.zero_lt_one k hk
        rwa [Nat.zero_mul, Nat.zero_add] at hright
    · exact hempty (Or.inr hnone.1) hnone.2

/-- Two batches of two values. The output has the first one in order and the second one not. -/
def unsorted : SortTest Int :=
  ⟨⟨4, fun k => [2, 1, 4, 3].getD k 0⟩, ⟨4, fun k => [2, 1, 4, 3].getD k 0⟩, 2, 2⟩

def halfSorted : Buffer Int := ⟨4, fun k => [1, 2, 4, 3].getD k 0⟩

def lowest : Sort.Choice Int := fun _ _ _ _ _ => .low

def sortedOnce : SortTest Int := ⟨⟨2, fun _ => 0⟩, ⟨2, fun k => [1, 2].getD k 0⟩, 2, 1⟩

theorem sortDiffOk_exact_once :
    (∃ ok u, sortDiffOk (· != ·) sortedOnce ⟨2, sortedOnce.sbuf.cell⟩ = some (ok, u) ∧
      (ok = true ↔ sortedOnce.Agree (· != ·) ⟨2, sortedOnce.sbuf.cell⟩)) ∧
    ∃ ok u, sortDiffOk (· != ·) sortedOnce ⟨2, fun _ => 1⟩ = some (ok, u) ∧
      (ok = true ↔ sortedOnce.Agree (· != ·) ⟨2, fun _ => 1⟩) := by
  have hexact := (sortDiffOk_exact_iff (· != ·) sortedOnce rfl rfl
    (fun _ => bne_self_eq_false _) fun k => ⟨sortedOnce.sbuf.cell k + 1, by simp⟩).mpr
      (Or.inr (Or.inl ⟨rfl, by decide⟩))
  exact ⟨hexact ⟨2, sortedOnce.sbuf.cell⟩ rfl, hexact ⟨2, fun _ => 1⟩ rfl⟩

theorem sortDiffOk_second_batch : ∃ t, sortComp id 8 lowest unsorted = some t ∧
    (∃ u, sortDiffOk (· != ·) t halfSorted = some (true, u)) ∧
    ¬t.Agree (· != ·) halfSorted := by
  obtain ⟨t, ht⟩ : ∃ t, sortComp id 8 lowest unsorted = some t :=
    Option.isSome_iff_exists.mp (by decide +kernel)
  have hrun : (sortComp id 8 lowest unsorted).bind (fun t =>
      (sortDiffOk (· != ·) t halfSorted).map Prod.fst) = some true := by decide +kernel
  have hgold : (sortComp id 8 lowest unsorted).map (fun t =>
      (t.nElems, t.nBatches, t.sbuf.cell 2)) = some (2, 2, 3) := by decide +kernel
  rw [ht] at hrun hgold
  obtain ⟨⟨ok, u⟩, hu, hok⟩ := Option.map_eq_some_iff.mp hrun
  obtain ⟨hn, hcell⟩ := Prod.mk.inj (Option.some.inj hgold)
  obtain ⟨hbatches, hcell⟩ := Prod.mk.inj hcell
  refine ⟨t, ht, ⟨u, ?_⟩, ?_⟩
  · exact hok ▸ hu
  · intro hagree
    have hsame := hagree 1 (by omega) 0 (by omega)
    rw [hn] at hsame
    change (halfSorted.cell 2 != t.sbuf.cell 2) = false at hsame
    rw [hcell] at hsame
    exact absurd hsame (by decide)

end SortResults

section AdderModel

/-- DMA_SIZE, which depends on the processor. -/
inductive DmaSize
  | sparc
  | riscv

def DmaSize.bits : DmaSize → Nat
  | .sparc => 32
  | .riscv => 64

/-- struct adder_test, with word_t as the 32 bits of an int32_t. -/
structure AdderTest where
  nbursts : Nat
  hbuf : Buffer (BitVec 32)
  sbuf : Buffer (BitVec 32)

def sizeWordT : Nat := 4

def sizeInChunkData : Nat := 64
def sizeOutChunkData : Nat := 32

def inSizeData (t : AdderTest) : Nat := uint (sizeInChunkData * t.nbursts)
def outSizeData (t : AdderTest) : Nat := uint (sizeOutChunkData * t.nbursts)

def adderSize (t : AdderTest) : Nat :=
  uint (uint (inSizeData t * sizeWordT) + uint (outSizeData t * sizeWordT))

def initRound (value : BitVec 32) (t : AdderTest) (i : Nat) : Option AdderTest := do
  let hbuf ← t.hbuf.store i value
  let sbuf ← t.sbuf.store i value
  let _ ← int (i + 1)
  return { t with hbuf := hbuf, sbuf := sbuf }

/-- The second loop goes on where the first one has stopped. -/
def initBuf (t : AdderTest) : Option AdderTest := do
  let sizeData := uint (inSizeData t + outSizeData t)
  let u ← (List.range (inSizeData t)).foldlM (fun u i => initRound (BitVec.ofNat 32 i) u i) t
  (List.range (sizeData - inSizeData t)).foldlM (fun u k => initRound 10 u (inSizeData t + k)) u

def compRound (inSize : Nat) (sbuf : Buffer (BitVec 32)) (i : Nat) :
    Option (Buffer (BitVec 32)) := do
  let value ← int (i * 4)
  let value ← int (value + 1)
  let sbuf ← sbuf.store (uint (i + inSize)) (BitVec.ofInt 32 value)
  let _ ← int (i + 1)
  return sbuf

def adderComp (t : AdderTest) : Option AdderTest := do
  let sbuf ← (List.range (outSizeData t)).foldlM (compRound (inSizeData t)) t.sbuf
  return { t with sbuf := sbuf }

/-- SIZE_DATA in adder_diff_ok. -/
def comparedSize (dma : DmaSize) (t : AdderTest) : Nat :=
  uint (adderSize t / (dma.bits / sizeWordT))

def adderDiffOk (dma : DmaSize) (t : AdderTest) (contig : Buffer (BitVec 32)) :
    Option (Bool × AdderTest) := do
  let hbuf ← contigCopyFrom t.hbuf contig (adderSize t / sizeWordT)
  let err ← checkGold (· != ·) t.sbuf hbuf (comparedSize dma t)
  return (decide (err = 0), { t with hbuf := hbuf })

structure AdderTest.Allocated (t : AdderTest) (contig : Buffer (BitVec 32)) : Prop where
  hbuf : t.hbuf.size = adderSize t / sizeWordT
  sbuf : t.sbuf.size = adderSize t / sizeWordT
  contig : contig.size = adderSize t / sizeWordT

def AdderTest.OutputsRight (t : AdderTest) (contig : Buffer (BitVec 32)) : Prop :=
  ∀ k < sizeOutChunkData * t.nbursts, contig.cell (sizeInChunkData * t.nbursts + k) =
    t.sbuf.cell (sizeInChunkData * t.nbursts + k)

end AdderModel

section AdderResults
variable {v : AdderTest} {contig contig' : Buffer (BitVec 32)} {dma : DmaSize}

/-- The words compared lie in front of the outputs, also where the sizes wrap. -/
theorem comparedSize_le (dma : DmaSize) (v : AdderTest) :
    comparedSize dma v ≤ 48 * v.nbursts ∧ comparedSize dma v ≤ adderSize v / sizeWordT ∧
      comparedSize dma v < 2 ^ 31 := by
  have hin : inSizeData v ≤ 64 * v.nbursts := Nat.mod_le _ _
  have hout : outSizeData v ≤ 32 * v.nbursts := Nat.mod_le _ _
  have hbytes : adderSize v ≤ 384 * v.nbursts := by
    have hsum : adderSize v ≤ inSizeData v * 4 + outSizeData v * 4 :=
      (Nat.mod_le _ _).trans (Nat.add_le_add (Nat.mod_le _ _) (Nat.mod_le _ _))
    omega
  have hlt : adderSize v < 2 ^ 32 := Nat.mod_lt _ (by decide)
  have hwords : comparedSize dma v ≤ adderSize v / 8 := by
    refine (Nat.mod_le _ _).trans ?_
    cases dma with
    | sparc => exact le_rfl
    | riscv => exact Nat.div_le_div_left (by decide : 8 ≤ 16) (by decide)
  have hsize : sizeWordT = 4 := rfl
  rw [hsize]
  omega

theorem adderDiffOk_eq (dma : DmaSize) (halloc : v.Allocated contig) :
    (adderDiffOk dma v contig).map Prod.fst =
      some (decide (∀ k < comparedSize dma v, contig.cell k = v.sbuf.cell k)) := by
  obtain ⟨-, hroom, hcounted⟩ := comparedSize_le dma v
  have hcopy : contigCopyFrom v.hbuf contig (adderSize v / sizeWordT) =
      some (copied v.hbuf contig (adderSize v / sizeWordT)) :=
    if_pos ⟨halloc.hbuf.ge, halloc.contig.ge⟩
  have hcheck : checkGold (· != ·) v.sbuf (copied v.hbuf contig (adderSize v / sizeWordT))
      (comparedSize dma v) =
        some ((mismatches (· != ·) v.sbuf contig (comparedSize dma v) : Nat) : Int) :=
    checkGold_copied hcounted hroom halloc.sbuf.ge halloc.hbuf.ge
  have hzero : mismatches (· != ·) v.sbuf contig (comparedSize dma v) = 0 ↔
      ∀ k < comparedSize dma v, contig.cell k = v.sbuf.cell k := by
    rw [mismatches_eq_zero]
    exact forall₂_congr fun k _ => bne_eq_false_iff_eq
  rw [adderDiffOk, hcopy, Option.bind_eq_bind, Option.bind_some, hcheck, Option.bind_eq_bind,
    Option.bind_some, Option.pure_def, Option.map_some]
  simp only [Nat.cast_eq_zero, hzero]

/-- The test never looks at an output: whatever the number of bursts and the gold values, its
verdict is the same for all outputs behind the same inputs, and among the buffers that it accepts
is one in which an output is not the gold value. -/
theorem adderDiffOk_blind (dma : DmaSize) (v : AdderTest) (hpos : 1 ≤ v.nbursts)
    (hhbuf : v.hbuf.size = adderSize v / sizeWordT)
    (hsbuf : v.sbuf.size = adderSize v / sizeWordT) :
    (∀ contig contig' : Buffer (BitVec 32), contig.size = adderSize v / sizeWordT →
      contig'.size = adderSize v / sizeWordT →
      (∀ k < sizeInChunkData * v.nbursts, contig.cell k = contig'.cell k) →
        (adderDiffOk dma v contig).map Prod.fst = (adderDiffOk dma v contig').map Prod.fst) ∧
    ¬∀ contig : Buffer (BitVec 32), contig.size = adderSize v / sizeWordT →
      (∃ w, adderDiffOk dma v contig = some (true, w)) → v.OutputsRight contig := by
  have hcompared : comparedSize dma v < sizeInChunkData * v.nbursts := by
    have hle := (comparedSize_le dma v).1
    change comparedSize dma v < 64 * v.nbursts
    omega
  constructor
  · intro contig contig' hcontig hcontig' hsame
    rw [adderDiffOk_eq dma ⟨hhbuf, hsbuf, hcontig⟩, adderDiffOk_eq dma ⟨hhbuf, hsbuf, hcontig'⟩]
    have hiff : (∀ k < comparedSize dma v, contig.cell k = v.sbuf.cell k) ↔
        ∀ k < comparedSize dma v, contig'.cell k = v.sbuf.cell k := by
      refine forall₂_congr fun k hk => ?_
      rw [hsame k (by omega)]
    simp only [hiff]
  · intro hsound
    -- the gold buffer itself, with another first output
    let place := sizeInChunkData * v.nbursts
    have hplace : comparedSize dma v < place := hcompared
    let contig : Buffer (BitVec 32) :=
      ⟨adderSize v / sizeWordT, Function.update v.sbuf.cell place (v.sbuf.cell place + 1)⟩
    have haccepted : (adderDiffOk dma v contig).map Prod.fst = some true := by
      rw [adderDiffOk_eq dma ⟨hhbuf, hsbuf, rfl⟩]
      refine congrArg some (decide_eq_true ?_)
      intro k hk
      exact Function.update_of_ne (by omega) _ _
    obtain ⟨⟨ok, w⟩, hw, rfl⟩ := Option.map_eq_some_iff.mp haccepted
    have hright := hsound contig rfl ⟨w, hw⟩ 0 (by
      change 0 < 32 * v.nbursts
      omega)
    change Function.update v.sbuf.cell place _ place = v.sbuf.cell place at hright
    rw [Function.update_self] at hright
    have hdiffers := (BitVec.toNat_inj.mpr hright).symm
    rw [BitVec.toNat_add] at hdiffers
    change _ = (_ + 1) % 2 ^ 32 at hdiffers
    omega

def oneBurst : AdderTest := ⟨1, ⟨96, fun _ => 0⟩, ⟨96, fun _ => 0⟩⟩

theorem adderDiffOk_blind_one : ∃ v, (initBuf oneBurst).bind adderComp = some v ∧
    ¬∀ contig : Buffer (BitVec 32), contig.size = adderSize v / sizeWordT →
      (∃ w, adderDiffOk .sparc v contig = some (true, w)) → v.OutputsRight contig := by
  have hrun : ((initBuf oneBurst).bind adderComp).map (fun v =>
      (v.nbursts, v.hbuf.size, v.sbuf.size)) = some (1, 96, 96) := by decide +kernel
  obtain ⟨v, hv, hsizes⟩ := Option.map_eq_some_iff.mp hrun
  obtain ⟨hbursts, hbuffers⟩ := Prod.mk.inj hsizes
  obtain ⟨hhbuf, hsbuf⟩ := Prod.mk.inj hbuffers
  have hsize : adderSize v / sizeWordT = 96 := by
    rw [adderSize, inSizeData, outSizeData, hbursts]
    decide
  exact ⟨v, hv, (adderDiffOk_blind .sparc v hbursts.ge (hhbuf.trans hsize.symm)
    (hsbuf.trans hsize.symm)).2⟩

def untouched : Buffer (BitVec 32) := ⟨96, fun k => if k < 64 then BitVec.ofNat 32 k else 10⟩

theorem adderDiffOk_untouched : ∃ v, (initBuf oneBurst).bind adderComp = some v ∧
    (∀ dma, ∃ w, adderDiffOk dma v untouched = some (true, w)) ∧ ¬v.OutputsRight untouched := by
  have hsparc : ((initBuf oneBurst).bind adderComp).bind (fun v =>
      (adderDiffOk .sparc v untouched).map fun r => (r.1, v.nbursts, v.sbuf.cell 64)) =
        some (true, 1, 1) := by decide +kernel
  have hriscv : ((initBuf oneBurst).bind adderComp).bind (fun v =>
      (adderDiffOk .riscv v untouched).map Prod.fst) = some true := by decide +kernel
  obtain ⟨v, hv, hfirst⟩ := Option.bind_eq_some_iff.mp hsparc
  rw [hv, Option.bind_some] at hriscv
  obtain ⟨⟨ok, w⟩, hw, hresult⟩ := Option.map_eq_some_iff.mp hfirst
  obtain ⟨rfl, hgold⟩ := Prod.mk.inj hresult
  obtain ⟨hbursts, hcell⟩ := Prod.mk.inj hgold
  obtain ⟨⟨ok, w'⟩, hw', rfl⟩ := Option.map_eq_some_iff.mp hriscv
  refine ⟨v, hv, ?_, ?_⟩
  · intro dma
    cases dma with
    | sparc => exact ⟨w, hw⟩
    | riscv => exact ⟨w', hw'⟩
  · intro hright
    have hsame := hright 0 (by rw [hbursts]; decide)
    rw [hbursts] at hsame
    change untouched.cell 64 = v.sbuf.cell 64 at hsame
    rw [hcell] at hsame
    exact absurd hsame (by decide)

end AdderResults
end EspDrivers.AppTests
