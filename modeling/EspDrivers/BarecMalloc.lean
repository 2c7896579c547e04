import Mathlib

/-! The allocator of the bare-metal programs on RISC-V. It hands out one piece of the uncached
area after the other and takes none back. -/
namespace EspDrivers.Barec

section Model

/-- CACHELINE_SIZE, an int. -/
def cachelineSize : BitVec 32 := 0x10

def pointerSize : BitVec 64 := 8

/-- The bump pointer, and the pointers in memory by their addresses. -/
structure Heap where
  uncachedAreaPtr : BitVec 64
  word : BitVec 64 → BitVec 64

/-- `size + CACHELINE_SIZE + sizeof(void*)`. The first sum is one of ints, and its sign goes with
it into the second. -/
def increment (size : BitVec 32) : BitVec 64 := (size + cachelineSize).signExtend 64 + pointerSize

def alignedMalloc (h : Heap) (size : BitVec 32) : BitVec 64 × Heap :=
  let mem := h.uncachedAreaPtr
  let ptr := (mem + cachelineSize.signExtend 64 + pointerSize) &&&
    (~~~(cachelineSize - 1)).signExtend 64
  (ptr, ⟨mem + increment size, Function.update h.word (ptr - pointerSize) mem⟩)

/-- What a call took and what it returned: all from `mem` to `next` is its own. -/
structure Block where
  mem : BitVec 64
  ptr : BitVec 64
  size : BitVec 32
  next : BitVec 64

def block (h : Heap) (size : BitVec 32) : Block :=
  let (ptr, t) := alignedMalloc h size
  ⟨h.uncachedAreaPtr, ptr, size, t.uncachedAreaPtr⟩

def blocks : Heap → List (BitVec 32) → List Block
  | _, [] => []
  | h, size :: sizes => block h size :: blocks (alignedMalloc h size).2 sizes

def after (h : Heap) (sizes : List (BitVec 32)) : Heap :=
  sizes.foldl (fun t size => (alignedMalloc t size).2) h

def Block.reservation (b : Block) : Set Nat := Set.Ico b.mem.toNat b.next.toNat
def Block.bytes (b : Block) : Set Nat := Set.Ico b.ptr.toNat (b.ptr.toNat + b.size.toNat)
def Block.header (b : Block) : Set Nat := Set.Ico (b.ptr.toNat - 8) b.ptr.toNat

/-- A call for a size that is not negative, which leaves the bump pointer without a wrap. -/
def Room (h : Heap) (size : BitVec 32) : Prop :=
  0 ≤ size.toInt ∧ h.uncachedAreaPtr.toNat + (increment size).toNat < 2 ^ 64

def AllRoom : Heap → List (BitVec 32) → Prop
  | _, [] => True
  | h, size :: sizes => Room h size ∧ AllRoom (alignedMalloc h size).2 sizes

end Model

section Call
variable {h : Heap} {size : BitVec 32} {x : BitVec 64}

theorem align_toNat (x : BitVec 64) :
    (x &&& (~~~(cachelineSize - 1)).signExtend 64).toNat = x.toNat / 16 * 16 := by
  have hmask : (~~~(cachelineSize - 1)).signExtend 64 = BitVec.allOnes 64 <<< 4 := by decide
  have hlt : x.toNat / 16 * 16 < 2 ^ 64 := by omega
  rw [hmask, ← BitVec.shiftLeft_ushiftRight, BitVec.toNat_shiftLeft, BitVec.toNat_ushiftRight,
    Nat.shiftRight_eq_div_pow, Nat.shiftLeft_eq, Nat.mod_eq_of_lt hlt]

theorem increment_ge (hsize : 0 ≤ size.toInt) : size.toNat + 24 ≤ (increment size).toNat := by
  have hpos : size.toNat < 2 ^ 31 := by
    rw [BitVec.toInt_eq_toNat_cond] at hsize
    split at hsize <;> omega
  have hsum : (size + cachelineSize).toNat = size.toNat + 16 := by
    rw [BitVec.toNat_add]
    change (size.toNat + 16) % 2 ^ 32 = _
    omega
  rw [increment, BitVec.toNat_add, BitVec.toNat_signExtend, BitVec.toNat_setWidth, hsum,
    BitVec.msb_eq_decide, hsum]
  change size.toNat + 24 ≤ (_ + 8) % 2 ^ 64
  split <;> omega

theorem Room.fits (hroom : Room h size) :
    (block h size).ptr.toNat % 16 = 0 ∧
    (block h size).mem.toNat + 8 < (block h size).ptr.toNat ∧
    (block h size).ptr.toNat + size.toNat ≤ (block h size).next.toNat ∧
    (block h size).next.toNat = h.uncachedAreaPtr.toNat + (increment size).toNat := by
  obtain ⟨hsize, hwrap⟩ := hroom
  have hge := increment_ge hsize
  have hnext : (block h size).next.toNat = h.uncachedAreaPtr.toNat + (increment size).toNat := by
    change (h.uncachedAreaPtr + increment size).toNat = _
    rw [BitVec.toNat_add, Nat.mod_eq_of_lt hwrap]
  have hslack : (h.uncachedAreaPtr + cachelineSize.signExtend 64 + pointerSize).toNat =
      h.uncachedAreaPtr.toNat + 24 := by
    rw [BitVec.toNat_add, BitVec.toNat_add]
    change ((h.uncachedAreaPtr.toNat + 16) % 2 ^ 64 + 8) % 2 ^ 64 = _
    omega
  have hptr : (block h size).ptr.toNat = (h.uncachedAreaPtr.toNat + 24) / 16 * 16 := by
    change ((h.uncachedAreaPtr + cachelineSize.signExtend 64 + pointerSize) &&&
      (~~~(cachelineSize - 1)).signExtend 64).toNat = _
    rw [align_toNat, hslack]
  have hmem : (block h size).mem = h.uncachedAreaPtr := rfl
  rw [hnext, hptr, hmem]
  omega

theorem Room.header_toNat (hroom : Room h size) :
    ((block h size).ptr - pointerSize).toNat = (block h size).ptr.toNat - 8 := by
  have hbefore := hroom.fits.2.1
  refine BitVec.toNat_sub_of_le (BitVec.le_def.mpr ?_)
  change 8 ≤ (block h size).ptr.toNat
  omega

end Call

section Runs
variable {h : Heap} {size : BitVec 32} {sizes : List (BitVec 32)} {a : BitVec 64} {b : Block}

structure Block.Placed (b : Block) : Prop where
  aligned : cachelineSize.toNat ∣ b.ptr.toNat
  header : b.header ⊆ b.reservation
  bytes : b.bytes ⊆ b.reservation
  apart : Disjoint b.header b.bytes

theorem Room.placed (hroom : Room h size) : (block h size).Placed := by
  obtain ⟨haligned, hbefore, hafter, -⟩ := hroom.fits
  have hsize : (block h size).size = size := rfl
  constructor
  · exact Nat.dvd_of_mod_eq_zero haligned
  · exact Set.Ico_subset_Ico (by omega) (by omega)
  · exact Set.Ico_subset_Ico (by omega) (by rw [hsize]; exact hafter)
  · exact Set.Ico_disjoint_Ico_same

theorem blocks_start (hroom : AllRoom h sizes) (hb : b ∈ blocks h sizes) :
    h.uncachedAreaPtr.toNat ≤ b.mem.toNat := by
  induction sizes generalizing h with
  | nil => cases hb
  | cons size sizes ih =>
    obtain ⟨hhead, hrest⟩ := hroom
    cases List.mem_cons.mp hb with
    | inl heq => exact heq ▸ le_rfl
    | inr hmem =>
      have hnext : (block h size).next.toNat ≤ b.mem.toNat := ih hrest hmem
      have hgrows := hhead.fits.2.2.2
      omega

theorem blocks_placed (hroom : AllRoom h sizes) (hb : b ∈ blocks h sizes) : b.Placed := by
  induction sizes generalizing h with
  | nil => cases hb
  | cons size sizes ih =>
    obtain ⟨hhead, hrest⟩ := hroom
    cases List.mem_cons.mp hb with
    | inl heq => exact heq ▸ hhead.placed
    | inr hmem => exact ih hrest hmem

theorem blocks_apart (hroom : AllRoom h sizes) :
    (blocks h sizes).Pairwise fun b c => Disjoint b.reservation c.reservation := by
  induction sizes generalizing h with
  | nil => exact List.Pairwise.nil
  | cons size sizes ih =>
    obtain ⟨-, hrest⟩ := hroom
    refine List.pairwise_cons.mpr ⟨?_, ih hrest⟩
    intro c hc
    have hstart : (block h size).next.toNat ≤ c.mem.toNat := blocks_start hrest hc
    exact Set.Ico_disjoint_Ico.mpr ((min_le_left _ _).trans (hstart.trans (le_max_right _ _)))

theorem after_word (hroom : AllRoom h sizes) (ha : a.toNat < h.uncachedAreaPtr.toNat) :
    (after h sizes).word a = h.word a := by
  induction sizes generalizing h with
  | nil => rfl
  | cons size sizes ih =>
    obtain ⟨hhead, hrest⟩ := hroom
    obtain ⟨-, hbefore, -, hnext⟩ := hhead.fits
    have hmem : (block h size).mem.toNat = h.uncachedAreaPtr.toNat := rfl
    have hlt : a.toNat < (alignedMalloc h size).2.uncachedAreaPtr.toNat := by
      change a.toNat < (block h size).next.toNat
      omega
    have hne : a ≠ (block h size).ptr - pointerSize := by
      rintro rfl
      have hsub := hhead.header_toNat
      omega
    exact (ih hrest hlt).trans (Function.update_of_ne hne _ _)

/-- Every header holds what its call took, after all the calls. -/
theorem header_kept (hroom : AllRoom h sizes) (hb : b ∈ blocks h sizes) :
    (after h sizes).word (b.ptr - pointerSize) = b.mem := by
  induction sizes generalizing h with
  | nil => cases hb
  | cons size sizes ih =>
    obtain ⟨hhead, hrest⟩ := hroom
    cases List.mem_cons.mp hb with
    | inr hmem => exact ih hrest hmem
    | inl heq =>
      subst heq
      obtain ⟨-, hbefore, hafter, -⟩ := hhead.fits
      have hsub := hhead.header_toNat
      have hlt : ((block h size).ptr - pointerSize).toNat <
          (alignedMalloc h size).2.uncachedAreaPtr.toNat := by
        change _ < (block h size).next.toNat
        omega
      exact (after_word hrest hlt).trans (Function.update_self _ _ _)

theorem word_kept (ha : ∀ b ∈ blocks h sizes, a ≠ b.ptr - pointerSize) :
    (after h sizes).word a = h.word a := by
  induction sizes generalizing h with
  | nil => rfl
  | cons size sizes ih =>
    have hhead : a ≠ (block h size).ptr - pointerSize := ha _ List.mem_cons_self
    have hrest := ih (fun b hb => ha b (List.mem_cons_of_mem _ hb))
    exact hrest.trans (Function.update_of_ne hhead _ _)

theorem header_place (hroom : AllRoom h sizes) (hb : b ∈ blocks h sizes) :
    (b.ptr - pointerSize).toNat + 8 = b.ptr.toNat := by
  induction sizes generalizing h with
  | nil => cases hb
  | cons size sizes ih =>
    obtain ⟨hhead, hrest⟩ := hroom
    cases List.mem_cons.mp hb with
    | inr hmem => exact ih hrest hmem
    | inl heq =>
      have hbefore := hhead.fits.2.1
      have hsub := hhead.header_toNat
      rw [heq]
      omega

/-- The blocks and their headers are apart from each other and in what their calls took; after
all the calls every header holds what its call took, and no other memory has changed. -/
theorem alignedMalloc_disjoint (h : Heap) (sizes : List (BitVec 32)) (hroom : AllRoom h sizes) :
    (∀ b ∈ blocks h sizes, cachelineSize.toNat ∣ b.ptr.toNat ∧ b.header ⊆ b.reservation ∧
      b.bytes ⊆ b.reservation ∧ Disjoint b.header b.bytes) ∧
    ((blocks h sizes).Pairwise fun b c => Disjoint b.reservation c.reservation ∧
      Disjoint b.bytes c.bytes ∧ Disjoint b.header c.header ∧
      Disjoint b.header c.bytes ∧ Disjoint b.bytes c.header) ∧
    (∀ b ∈ blocks h sizes, (b.ptr - pointerSize).toNat + 8 = b.ptr.toNat ∧
      (after h sizes).word (b.ptr - pointerSize) = b.mem) ∧
    ∀ a : BitVec 64, (∀ b ∈ blocks h sizes, Disjoint (Set.Ico a.toNat (a.toNat + 8)) b.header) →
      (after h sizes).word a = h.word a := by
  refine ⟨?_, ?_, ?_, ?_⟩
  · intro b hb
    have hplaced := blocks_placed hroom hb
    exact ⟨hplaced.aligned, hplaced.header, hplaced.bytes, hplaced.apart⟩
  · refine (blocks_apart hroom).imp_of_mem ?_
    intro b c hb hc hapart
    have hplacedB := blocks_placed hroom hb
    have hplacedC := blocks_placed hroom hc
    exact ⟨hapart, hapart.mono hplacedB.bytes hplacedC.bytes,
      hapart.mono hplacedB.header hplacedC.header, hapart.mono hplacedB.header hplacedC.bytes,
      hapart.mono hplacedB.bytes hplacedC.header⟩
  · intro b hb
    exact ⟨header_place hroom hb, header_kept hroom hb⟩
  · intro a ha
    refine word_kept ?_
    rintro b hb rfl
    have hplace := header_place hroom hb
    have hfirst : (b.ptr - pointerSize).toNat ∈ b.header := Set.mem_Ico.mpr ⟨by omega, by omega⟩
    exact Set.disjoint_left.mp (ha b hb) (Set.mem_Ico.mpr ⟨le_rfl, by omega⟩) hfirst

def start : Heap := ⟨0xa0100000, fun _ => 0⟩

/-- Sizes that leave every residue of the bump pointer behind. -/
theorem alignedMalloc_disjoint_start : AllRoom start [768, 5, 0, 33] ∧
    ((blocks start [768, 5, 0, 33]).map Block.ptr =
      [0xa0100010, 0xa0100330, 0xa0100340, 0xa0100360]) ∧
    ((blocks start [768, 5, 0, 33]).Pairwise fun b c => Disjoint b.reservation c.reservation ∧
      Disjoint b.bytes c.bytes ∧ Disjoint b.header c.header ∧
      Disjoint b.header c.bytes ∧ Disjoint b.bytes c.header) ∧
    (∀ b ∈ blocks start [768, 5, 0, 33], (b.ptr - pointerSize).toNat + 8 = b.ptr.toNat ∧
      (after start [768, 5, 0, 33]).word (b.ptr - pointerSize) = b.mem) := by
  have hroom : AllRoom start [768, 5, 0, 33] := by
    simp only [AllRoom, Room]
    decide
  obtain ⟨-, hapart, hheaders, -⟩ := alignedMalloc_disjoint start [768, 5, 0, 33] hroom
  exact ⟨hroom, by decide, hapart, hheaders⟩

end Runs
end EspDrivers.Barec
