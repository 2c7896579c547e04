import EspDrivers.ContigSafe
import EspDrivers.LibMappings

/-! The number of chunks of a buffer is derived twice, by lib.c and by __contig_alloc, each
with its own size of a chunk: 1 << chunk_log as an `int` on one side, BIT(chunk_log) on the
other. -/
namespace EspDrivers.LibContig
open ContigAlloc Mapping Trace

def Proc.nMax (s : Proc) (size : Nat) : Nat := uint (divRoundUp size s.chunkSize)

/-- The kernel takes the parameters and allocates a buffer of `size` bytes at `a`. -/
def Satisfied (sys : Sys) (params : Params) (size : Nat) (m : Kmalloc) (k : State) (a : Addr) : Prop :=
  contigAllocOk sys.alloc params = true ∧
    ContigAlloc.contigAlloc sys.alloc params size m = .ok (k, .ok a)

/-- The library, once it has the size of a chunk, counts as many chunks as the kernel: the
request passes the test of n_max, the array holds the page table, and the length for mmap
covers the size. -/
structure SameGeometry (s : Proc) (f : FileId) (params : Params) (size : Nat) (m : Kmalloc)
    (desc : Desc) : Prop where
  divides : s.chunkSize ≠ 0
  equal : s.nMax size = desc.n
  passes : ∃ k r, contigAllocIoctl s.kernel f (s.allocReq params size true) m ⟨true, true⟩ =
    .ok (k, .ok r) ∧ r.n = desc.n
  room : desc.arr.length ≤ s.nMax size
  covers : size ≤ ulong (desc.n * s.chunkSize)

/-- The count of chunks fits into 32 bits, and the size of a chunk into 31 unless one chunk
is enough. -/
def CountsFit (s0 : State) (size : Nat) : Prop :=
  size ≤ (2 ^ 32 - 1) * s0.chunkSize ∧ (s0.chunkSizeLog ≤ 30 ∨ size ≤ s0.chunkSize)

section Counts
variable {size chunk : Nat}

theorem uint_lt (x : Nat) : uint x < 2 ^ 32 := Nat.mod_lt x (by norm_num)

theorem count_covers (hpos : 0 < chunk) (hle : chunk ≤ 2 ^ 31) :
    size ≤ ulong (uint (divRoundUp size chunk) * chunk) ↔ size ≤ (2 ^ 32 - 1) * chunk := by
  have hn := uint_lt (divRoundUp size chunk)
  have hmul : uint (divRoundUp size chunk) * chunk ≤ (2 ^ 32 - 1) * chunk :=
    Nat.mul_le_mul_right chunk (by omega)
  have hword : ulong (uint (divRoundUp size chunk) * chunk) = uint (divRoundUp size chunk) * chunk :=
    Nat.mod_eq_of_lt (by omega)
  rw [hword]
  constructor
  · exact fun h => h.trans hmul
  · intro h
    have hsum : ulong (size + chunk - 1) = size + chunk - 1 := Nat.mod_eq_of_lt (by omega)
    have hcount : (size + chunk - 1) / chunk < 2 ^ 32 :=
      (Nat.div_lt_iff_lt_mul hpos).mpr (by omega)
    have hround := Nat.lt_mul_div_succ (size + chunk - 1) hpos
    rw [divRoundUp, hsum, uint, Nat.mod_eq_of_lt hcount, Nat.mul_comm]
    rw [Nat.mul_add] at hround
    omega

/-- With the sign bit extended, one chunk is all that n_max ever counts. -/
theorem nMax_large {s : Proc} (hs : s.chunkSize = chunkBytes 31) (hzero : size ≠ 0)
    (hsize : size < 2 ^ 64) : s.nMax size = if size ≤ 2 ^ 31 then 1 else 0 := by
  have hval : chunkBytes 31 = 2 ^ 64 - 2 ^ 31 := by decide
  rw [Proc.nMax, hs, hval, divRoundUp, ulong, uint]
  split
  · have hquot : (size + (2 ^ 64 - 2 ^ 31) - 1) % 2 ^ 64 / (2 ^ 64 - 2 ^ 31) = 1 := by omega
    rw [hquot]
    rfl
  · have hquot : (size + (2 ^ 64 - 2 ^ 31) - 1) % 2 ^ 64 / (2 ^ 64 - 2 ^ 31) = 0 := by omega
    rw [hquot]
    rfl

theorem one_chunk (hpos : 0 < chunk) (hle : chunk ≤ 2 ^ 31) (hzero : size ≠ 0)
    (hsize : size ≤ chunk) : uint (divRoundUp size chunk) = 1 := by
  have hsum : ulong (size + chunk - 1) = size + chunk - 1 := Nat.mod_eq_of_lt (by omega)
  have hquot : (size + chunk - 1) / chunk = 1 := Nat.div_eq_of_lt_le (by omega) (by omega)
  rw [divRoundUp, hsum, hquot]
  rfl

end Counts

section Calls
variable {p : Insmod} {o : InitCalls} {s0 : State} {s s1 : Proc} {params : Params} {size : Nat}
  {m : Kmalloc} {k : State} {a : Addr} {desc : Desc} {f : FileId}

theorem Satisfied.made (hinit : ContigAlloc.contigInit p o = .ok s0) (hs : Tracked s0 s)
    (h : Satisfied s.kernel params size m k a) (hd : k.heap a = some desc) :
    size ≠ 0 ∧ size < 2 ^ 64 ∧ desc.n = uint (divRoundUp size s0.chunkSize) ∧
      desc.arr.length = desc.n := by
  obtain ⟨hzero, hfree, -⟩ := contigAlloc_inv h.2
  have hbooks := hs.files.books
  obtain ⟨cs, t, d, hcs, ht, ⟨hn, harr, -⟩, -, -, hk⟩ :=
    contigAlloc_ok (hbooks.nodeOk (small_init hinit)) h.2
  rw [hk, publish_heap ht, if_pos rfl] at hd
  obtain rfl := Option.some.inj hd
  refine ⟨hzero, ?_, ?_, ?_⟩
  · rw [memFree_eq] at hfree
    exact hfree.trans_lt (Nat.mod_lt _ (by norm_num))
  · rw [hn, hcs, nChunks, hbooks.chunkSize]
  · rw [harr, List.length_map, hn]

theorem ioctl_passes (hd : k.heap a = some desc) (h : Satisfied s.kernel params size m k a) :
    (∃ sys r, contigAllocIoctl s.kernel f (s.allocReq params size true) m ⟨true, true⟩ =
      .ok (sys, .ok r) ∧ r.n = desc.n) ↔ desc.n ≤ s.nMax size := by
  obtain ⟨hok, hk⟩ := h
  have hreq : s.allocReq params size true = some ⟨params, size, false, s.nMax size⟩ := rfl
  simp only [hreq, contigAllocIoctl, hok, hk, bind, Except.bind, Bool.false_eq_true, if_false,
    Bool.not_true, replyAlloc, hd]
  by_cases hle : desc.n ≤ s.nMax size
  · simp [hle, Nat.not_lt.mpr hle]
  · simp only [if_pos (Nat.lt_of_not_le hle), hle, iff_false, not_exists, not_and]
    intro sys r hr
    obtain ⟨u, -, hval⟩ := bind_ok.mp hr
    cases hval

theorem sameGeometry_iff (hinit : ContigAlloc.contigInit p o = .ok s0) (hs : Tracked s0 s)
    (h : Satisfied s.kernel params size m k a) (hd : k.heap a = some desc) :
    SameGeometry s f params size m desc ↔ s.chunkSize ≠ 0 ∧ CountsFit s0 size := by
  obtain ⟨hzero, hword, hn, hlen⟩ := h.made hinit hs hd
  obtain ⟨-, -, hpow, hlog⟩ := chunkSize_pos hinit
  have hpos : 0 < s0.chunkSize := by
    rw [hpow]
    exact Nat.two_pow_pos _
  have hle : s0.chunkSize ≤ 2 ^ 31 := by
    rw [hpow]
    exact Nat.pow_le_pow_right (by norm_num) (by omega)
  have hequal : SameGeometry s f params size m desc ↔
      s.chunkSize ≠ 0 ∧ s.nMax size = desc.n ∧ size ≤ ulong (desc.n * s.chunkSize) := by
    constructor
    · exact fun hg => ⟨hg.divides, hg.equal, hg.covers⟩
    · rintro ⟨hset, heq, hcov⟩
      exact ⟨hset, heq, (ioctl_passes hd h).mpr heq.ge, by rw [hlen, heq], hcov⟩
  rw [hequal, and_congr_right_iff]
  intro hset
  have hsize := hs.size.resolve_left hset
  by_cases hsmall : s0.chunkSizeLog ≤ 30
  · have hchunk : s.chunkSize = s0.chunkSize := by
      rw [hsize, chunkBytes_small hsmall, hpow]
    rw [Proc.nMax, hchunk, hn, count_covers hpos hle, CountsFit]
    simp [hsmall]
  · have h31 : s0.chunkSizeLog = 31 := by omega
    have hchunk : s0.chunkSize = 2 ^ 31 := by rw [hpow, h31]
    rw [h31] at hsize
    have hmax := nMax_large hsize hzero hword
    rw [CountsFit, hmax, hchunk, h31]
    split
    · next hone =>
      have hcount := one_chunk hpos hle hzero (by rwa [hchunk])
      have hval : ulong (1 * chunkBytes 31) = 2 ^ 64 - 2 ^ 31 := by decide
      rw [hn, hcount, hsize, hval]
      omega
    · next hmany =>
      constructor
      · rintro ⟨heq, hcov⟩
        rw [← heq, Nat.zero_mul] at hcov
        exact absurd (Nat.le_zero.mp hcov) hzero
      · rintro ⟨-, h30 | hone⟩
        · omega
        · exact absurd hone hmany

/-- Whatever the library has done before, for each size that the kernel satisfies the two
agree about the chunks exactly when the library has the size of a chunk, the count fits into
an unsigned int, and a chunk of 2 GiB is enough if that is their size. -/
theorem geometry_agrees_iff (hinit : ContigAlloc.contigInit p o = .ok s0) {calls : List Call}
    (hr : run step (Proc.start s0) calls = some s) {c : InitOutcome}
    (hs1 : contigInit s c = (s1, true)) (h : Satisfied s1.kernel params size m k a)
    (hd : k.heap a = some desc) (f : FileId) :
    SameGeometry s1 f params size m desc ↔ s1.chunkSize ≠ 0 ∧ CountsFit s0 size := by
  have ht := contigInit_tracked hinit (tracked_run hinit hr) c
  rw [hs1] at ht
  exact sameGeometry_iff hinit ht h hd

end Calls

section Instance

/-- Two regions of 8 GiB in chunks of 2 GiB. -/
def largeInsmod : Insmod := ⟨31, fun i => 2 ^ 33 * (i.val + 1), fun _ => 2 ^ 33⟩

theorem contigInit_large : ContigAlloc.contigInit largeInsmod allOk = .ok (initState largeInsmod) := by
  have hn : ¬ ∃ i, largeInsmod.memSize i = 0 ∨ largeInsmod.memSize i < largeInsmod.chunkSize := by
    decide
  rw [ContigAlloc.contigInit]
  rw [if_neg (by decide), if_neg (by decide), if_neg (by decide), if_neg hn]
  simp [allOk]

def Proc.first (s0 : State) : Proc where
  kernel := (contigOpen (Sys.closed s0) 0 true).1
  fds := [(3, 0)]
  fd := 3
  chunkLog := s0.chunkSizeLog
  chunkSize := chunkBytes s0.chunkSizeLog
  vm _ := none
  handles := []

theorem contigInit_first (s0 : State) :
    contigInit (Proc.start s0) ⟨openThree, true⟩ = (Proc.first s0, true) := rfl

theorem geometry_agrees_small : ∃ k desc,
    Satisfied (Proc.first (initState smallInsmod)).kernel (.preferred 0) 5000 (blockAt 64) k 64 ∧
      k.heap 64 = some desc ∧ SameGeometry (Proc.first (initState smallInsmod)) 0 (.preferred 0) 5000
        (blockAt 64) desc := by
  have h : ∃ k desc, Satisfied (Proc.first (initState smallInsmod)).kernel (.preferred 0) 5000
      (blockAt 64) k 64 ∧ k.heap 64 = some desc := ⟨_, _, ⟨rfl, rfl⟩, rfl⟩
  obtain ⟨k, desc, hsat, hd⟩ := h
  have hset : (Proc.first (initState smallInsmod)).chunkSize ≠ 0 := by decide
  have hfit : CountsFit (initState smallInsmod) 5000 := ⟨by decide, Or.inl (by decide)⟩
  have hrun : run step (Proc.start (initState smallInsmod)) [] =
      some (Proc.start (initState smallInsmod)) := rfl
  exact ⟨k, desc, hsat, hd, (geometry_agrees_iff contigInit_small hrun
    (contigInit_first _) hsat hd 0).mpr ⟨hset, hfit⟩⟩

/-- The kernel has two chunks for 4 GiB, and n_max is 0. -/
theorem two_chunks_are_refused : ∃ k desc,
    ContigAlloc.contigInit largeInsmod allOk = .ok (initState largeInsmod) ∧
      contigInit (Proc.start (initState largeInsmod)) ⟨openThree, true⟩ =
        (Proc.first (initState largeInsmod), true) ∧
      Satisfied (Proc.first (initState largeInsmod)).kernel (.preferred 0) (2 ^ 32) (blockAt 64) k 64 ∧
      k.heap 64 = some desc ∧ desc.n = 2 ∧ (Proc.first (initState largeInsmod)).nMax (2 ^ 32) = 0 ∧
      ¬ SameGeometry (Proc.first (initState largeInsmod)) 0 (.preferred 0) (2 ^ 32) (blockAt 64)
        desc := by
  have h : ∃ k desc, Satisfied (Proc.first (initState largeInsmod)).kernel (.preferred 0) (2 ^ 32)
      (blockAt 64) k 64 ∧ k.heap 64 = some desc ∧ desc.n = 2 := ⟨_, _, ⟨rfl, rfl⟩, rfl, rfl⟩
  obtain ⟨k, desc, hsat, hd, hn⟩ := h
  have hsize : (Proc.first (initState largeInsmod)).chunkSize = chunkBytes 31 := by
    simp only [Proc.first, initState, largeInsmod]
  have hmax : (Proc.first (initState largeInsmod)).nMax (2 ^ 32) = 0 :=
    nMax_large hsize (by decide) (by decide)
  refine ⟨k, desc, contigInit_large, contigInit_first _, hsat, hd, hn, hmax, ?_⟩
  intro hsame
  have heq := hsame.equal
  rw [hn, hmax] at heq
  exact absurd heq (by decide)

end Instance

end EspDrivers.LibContig
