import EspDrivers.ContigSteps
import EspDrivers.ContigFrees
import EspDrivers.LibMappings

/-! contig_mmap on any area of the user's address space. It maps as many chunks as the
descriptor has and does not look at the end of the area, so it stays inside exactly when
the area is long enough or remap_pfn_range fails in time. -/
namespace EspDrivers.ContigMmap
open ContigAlloc Mapping Trace
open LibContig (findByPaddr remapChunks remapChunks_apply chunkSize_pos)

section Model

/-- What contig_mmap reads of struct vm_area_struct: a range of whole pages in the lower
half of the address space, and the offset into the device in pages. -/
structure Vma where
  vmStart : Nat
  vmEnd : Nat
  vmPgoff : Nat
  nonempty : vmStart < vmEnd
  startWhole : pageSize ∣ vmStart
  endWhole : pageSize ∣ vmEnd
  low : vmEnd ≤ 2 ^ 63

abbrev PageTable := Nat → Option Nat

/-- A call of remap_pfn_range that fails may have mapped some of the first pages. -/
structure Failure where
  pages : Nat
  errno : Errno

def mappedPages (chunkSize : Nat) : Option Failure → Nat
  | none => chunkSize / pageSize
  | some failure => min failure.pages (chunkSize / pageSize)

def remapPfnRange (addr pfn size : Nat) (o : Option Failure) : Region Nat :=
  ⟨addr / pageSize, mappedPages size o, fun k => pfn + k⟩

/-- The loop of contig_mmap from chunk `i` on: the regions that it maps, and how it ends. -/
def remapLoop (chunkSize vmStart : Nat) (remap : Nat → Option Failure) :
    Nat → List Nat → List (Region Nat) × Except Errno Unit
  | _, [] => ([], .ok ())
  | i, x :: xs =>
    let r := remapPfnRange (ulong (vmStart + ulong (i * chunkSize))) (x / pageSize) chunkSize (remap i)
    match remap i with
    | some failure => ([r], .error failure.errno)
    | none =>
      let rest := remapLoop chunkSize vmStart remap (i + 1) xs
      (r :: rest.1, rest.2)

def Vma.paddr (vma : Vma) : Nat := ulong (vma.vmPgoff * pageSize)

def contigMmap (sys : Sys) (f : FileId) (vma : Vma) (remap : Nat → Option Failure) :
    Except Fault (List (Region Nat) × Except Errno Unit) :=
  match sys.files f with
  | none => .error .dangling
  | some l => do
    match ← findByPaddr sys.alloc vma.paddr l with
    | none => .ok ([], .error .efault)
    | some desc => .ok (remapLoop sys.alloc.chunkSize vma.vmStart remap 0 (desc.arr.take desc.n))

def install (pt : PageTable) (rs : List (Region Nat)) : PageTable := rs.foldl mapRegion pt

def translate (pt : PageTable) (v : Nat) : Option Nat :=
  (pt (v / pageSize)).map fun pfn => pfn * pageSize + v % pageSize

end Model

section Loop
variable {chunkSize vmStart i : Nat} {remap : Nat → Option Failure} {xs : List Nat} {r : Region Nat}

def chunkRegion (chunkSize vmStart : Nat) (remap : Nat → Option Failure) (i x : Nat) : Region Nat :=
  remapPfnRange (ulong (vmStart + ulong (i * chunkSize))) (x / pageSize) chunkSize (remap i)

theorem mem_remapLoop : r ∈ (remapLoop chunkSize vmStart remap i xs).1 ↔
    ∃ k x, xs[k]? = some x ∧ (∀ j < k, remap (i + j) = none) ∧
      r = chunkRegion chunkSize vmStart remap (i + k) x := by
  induction xs generalizing i with
  | nil => simp [remapLoop]
  | cons x xs ih =>
    have hhead : (∃ k y, (x :: xs)[k]? = some y ∧ (∀ j < k, remap (i + j) = none) ∧
        r = chunkRegion chunkSize vmStart remap (i + k) y) ↔
        r = chunkRegion chunkSize vmStart remap i x ∨
          (remap i = none ∧ ∃ k y, xs[k]? = some y ∧ (∀ j < k, remap (i + 1 + j) = none) ∧
            r = chunkRegion chunkSize vmStart remap (i + 1 + k) y) := by
      constructor
      · rintro ⟨k, y, hy, hall, hr⟩
        cases k with
        | zero =>
          left
          obtain rfl : x = y := by simpa using hy
          simpa using hr
        | succ k =>
          right
          refine ⟨by simpa using hall 0 (by omega), k, y, by simpa using hy, ?_, ?_⟩
          · intro j hj
            have := hall (j + 1) (by omega)
            rwa [← Nat.add_assoc, Nat.add_right_comm] at this
          · rwa [← Nat.add_assoc, Nat.add_right_comm] at hr
      · rintro (hr | ⟨hnone, k, y, hy, hall, hr⟩)
        · exact ⟨0, x, rfl, fun j hj => absurd hj (Nat.not_lt_zero j), hr⟩
        · refine ⟨k + 1, y, by simpa using hy, ?_, ?_⟩
          · intro j hj
            cases j with
            | zero => exact hnone
            | succ j =>
              have := hall j (by omega)
              rwa [Nat.add_right_comm, Nat.add_assoc] at this
          · rwa [Nat.add_right_comm, Nat.add_assoc] at hr
    rw [hhead, remapLoop]
    cases hi : remap i with
    | none => simp [ih, chunkRegion, hi]
    | some failure => simp [chunkRegion, hi]

theorem remapLoop_rc : (remapLoop chunkSize vmStart remap i xs).2 = .ok () ↔
    ∀ k < xs.length, remap (i + k) = none := by
  induction xs generalizing i with
  | nil => simp [remapLoop]
  | cons x xs ih =>
    rw [remapLoop]
    cases hi : remap i with
    | none =>
      simp only [ih, List.length_cons]
      constructor
      · intro h k hk
        cases k with
        | zero => exact hi
        | succ k =>
          have := h k (by omega)
          rwa [Nat.add_right_comm, Nat.add_assoc] at this
      · intro h k hk
        have := h (k + 1) (by omega)
        rwa [← Nat.add_assoc, Nat.add_right_comm] at this
    | some failure =>
      refine iff_of_false (by simp) ?_
      intro h
      have := h 0 (by simp)
      rw [Nat.add_zero, hi] at this
      cases this

theorem chunk_addr (hd : pageSize ∣ chunkSize) (h : vmStart + i * chunkSize < 2 ^ 64) :
    ulong (vmStart + ulong (i * chunkSize)) / pageSize =
      vmStart / pageSize + i * (chunkSize / pageSize) := by
  obtain ⟨pages, rfl⟩ := hd
  have hword : ulong (i * (pageSize * pages)) = i * (pageSize * pages) :=
    Nat.mod_eq_of_lt (by omega)
  rw [hword, ulong, Nat.mod_eq_of_lt h, Nat.mul_div_cancel_left _ (by decide),
    Nat.mul_left_comm, Nat.add_mul_div_left _ _ (by decide)]

theorem install_remapLoop (hd : pageSize ∣ chunkSize) (pt : PageTable)
    (hword : vmStart + (i + xs.length) * chunkSize < 2 ^ 64)
    (hall : ∀ k < xs.length, remap (i + k) = none) :
    install pt (remapLoop chunkSize vmStart remap i xs).1 =
      remapChunks pt (vmStart / pageSize + i * (chunkSize / pageSize)) (chunkSize / pageSize) xs := by
  induction xs generalizing i pt with
  | nil => rfl
  | cons x xs ih =>
    have hi : remap i = none := by simpa using hall 0 (by simp)
    have hlast : i * chunkSize ≤ (i + (x :: xs).length) * chunkSize :=
      Nat.mul_le_mul_right _ (Nat.le_add_right _ _)
    have haddr := @chunk_addr chunkSize vmStart i hd (by omega)
    rw [List.length_cons, ← Nat.add_assoc, Nat.add_right_comm] at hword
    have hrest := ih (i := i + 1) (mapRegion pt ⟨vmStart / pageSize + i * (chunkSize / pageSize),
      chunkSize / pageSize, fun k => x / pageSize + k⟩) hword
      (by
        intro k hk
        have := hall (k + 1) (by simpa using hk)
        rwa [← Nat.add_assoc, Nat.add_right_comm] at this)
    rw [remapLoop, hi]
    simp only [install, List.foldl_cons, remapPfnRange, mappedPages, haddr]
    rw [Nat.add_mul, Nat.one_mul, ← Nat.add_assoc] at hrest
    exact hrest

end Loop

section Meaning
variable {sys : Sys} {f : FileId} {vma : Vma} {remap : Nat → Option Failure}

def Within (vma : Vma) (rs : List (Region Nat)) : Prop :=
  ∀ r ∈ rs, ∀ v, r.base ≤ v → v < r.base + r.size →
    vma.vmStart ≤ v * pageSize ∧ v * pageSize < vma.vmEnd

/-- The buffer of the file whose first chunk is at the offset, of which there is one, is
mapped byte by byte. -/
def Exposes (sys : Sys) (f : FileId) (vma : Vma) (rs : List (Region Nat)) : Prop :=
  ∃ a ∈ descsOf sys f, ∃ desc, sys.alloc.heap a = some desc ∧ desc.arr[0]? = some vma.paddr ∧
    (∀ b ∈ descsOf sys f, ∀ d, sys.alloc.heap b = some d → d.arr[0]? = some vma.paddr → b = a) ∧
    ∀ x < desc.n * sys.alloc.chunkSize, ∃ y, desc.arr[x / sys.alloc.chunkSize]? = some y ∧
      ∀ pt, translate (install pt rs) (vma.vmStart + x) = some (y + x % sys.alloc.chunkSize)

/-- The call ends, maps nothing outside the area, and has exposed the buffer if it returns 0. -/
def MmapOk (sys : Sys) (f : FileId) (vma : Vma) (remap : Nat → Option Failure) : Prop :=
  ∃ rs rc, contigMmap sys f vma remap = .ok (rs, rc) ∧ Within vma rs ∧
    (rc = .ok () → Exposes sys f vma rs)

/-- For a buffer at the offset, what the calls of remap_pfn_range map before one of them
fails is no longer than the area. -/
def Fits (sys : Sys) (f : FileId) (vma : Vma) (remap : Nat → Option Failure) : Prop :=
  ∀ a ∈ descsOf sys f, ∀ desc, sys.alloc.heap a = some desc → desc.arr[0]? = some vma.paddr →
    ∀ i < desc.n, (∀ j < i, remap j = none) → 0 < mappedPages sys.alloc.chunkSize (remap i) →
      i * sys.alloc.chunkSize + mappedPages sys.alloc.chunkSize (remap i) * pageSize ≤
        vma.vmEnd - vma.vmStart

def firstChunk (s : State) (a : Addr) : Option Nat := (s.heap a).bind fun desc => desc.arr[0]?

def passed (sys : Sys) (f : FileId) (vma : Vma) : List Addr :=
  (descsOf sys f).takeWhile fun a => firstChunk sys.alloc a ≠ some vma.paddr

def found (sys : Sys) (f : FileId) (vma : Vma) : Option Addr :=
  (descsOf sys f).find? fun a => firstChunk sys.alloc a = some vma.paddr

/-- What the calls for `n` chunks map before one of them fails is no longer than the area. -/
def Room (chunkSize : Nat) (vma : Vma) (remap : Nat → Option Failure) (n : Nat) : Prop :=
  ∀ i < n, (∀ j < i, remap j = none) → 0 < mappedPages chunkSize (remap i) →
    i * chunkSize + mappedPages chunkSize (remap i) * pageSize ≤ vma.vmEnd - vma.vmStart

/-- The buffers that the search passes have chunks, and the one that it finds has room in
the area; if all of it is mapped, no other buffer of the file starts where it does, and its
chunks are whole pages. -/
structure Exposable (sys : Sys) (f : FileId) (vma : Vma) (remap : Nat → Option Failure) : Prop where
  chunks : ∀ a ∈ passed sys f vma, firstChunk sys.alloc a ≠ none
  room : ∀ a desc, found sys f vma = some a → sys.alloc.heap a = some desc →
    Room sys.alloc.chunkSize vma remap desc.n
  alone : ∀ a desc, found sys f vma = some a → sys.alloc.heap a = some desc →
    (∀ k < desc.n, remap k = none) →
      (∀ b ∈ descsOf sys f, firstChunk sys.alloc b = some vma.paddr → b = a) ∧
        ∀ y ∈ desc.arr, pageSize ∣ y

theorem firstChunk_eq {s : State} {a : Addr} {desc : Desc} (hd : s.heap a = some desc) :
    firstChunk s a = desc.arr[0]? := by
  rw [firstChunk, hd, Option.bind_some]

/-- The search faults at a buffer without chunks, and ends at the first one at the offset. -/
theorem findByPaddr_eq {s : State} (paddr : Nat) {l : List Addr}
    (hl : ∀ a ∈ l, ∃ desc, s.heap a = some desc) :
    findByPaddr s paddr l =
      if ∀ a ∈ l.takeWhile (fun a => firstChunk s a ≠ some paddr), firstChunk s a ≠ none then
        .ok ((l.find? fun a => firstChunk s a = some paddr).bind s.heap)
      else .error .oob := by
  induction l with
  | nil => simp [findByPaddr]
  | cons a l ih =>
    obtain ⟨desc, hd⟩ := hl a (by simp)
    have hrest := ih fun b hb => hl b (List.mem_cons_of_mem a hb)
    have hfirst := firstChunk_eq hd
    cases harr : desc.arr with
    | nil =>
      rw [harr] at hfirst
      simp [findByPaddr, hd, harr, hfirst]
    | cons x xs =>
      rw [harr] at hfirst
      by_cases hx : x = paddr
      · simp [findByPaddr, hd, harr, hfirst, hx]
      · have hskip : findByPaddr s paddr (a :: l) = findByPaddr s paddr l := by
          simp [findByPaddr, hd, harr, hx]
        rw [hskip, hrest]
        simp [hfirst, hx]

/-- What contig_mmap relies on: the descriptors of the file and the allocator behind them. -/
structure Ready (sys : Sys) (f : FileId) : Prop where
  opened : sys.files f ≠ none
  filled : ∀ a ∈ descsOf sys f, ∃ desc, sys.alloc.heap a = some desc ∧ desc.arr.length = desc.n
  pages : pageSize ∣ sys.alloc.chunkSize
  pos : 0 < sys.alloc.chunkSize

theorem Ready.search (h : Ready sys f) (vma : Vma) (remap : Nat → Option Failure) :
    contigMmap sys f vma remap =
      if ∀ a ∈ passed sys f vma, firstChunk sys.alloc a ≠ none then
        match (found sys f vma).bind sys.alloc.heap with
        | none => .ok ([], .error .efault)
        | some desc => .ok (remapLoop sys.alloc.chunkSize vma.vmStart remap 0 (desc.arr.take desc.n))
      else .error .oob := by
  obtain ⟨l, hl⟩ := Option.ne_none_iff_exists'.mp h.opened
  have hdescs := descsOf_open hl
  have hfind := findByPaddr_eq vma.paddr fun a (ha : a ∈ descsOf sys f) =>
    (h.filled a ha).imp fun _ hd => hd.1
  rw [hdescs] at hfind
  rw [passed, found, hdescs]
  split at hfind
  · next hchunks =>
    rw [if_pos hchunks]
    simp only [contigMmap, hl, hfind, bind, Except.bind]
  · next hchunks =>
    rw [if_neg hchunks]
    simp only [contigMmap, hl, hfind, bind, Except.bind]

theorem Ready.run_found (h : Ready sys f) {a : Addr} {desc : Desc}
    (hchunks : ∀ a ∈ passed sys f vma, firstChunk sys.alloc a ≠ none)
    (ha : found sys f vma = some a) (hd : sys.alloc.heap a = some desc) :
    contigMmap sys f vma remap =
      .ok (remapLoop sys.alloc.chunkSize vma.vmStart remap 0 desc.arr) := by
  obtain ⟨d, hd', hlen⟩ := h.filled a (List.mem_of_find?_eq_some ha)
  rw [hd] at hd'
  obtain rfl := Option.some.inj hd'
  rw [h.search, if_pos hchunks, ha, Option.bind_some, hd]
  simp only [List.take_of_length_le hlen.le]

def outcome (pt : PageTable) (r : List (Region Nat) × Except Errno Unit) : Option PageTable :=
  match r.2 with
  | .ok () => some (install pt r.1)
  | .error _ => none

theorem within_chunk {i x chunkSize : Nat} (hd : pageSize ∣ chunkSize)
    (hin : i * chunkSize ≤ vma.vmEnd - vma.vmStart) :
    Within vma [chunkRegion chunkSize vma.vmStart remap i x] ↔
      (0 < mappedPages chunkSize (remap i) →
        i * chunkSize + mappedPages chunkSize (remap i) * pageSize ≤ vma.vmEnd - vma.vmStart) := by
  have hlt := vma.nonempty
  have hlow := vma.low
  have hbase : (chunkRegion chunkSize vma.vmStart remap i x).base =
      vma.vmStart / pageSize + i * (chunkSize / pageSize) := chunk_addr hd (by omega)
  have hsize : (chunkRegion chunkSize vma.vmStart remap i x).size =
      mappedPages chunkSize (remap i) := rfl
  have hone : Within vma [chunkRegion chunkSize vma.vmStart remap i x] ↔
      ∀ v, vma.vmStart / pageSize + i * (chunkSize / pageSize) ≤ v →
        v < vma.vmStart / pageSize + i * (chunkSize / pageSize) +
          mappedPages chunkSize (remap i) →
        vma.vmStart ≤ v * pageSize ∧ v * pageSize < vma.vmEnd := by
    simp only [Within, List.mem_singleton, forall_eq, hbase, hsize]
  rw [hone]
  generalize mappedPages chunkSize (remap i) = m
  obtain ⟨pages, rfl⟩ := hd
  obtain ⟨s, hs⟩ := vma.startWhole
  obtain ⟨e, he⟩ := vma.endWhole
  have hmul : i * (pageSize * pages) = pageSize * (i * pages) := Nat.mul_left_comm ..
  rw [hmul, hs, he, Nat.mul_div_cancel_left _ (by decide), Nat.mul_div_cancel_left _ (by decide)]
  rw [hs, he] at hlt
  generalize i * pages = q
  simp only [pageSize] at hlt ⊢
  constructor
  · intro h hpos
    have := (h (s + q + m - 1) (by omega) (by omega)).2
    omega
  · intro h v hv hv'
    have := h (by omega)
    omega

theorem Room.reached {i chunkSize : Nat} (hd : pageSize ∣ chunkSize) (hpos : 0 < chunkSize)
    (h : Room chunkSize vma remap i) (hall : ∀ j < i, remap j = none) :
    i * chunkSize ≤ vma.vmEnd - vma.vmStart := by
  cases i with
  | zero => omega
  | succ i =>
    have hlast : mappedPages chunkSize (remap i) = chunkSize / pageSize := by
      rw [hall i (Nat.lt_succ_self i), mappedPages]
    have hfit := h i (Nat.lt_succ_self i) fun j hj => hall j (by omega)
    rw [hlast, Nat.div_mul_cancel hd] at hfit
    rw [Nat.add_mul, Nat.one_mul]
    exact hfit (Nat.div_pos (Nat.le_of_dvd hpos hd) (by decide))

theorem within_remapLoop {chunkSize : Nat} {xs : List Nat} (hd : pageSize ∣ chunkSize)
    (hpos : 0 < chunkSize) :
    Within vma (remapLoop chunkSize vma.vmStart remap 0 xs).1 ↔
      Room chunkSize vma remap xs.length := by
  constructor
  · intro hw
    have hroom : ∀ n ≤ xs.length, Room chunkSize vma remap n := by
      intro n hn
      induction n with
      | zero => exact fun i hi => absurd hi (Nat.not_lt_zero i)
      | succ n ih =>
        intro i hi hall
        have hbefore := ih (by omega)
        by_cases hlt : i < n
        · exact hbefore i hlt hall
        · obtain rfl : i = n := by omega
          have hlast : i < xs.length := by omega
          refine (within_chunk (x := xs[i]) hd (hbefore.reached hd hpos hall)).mp ?_
          intro r hr
          apply hw
          rw [List.mem_singleton.mp hr]
          exact mem_remapLoop.mpr ⟨i, xs[i], List.getElem?_eq_getElem hlast, by simpa using hall,
            by simp⟩
    exact hroom xs.length le_rfl
  · intro hroom r hr
    obtain ⟨i, x, hx, hall, rfl⟩ := mem_remapLoop.mp hr
    have hi : i < xs.length := (List.getElem?_eq_some_iff.mp hx).1
    simp only [Nat.zero_add] at hall ⊢
    have hbefore : Room chunkSize vma remap i := fun j hj => hroom j (hj.trans hi)
    exact (within_chunk (x := x) hd (hbefore.reached hd hpos hall)).mpr (hroom i hi hall) _ (by simp)

/-- Without a failure the bytes behind the area are those of the chunks, each from the start
of its first page on. -/
theorem translate_remapLoop {chunkSize x : Nat} {xs : List Nat} (hd : pageSize ∣ chunkSize)
    (hin : xs.length * chunkSize ≤ vma.vmEnd - vma.vmStart)
    (hall : ∀ k < xs.length, remap k = none) (hx : x < xs.length * chunkSize) (pt : PageTable) :
    translate (install pt (remapLoop chunkSize vma.vmStart remap 0 xs).1) (vma.vmStart + x) =
      some (xs.getD (x / chunkSize) 0 / pageSize * pageSize + x % chunkSize) := by
  have hlow := vma.low
  have hstart := vma.nonempty
  have hend := @install_remapLoop _ vma.vmStart 0 remap xs hd pt
    (by rw [Nat.zero_add]; omega) (by simpa using hall)
  obtain ⟨pages, hpages⟩ := hd
  obtain ⟨s, hs⟩ := vma.startWhole
  have hpos : 0 < pages := by
    by_contra hzero
    obtain rfl : pages = 0 := by omega
    simp [hpages] at hx
  have hdiv : chunkSize / pageSize = pages := by
    rw [hpages, Nat.mul_div_cancel_left _ (by decide)]
  have hpage : (vma.vmStart + x) / pageSize = s + x / pageSize := by
    rw [hs, Nat.add_comm, Nat.add_mul_div_left _ _ (by decide), Nat.add_comm]
  have hindex : x / pageSize / pages = x / chunkSize := by
    rw [Nat.div_div_eq_div_mul, hpages]
  have hwithin : s ≤ s + x / pageSize ∧ s + x / pageSize < s + pages * xs.length := by
    refine ⟨Nat.le_add_right _ _, Nat.add_lt_add_left ?_ s⟩
    refine (Nat.div_lt_iff_lt_mul (by decide)).mpr ?_
    rw [Nat.mul_comm, ← Nat.mul_assoc, ← hpages, Nat.mul_comm]
    exact hx
  have hmod : (vma.vmStart + x) % pageSize = x % pageSize := by
    rw [hs, Nat.mul_add_mod]
  have hstartPage : vma.vmStart / pageSize = s := by
    rw [hs, Nat.mul_div_cancel_left _ (by decide)]
  rw [translate, hend, hdiv, hstartPage, hpage, hmod, Nat.zero_mul, Nat.add_zero,
    remapChunks_apply hpos, if_pos hwithin, Nat.add_sub_cancel_left, hindex]
  have hoffset : x % chunkSize = x % pageSize + pageSize * (x / pageSize % pages) := by
    rw [hpages, Nat.mod_mul]
  rw [hoffset, Option.map_some, Nat.add_mul, Nat.mul_comm (x / pageSize % pages), Nat.add_assoc,
    Nat.add_comm (x % pageSize)]

/-- Once everything is mapped, the buffer is exposed if its first chunk is no other's and
its chunks are whole pages. -/
theorem Ready.exposes_iff (h : Ready sys f) {a : Addr} {desc : Desc}
    (ha : found sys f vma = some a) (hd : sys.alloc.heap a = some desc)
    (hroom : Room sys.alloc.chunkSize vma remap desc.n) (hall : ∀ k < desc.n, remap k = none) :
    Exposes sys f vma (remapLoop sys.alloc.chunkSize vma.vmStart remap 0 desc.arr).1 ↔
      (∀ b ∈ descsOf sys f, firstChunk sys.alloc b = some vma.paddr → b = a) ∧
        ∀ y ∈ desc.arr, pageSize ∣ y := by
  have hmem := List.mem_of_find?_eq_some ha
  have hat : desc.arr[0]? = some vma.paddr := by
    have hfirst := List.find?_some ha
    rwa [decide_eq_true_eq, firstChunk_eq hd] at hfirst
  obtain ⟨d, hd', hlen⟩ := h.filled a hmem
  rw [hd] at hd'
  obtain rfl := Option.some.inj hd'
  have hbytes := fun x (hx : x < desc.arr.length * sys.alloc.chunkSize) pt =>
    translate_remapLoop h.pages (by rw [hlen]; exact hroom.reached h.pages h.pos hall)
      (by rwa [hlen]) hx pt
  constructor
  · rintro ⟨a', ha', desc', hd', -, honly, htranslate⟩
    obtain rfl : a = a' := honly a hmem desc hd hat
    rw [hd] at hd'
    obtain rfl := Option.some.inj hd'
    refine ⟨?_, ?_⟩
    · intro b hb hbx
      obtain ⟨d, hbd, -⟩ := h.filled b hb
      rw [firstChunk_eq hbd] at hbx
      exact honly b hb d hbd hbx
    · intro y hy
      obtain ⟨i, hi, rfl⟩ := List.getElem_of_mem hy
      have hx : i * sys.alloc.chunkSize < desc.arr.length * sys.alloc.chunkSize :=
        Nat.mul_lt_mul_of_pos_right hi h.pos
      obtain ⟨y, hget, hmapped⟩ := htranslate (i * sys.alloc.chunkSize) (hlen ▸ hx)
      have hbyte := (hmapped fun _ => none).symm.trans (hbytes _ hx _)
      rw [Nat.mul_div_cancel _ h.pos] at hget hbyte
      rw [List.getElem?_eq_getElem hi] at hget
      obtain rfl := Option.some.inj hget
      rw [List.getD_eq_getElem _ _ hi] at hbyte
      have hsame := Nat.add_right_cancel (Option.some.inj hbyte)
      exact ⟨desc.arr[i] / pageSize, hsame.trans (Nat.mul_comm _ _)⟩
  · rintro ⟨honly, hwhole⟩
    refine ⟨a, hmem, desc, hd, hat, ?_, ?_⟩
    · intro b hb d hbd hbx
      exact honly b hb ((firstChunk_eq hbd).trans hbx)
    · intro x hx
      rw [← hlen] at hx
      have hlt : x / sys.alloc.chunkSize < desc.arr.length := (Nat.div_lt_iff_lt_mul h.pos).mpr hx
      refine ⟨_, List.getElem?_eq_getElem hlt, ?_⟩
      intro pt
      rw [hbytes x hx pt, List.getD_eq_getElem _ _ hlt,
        Nat.div_mul_cancel (hwhole _ (List.getElem_mem hlt))]

theorem Ready.mmapOk_iff (h : Ready sys f) :
    MmapOk sys f vma remap ↔ Exposable sys f vma remap := by
  by_cases hchunks : ∀ a ∈ passed sys f vma, firstChunk sys.alloc a ≠ none
  · cases hfound : found sys f vma with
    | none =>
      have hrun : contigMmap sys f vma remap = .ok ([], .error .efault) := by
        rw [h.search, if_pos hchunks, hfound, Option.bind_none]
      have hno : ∀ a, found sys f vma ≠ some a := by simp [hfound]
      refine iff_of_true ⟨_, _, hrun, fun r hr => by simp at hr, fun hrc => by cases hrc⟩ ?_
      exact ⟨hchunks, fun a _ ha => absurd ha (hno a), fun a _ ha => absurd ha (hno a)⟩
    | some a =>
      obtain ⟨desc, hd, hlen⟩ := h.filled a (List.mem_of_find?_eq_some hfound)
      have hrun := @Ready.run_found _ _ vma remap h _ _ hchunks hfound hd
      have hwithin := @within_remapLoop vma remap _ desc.arr h.pages h.pos
      have hrc := @remapLoop_rc sys.alloc.chunkSize vma.vmStart 0 remap desc.arr
      simp only [hlen, Nat.zero_add] at hwithin hrc
      constructor
      · rintro ⟨rs, rc, hres, hw, hexposes⟩
        rw [hrun] at hres
        obtain ⟨rfl, rfl⟩ := Prod.mk.inj (Except.ok.inj hres)
        refine ⟨hchunks, ?_, ?_⟩
        · intro b d hb hbd
          obtain rfl := Option.some.inj (hfound.symm.trans hb)
          obtain rfl := Option.some.inj (hd.symm.trans hbd)
          exact hwithin.mp hw
        · intro b d hb hbd hall
          obtain rfl := Option.some.inj (hfound.symm.trans hb)
          obtain rfl := Option.some.inj (hd.symm.trans hbd)
          exact (h.exposes_iff hfound hd (hwithin.mp hw) hall).mp (hexposes (hrc.mpr hall))
      · intro hx
        have hroom := hx.room a desc hfound hd
        refine ⟨_, _, hrun, hwithin.mpr hroom, ?_⟩
        intro hok
        have hall := hrc.mp hok
        exact (h.exposes_iff hfound hd hroom hall).mpr (hx.alone a desc hfound hd hall)
  · have hrun : contigMmap sys f vma remap = .error .oob := by rw [h.search, if_neg hchunks]
    refine iff_of_false ?_ fun hx => hchunks hx.chunks
    rintro ⟨rs, rc, hres, -⟩
    rw [hrun] at hres
    cases hres

/-- The descriptors of a file have chunks, and different first ones, and every chunk is
whole pages. -/
structure Distinct (sys : Sys) (f : FileId) : Prop where
  sized : ∀ a ∈ descsOf sys f, firstChunk sys.alloc a ≠ none
  first : ∀ a ∈ descsOf sys f, ∀ b ∈ descsOf sys f, ∀ x, firstChunk sys.alloc a = some x →
    firstChunk sys.alloc b = some x → a = b
  whole : ∀ a ∈ descsOf sys f, ∀ desc, sys.alloc.heap a = some desc → ∀ y ∈ desc.arr, pageSize ∣ y

/-- Then nothing is left of the condition but the room. -/
theorem Distinct.exposable_iff (h : Distinct sys f) :
    Exposable sys f vma remap ↔ Fits sys f vma remap := by
  have hat : ∀ a, found sys f vma = some a →
      a ∈ descsOf sys f ∧ firstChunk sys.alloc a = some vma.paddr := by
    intro a ha
    exact ⟨List.mem_of_find?_eq_some ha, by simpa using List.find?_some ha⟩
  constructor
  · intro hx a ha desc hd hpaddr
    rw [← firstChunk_eq hd] at hpaddr
    cases hfound : found sys f vma with
    | none => exact absurd hpaddr (by simpa using List.find?_eq_none.mp hfound a ha)
    | some b =>
      obtain ⟨hb, hbx⟩ := hat b hfound
      obtain rfl := h.first a ha b hb _ hpaddr hbx
      exact hx.room a desc hfound hd
  · intro hfits
    refine ⟨?_, ?_, ?_⟩
    · exact fun a ha => h.sized a (List.takeWhile_subset _ ha)
    · intro a desc ha hd
      obtain ⟨hmem, hpaddr⟩ := hat a ha
      exact hfits a hmem desc hd ((firstChunk_eq hd).symm.trans hpaddr)
    · intro a desc ha hd _
      obtain ⟨hmem, hpaddr⟩ := hat a ha
      exact ⟨fun b hb hbx => h.first b hb a hmem _ hbx hpaddr, h.whole a hmem desc hd⟩

end Meaning

section Reachable
variable {p : Insmod} {o : InitCalls} {s0 : State} {sys : Sys} {f : FileId} {calls : List FileCall}

def Sized (s : State) : Prop := ∀ a desc, s.heap a = some desc → desc.n ≠ 0

theorem sized_deskStep {s t : Desk} {e : DeskEvent} (h : contigInit p o = .ok s0)
    (hfew : ∀ i, s0.memSize i / s0.chunkSize < 2 ^ 31) (hs : Consistent s0 s.sys.alloc)
    (hz : Sized s.sys.alloc) (hstep : deskStep s e = some t) : Sized t.sys.alloc := by
  cases deskStep_move hstep with
  | same he hst =>
    rw [hst]
    exact hz
  | alloc hc =>
    obtain ⟨hsize, hfree, -⟩ := contigAlloc_inv hc
    have hpos := nChunks_pos (exact_of_consistent h hfew hs) hsize hfree
    obtain ⟨cs, u, d, hcs, ht, hf, -, -, heq⟩ := contigAlloc_ok (hs.nodeOk (small_init h)) hc
    rw [heq]
    intro b desc hb
    rw [publish_heap ht] at hb
    split at hb
    · obtain rfl := Option.some.inj hb
      rw [hf.1, hcs]
      exact hpos.ne'
    · exact hz b desc hb
  | free hc =>
    intro b desc hb
    rw [contigFree_heap (small_init h) hs hc] at hb
    refine hz b desc ?_
    by_contra hne
    rw [Function.update_apply] at hb
    split at hb
    · cases hb
    · exact hne hb

theorem sized_run (h : contigInit p o = .ok s0)
    (hfew : ∀ i, s0.memSize i / s0.chunkSize < 2 ^ 31)
    (hr : run fileStep (Sys.closed s0) calls = some sys) : Sized sys.alloc := by
  have hstart : Consistent s0 (Sys.closed s0).alloc ∧ Sized (Sys.closed s0).alloc := by
    refine ⟨consistent_init h, ?_⟩
    intro a desc ha
    have hinit := (contigInit_ok h).1
    simp [Sys.closed, hinit, initState] at ha
  refine (run_invariant (I := fun s => Consistent s0 s.alloc ∧ Sized s.alloc) ?_ hstart hr).2
  intro s call t hs hcall
  obtain ⟨es, hes⟩ := fileStep_splits hcall
  exact run_invariant (I := fun d : Desk => Consistent s0 d.sys.alloc ∧ Sized d.sys.alloc)
    (fun d e d' hd he => ⟨deskStep_consistent (small_init h) hd.1 he,
      sized_deskStep h hfew hd.1 hd.2 he⟩) hs hes

theorem ready_run (h : contigInit p o = .ok s0)
    (hr : run fileStep (Sys.closed s0) calls = some sys) (hf : sys.files f ≠ none) :
    Ready sys f := by
  have hs := filesOk_run h hr
  have hsize := hs.books.chunkSize
  refine ⟨hf, ?_, ?_, ?_⟩
  · intro a ha
    obtain ⟨desc, hd⟩ := Option.ne_none_iff_exists'.mp (hs.live f a ha)
    obtain ⟨hn, harr, -⟩ := hs.books.held_filled hd
    exact ⟨desc, hd, by rw [harr, List.length_map, hn]⟩
  · rw [hsize]
    exact ⟨_, (Nat.mul_comm _ _).trans (chunkSize_pos h).2.1 |>.symm⟩
  · rw [hsize]
    exact Nat.pos_of_div_pos (chunkSize_pos h).1

/-- With few chunks, on regions that are whole pages and do not overlap. -/
theorem distinct_run (h : contigInit p o = .ok s0)
    (hfew : ∀ i, s0.memSize i / s0.chunkSize < 2 ^ 31) (hap : RegionsApart s0)
    (hwhole : ∀ i, pageSize ∣ s0.memStart i)
    (hr : run fileStep (Sys.closed s0) calls = some sys) : Distinct sys f := by
  have hs := filesOk_run h hr
  have hsized := sized_run h hfew hr
  have hpages := (chunkSize_pos h).2.1
  have hpos := Nat.pos_of_div_pos (chunkSize_pos h).1
  have hsize := hs.books.chunkSize
  obtain ⟨rfl, -⟩ := contigInit_ok h
  refine ⟨?_, ?_, ?_⟩
  · intro a ha hnone
    obtain ⟨desc, hd⟩ := Option.ne_none_iff_exists'.mp (hs.live f a ha)
    obtain ⟨hn, harr, -⟩ := hs.books.held_filled hd
    rw [firstChunk_eq hd, List.getElem?_eq_none_iff, harr, List.length_map, ← hn] at hnone
    exact hsized a desc hd (Nat.le_zero.mp hnone)
  · intro a ha b hb x hx hx'
    by_contra hne
    obtain ⟨desc, hd⟩ := Option.ne_none_iff_exists'.mp (hs.live f a ha)
    obtain ⟨desc', hd'⟩ := Option.ne_none_iff_exists'.mp (hs.live f b hb)
    rw [firstChunk_eq hd] at hx
    rw [firstChunk_eq hd'] at hx'
    have hapart := pages_apart hs.books hpos hap hd hd' hx hx' (by simpa using hne)
    rw [hsize] at hapart
    omega
  · intro a _ desc hd y hy
    obtain ⟨k, hk⟩ := List.mem_iff_getElem?.mp hy
    obtain ⟨ch, hch, rfl⟩ := page_chunk hs.books hd hk
    have hc := mem_created_of_held hs.books (List.mem_reverse.mp (List.mem_of_getElem? hch))
    rw [(chunk_inside hc hpos hap).1]
    refine Nat.dvd_add (hwhole ch.ddrNode) (Dvd.dvd.mul_right ?_ _)
    exact ⟨_, (Nat.mul_comm _ _).trans hpages |>.symm⟩

/-- contig_mmap of an open file in every reachable state. Where no two regions overlap, the
regions are whole pages and the nodes have few chunks, only the length of the area counts. -/
theorem mmap_exposes_iff (h : contigInit p o = .ok s0)
    (hr : run fileStep (Sys.closed s0) calls = some sys) (hf : sys.files f ≠ none) (vma : Vma)
    (remap : Nat → Option Failure) :
    (MmapOk sys f vma remap ↔ Exposable sys f vma remap) ∧
      ((∀ i, s0.memSize i / s0.chunkSize < 2 ^ 31) → RegionsApart s0 →
        (∀ i, pageSize ∣ s0.memStart i) → (MmapOk sys f vma remap ↔ Fits sys f vma remap)) := by
  have hok := @Ready.mmapOk_iff _ _ vma remap (ready_run h hr hf)
  refine ⟨hok, ?_⟩
  intro hfew hap hwhole
  exact hok.trans (distinct_run h hfew hap hwhole hr).exposable_iff

theorem start_lt_end {n : Nat} (hn : 0 < n) : 2 ^ 20 < 2 ^ 20 + n * pageSize := by
  simp only [pageSize]
  omega

theorem start_whole : pageSize ∣ 2 ^ 20 := by decide

theorem end_whole (n : Nat) : pageSize ∣ 2 ^ 20 + n * pageSize :=
  Nat.dvd_add start_whole (Nat.dvd_mul_left _ n)

theorem end_low {n : Nat} (hle : n ≤ 2 ^ 40) : 2 ^ 20 + n * pageSize ≤ 2 ^ 63 := by
  simp only [pageSize]
  omega

/-- An area of `n` pages at 1 MiB for the chunks from physical address 1 MiB on. -/
def areaOf (n : Nat) (hn : 0 < n) (hle : n ≤ 2 ^ 40) : Vma where
  vmStart := 2 ^ 20
  vmEnd := 2 ^ 20 + n * pageSize
  vmPgoff := 256
  nonempty := start_lt_end hn
  startWhole := start_whole
  endWhole := end_whole n
  low := end_low hle

def twoChunks : List FileCall :=
  [.openFile 7 true, .alloc 7 (some ⟨.preferred 0, 8192, false, 2⟩) (blockAt 64) ⟨true, true⟩]

theorem regionsApart_small : RegionsApart (initState smallInsmod) := by
  refine ⟨by decide, ?_⟩
  intro i j hij
  fin_cases i <;> fin_cases j
  · exact absurd rfl hij
  · exact Or.inl (by decide)
  · exact Or.inr (by decide)
  · exact absurd rfl hij

theorem room_two : Room 4096 (areaOf 2 (by decide) (by decide)) (fun _ => none) 2 := by
  intro i hi _ _
  simp only [mappedPages, areaOf, pageSize]
  omega

theorem mmap_exposes_two : ∃ sys, run fileStep (Sys.closed (initState smallInsmod)) twoChunks =
    some sys ∧ descsOf sys 7 = [64] ∧
      MmapOk sys 7 (areaOf 2 (by decide) (by decide)) (fun _ => none) ∧
      Exposable sys 7 (areaOf 2 (by decide) (by decide)) fun _ => none := by
  have hrun : ∃ sys, run fileStep (Sys.closed (initState smallInsmod)) twoChunks = some sys ∧
      sys.files 7 = some [64] ∧ (sys.alloc.heap 64).map Desc.n = some 2 ∧
        sys.alloc.chunkSize = 4096 := ⟨_, rfl, rfl, rfl, rfl⟩
  obtain ⟨sys, hr, hf, hn, hsize⟩ := hrun
  have hopen : sys.files 7 ≠ none := by simp [hf]
  have hiff := mmap_exposes_iff contigInit_small hr hopen (areaOf 2 (by decide) (by decide))
    fun _ => none
  have hfits : Fits sys 7 (areaOf 2 (by decide) (by decide)) fun _ => none := by
    intro a ha desc hd _
    rw [descsOf_open hf, List.mem_singleton] at ha
    rw [ha] at hd
    rw [hd] at hn
    rw [hsize, show desc.n = 2 from Option.some.inj hn]
    exact room_two
  have hok := (hiff.2 (by decide) regionsApart_small (by decide)).mpr hfits
  exact ⟨sys, hr, descsOf_open hf, hok, hiff.1.mp hok⟩

/-- The second chunk lands behind an area of one page. -/
theorem mmap_leaves_area : ¬ ∀ (p : Insmod) (o : InitCalls) (s0 : State) (sys : Sys) (f : FileId)
    (calls : List FileCall) (vma : Vma) (remap : Nat → Option Failure), contigInit p o = .ok s0 →
      run fileStep (Sys.closed s0) calls = some sys → sys.files f ≠ none →
        MmapOk sys f vma remap := by
  intro h
  have hrun : ∃ sys, run fileStep (Sys.closed (initState smallInsmod)) twoChunks = some sys ∧
      sys.files 7 ≠ none ∧ ∃ rs rc, contigMmap sys 7 (areaOf 1 (by decide) (by decide))
        (fun _ => none) = .ok (rs, rc) ∧ (rs.map Region.base) = [256, 257] ∧
          rs.map Region.size = [1, 1] := by
    refine ⟨_, rfl, by decide, _, _, rfl, by decide, by decide⟩
  obtain ⟨sys, hr, hf, rs, rc, hmap, hbases, hsizes⟩ := hrun
  obtain ⟨rs', rc', hmap', hw, -⟩ := h smallInsmod allOk _ sys 7 twoChunks
    (areaOf 1 (by decide) (by decide)) (fun _ => none) contigInit_small hr hf
  rw [hmap] at hmap'
  obtain ⟨rfl, -⟩ := Prod.mk.inj (Except.ok.inj hmap')
  have hmem : 257 ∈ rs.map Region.base := by simp [hbases]
  obtain ⟨r, hr, hb⟩ := List.mem_map.mp hmem
  have hz : r.size = 1 := by
    have hsize : r.size ∈ rs.map Region.size := List.mem_map_of_mem hr
    simpa [hsizes] using hsize
  have hout := (hw r hr 257 (by omega) (by omega)).2
  simp only [areaOf, pageSize] at hout
  omega

end Reachable

end EspDrivers.ContigMmap
