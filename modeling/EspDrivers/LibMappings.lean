import EspDrivers.LibContig

/-! The mappings of a process that uses the library: contig_free unmaps one chunk of
what contig_alloc mapped, so they follow the live handles exactly as long as only
one-chunk buffers are freed. -/
namespace EspDrivers.LibContig
open ContigAlloc Mapping Trace

def Req.region (pages : Nat) (h : Req) : Region Nat where
  base := h.mm
  size := pages * h.n
  image k := h.arr.getD (k / pages) 0 / pageSize + k % pages

def Proc.chunkPages (s : Proc) : Nat := s.kernel.alloc.chunkSize / pageSize

def Proc.regions (s : Proc) : List (Region Nat) := s.handles.map (Req.region s.chunkPages)

/-- The mappings of contig memory are those of the live handles. -/
def Proc.MappedExactly (s : Proc) : Prop := Covers s.vm s.regions

section Chunks

theorem remapChunks_apply {pages : Nat} (hp : 0 < pages) (vm : Nat → Option Nat) (start : Nat)
    (xs : List Nat) (v : Nat) : remapChunks vm start pages xs v =
      if start ≤ v ∧ v < start + pages * xs.length then
        some (xs.getD ((v - start) / pages) 0 / pageSize + (v - start) % pages)
      else vm v := by
  induction xs generalizing vm start with
  | nil =>
    have hout : ¬ (start ≤ v ∧ v < start + pages * 0) := by omega
    rw [List.length_nil, if_neg hout, remapChunks]
  | cons x xs ih =>
    rw [remapChunks, ih, List.length_cons, Nat.mul_succ]
    by_cases hfirst : start ≤ v ∧ v < start + pages
    · have hrest : ¬ (start + pages ≤ v ∧ v < start + pages + pages * xs.length) := by omega
      have hall : start ≤ v ∧ v < start + (pages * xs.length + pages) := by omega
      have hzero : (v - start) / pages = 0 := Nat.div_eq_of_lt (by omega)
      have hmod : (v - start) % pages = v - start := Nat.mod_eq_of_lt (by omega)
      rw [if_neg hrest, if_pos hall, hzero, hmod]
      simp [mapRegion, hfirst]
    · by_cases hrest : start + pages ≤ v ∧ v < start + pages + pages * xs.length
      · have hall : start ≤ v ∧ v < start + (pages * xs.length + pages) := by omega
        have hsplit : v - start = v - (start + pages) + pages := by omega
        rw [if_pos hrest, if_pos hall, hsplit, Nat.add_div_right _ hp, Nat.add_mod_right]
        rfl
      · have hall : ¬ (start ≤ v ∧ v < start + (pages * xs.length + pages)) := by omega
        rw [if_neg hrest, if_neg hall, mapRegion, if_neg hfirst]

theorem remapChunks_region {pages : Nat} (hp : 0 < pages) (vm : Nat → Option Nat) (h : Req)
    (hlen : h.arr.length = h.n) :
    remapChunks vm h.mm pages h.arr = mapRegion vm (h.region pages) := by
  funext v
  rw [remapChunks_apply hp, hlen]
  rfl

end Chunks

/-- What the calls of the library keep, whatever they free. -/
structure Tracked (s0 : State) (s : Proc) : Prop where
  files : FilesOk s0 s.kernel
  size : s.chunkSize = 0 ∨ s.chunkSize = chunkBytes s0.chunkSizeLog
  equal : s.handles ≠ [] → s.chunkSize = s0.chunkSize
  table : ∀ h ∈ s.handles, 0 < h.n ∧ h.arr.length = h.n
  opened : ∀ f ∈ s.fds.map Prod.snd, s.kernel.files f ≠ none
  live : ∀ h ∈ s.handles, ∃ desc, s.kernel.alloc.heap h.khandle = some desc ∧ desc.arr = h.arr
  mine : ∀ h ∈ s.handles, ∃ f ∈ s.fds.map Prod.snd, h.khandle ∈ descsOf s.kernel f
  distinct : (s.handles.map Req.khandle).Nodup

/-- With the mappings, in runs that free one-chunk buffers only. -/
structure LibOk (s0 : State) (s : Proc) : Prop where
  tracked : Tracked s0 s
  apart : Apart s.regions
  mapped : s.MappedExactly

section Steps
variable {p : Insmod} {o : InitCalls} {s0 : State} {s t : Proc} {k : Sys}

theorem Tracked.chunkPages (hs : Tracked s0 s) : s.chunkPages = s0.chunkSize / pageSize := by
  rw [Proc.chunkPages, hs.files.books.chunkSize]

theorem Tracked.regions (hs : Tracked s0 s) :
    s.regions = s.handles.map (Req.region (s0.chunkSize / pageSize)) := by
  rw [Proc.regions, hs.chunkPages]

theorem Tracked.regions_same (hs : Tracked s0 s) (ht : Tracked s0 t) (hh : t.handles = s.handles) :
    t.regions = s.regions := by
  rw [ht.regions, hs.regions, hh]

theorem Tracked.kernel (hs : Tracked s0 s) (hk : FilesOk s0 k)
    (hopen : ∀ f ∈ s.fds.map Prod.snd, k.files f ≠ none)
    (hsame : ∀ h ∈ s.handles, k.alloc.heap h.khandle = s.kernel.alloc.heap h.khandle)
    (hmine : ∀ f, ∀ h ∈ s.handles, h.khandle ∈ descsOf s.kernel f → h.khandle ∈ descsOf k f) :
    Tracked s0 { s with kernel := k } := by
  refine ⟨hk, hs.size, hs.equal, hs.table, hopen, ?_, ?_, hs.distinct⟩
  · intro h hh
    change ∃ desc, k.alloc.heap h.khandle = some desc ∧ desc.arr = h.arr
    rw [hsame h hh]
    exact hs.live h hh
  · intro h hh
    obtain ⟨f, hf, hmem⟩ := hs.mine h hh
    exact ⟨f, hf, hmine f h hh hmem⟩

theorem LibOk.same (hs : LibOk s0 s) (ht : Tracked s0 t) (hvm : t.vm = s.vm)
    (hh : t.handles = s.handles) : LibOk s0 t := by
  have hregions := hs.tracked.regions_same ht hh
  refine ⟨ht, ?_, ?_⟩
  · rw [hregions]
    exact hs.apart
  · rw [Proc.MappedExactly, hregions, hvm]
    exact hs.mapped

theorem contigInit_vm (s : Proc) (o : InitOutcome) : (contigInit s o).1.vm = s.vm := by
  rw [contigInit]
  split
  · rfl
  · split
    · rfl
    · dsimp only
      split <;> rfl

theorem contigInit_handles (s : Proc) (o : InitOutcome) :
    (contigInit s o).1.handles = s.handles := by
  rw [contigInit]
  split
  · rfl
  · split
    · rfl
    · dsimp only
      split <;> rfl

theorem chunkSize_pos (h : ContigAlloc.contigInit p o = .ok s0) :
    0 < s0.chunkSize / pageSize ∧ s0.chunkSize / pageSize * pageSize = s0.chunkSize ∧
      s0.chunkSize = 2 ^ s0.chunkSizeLog ∧ s0.chunkSizeLog < 32 := by
  obtain ⟨rfl, hlog, hpage, -⟩ := contigInit_ok h
  have hdvd : pageSize ∣ 2 ^ p.chunkLog := by
    have hle : 12 ≤ p.chunkLog := by
      by_contra hlt
      have hpow : 2 ^ p.chunkLog ≤ 2 ^ 11 := Nat.pow_le_pow_right (by norm_num) (by omega)
      have hmin : 4096 ≤ 2 ^ p.chunkLog := hpage
      omega
    exact pow_dvd_pow 2 hle
  refine ⟨Nat.div_pos hpage (by decide), Nat.div_mul_cancel hdvd, rfl, hlog⟩

theorem contigInit_tracked (h : ContigAlloc.contigInit p o = .ok s0) (hs : Tracked s0 s)
    (c : InitOutcome) : Tracked s0 (contigInit s c).1 := by
  rw [contigInit]
  split
  · exact hs
  · split
    · exact hs
    · next localFd f hpick =>
      have hfresh := c.opener.fresh _ _ _ _ hpick
      have hopen : FilesOk s0 (contigOpen s.kernel f true).1 := filesOk_opened hs.files hfresh.2
      have hlog : s.kernel.alloc.chunkSizeLog = s0.chunkSizeLog := hs.files.books.chunkSizeLog
      have hmine : ∀ g, ∀ h ∈ s.handles, h.khandle ∈ descsOf s.kernel g →
          h.khandle ∈ descsOf (contigOpen s.kernel f true).1 g := by
        intro g h hh hmem
        have hne : g ≠ f := by
          intro he
          rw [he, descsOf, hfresh.2] at hmem
          cases hmem
        exact (FileMove.other hs.files (contigOpen_move hfresh.2) hne hmem).2
      have hfiles : ∀ g, s.kernel.files g ≠ none → (contigOpen s.kernel f true).1.files g ≠ none := by
        intro g hg
        have hne : g ≠ f := fun he => hg (he ▸ hfresh.2)
        rwa [(contigOpen_move hfresh.2 : FileMove s0 _ _ _).files_other hne]
      have hk := hs.kernel hopen (fun g hg => hfiles g (hs.opened g hg)) (fun h _ => rfl) hmine
      have hnew : ∀ g ∈ ((localFd, f) :: s.fds).map Prod.snd,
          (contigOpen s.kernel f true).1.files g ≠ none := by
        intro g hg
        cases List.mem_cons.mp hg with
        | inl he =>
          rw [he]
          simp [contigOpen]
        | inr hmem => exact hfiles g (hs.opened g hmem)
      have hcons : ∀ h ∈ s.handles, ∃ g ∈ ((localFd, f) :: s.fds).map Prod.snd,
          h.khandle ∈ descsOf (contigOpen s.kernel f true).1 g := by
        intro h hh
        obtain ⟨g, hg, hmem⟩ := hk.mine h hh
        exact ⟨g, List.mem_cons_of_mem _ hg, hmem⟩
      dsimp only
      split
      · exact ⟨hopen, hs.size, hs.equal, hs.table, hnew, hk.live, hcons, hs.distinct⟩
      · next log hput =>
        have hval : log = s0.chunkSizeLog := by
          rw [contigChunkSizeIoctl] at hput
          split at hput
          · rw [← hlog]
            exact (Except.ok.inj hput).symm
          · cases hput
        refine ⟨hopen, Or.inr (by rw [hval]), ?_, hs.table, hnew, hk.live, hcons, hs.distinct⟩
        intro hne
        have hold := hs.equal hne
        have hpos := Nat.pos_of_div_pos (chunkSize_pos h).1
        cases hs.size with
        | inl hz => omega
        | inr hb => rw [hval, ← hb, hold]

section Mmap
variable {vm vm' : Nat → Option Nat} {f : FileId} {len off base : Nat} {m : Mmap}

theorem mmap_some (h : mmap k f vm len off m = .ok (some (base, vm'))) :
    len ≠ 0 ∧ base + divRoundUp len pageSize < 2 ^ 51 ∧
      (∀ v, base ≤ v → v < base + divRoundUp len pageSize → vm v = none) ∧
      ∃ l desc, k.files f = some l ∧ findByPaddr k.alloc off l = .ok (some desc) ∧
        vm' = remapChunks vm base (k.alloc.chunkSize / pageSize) (desc.arr.take desc.n) := by
  rw [mmap] at h
  split at h
  · cases h
  next hlen =>
  cases hp : m.pick vm (divRoundUp len pageSize) with
  | none => simp [hp] at h
  | some b =>
    simp only [hp] at h
    obtain ⟨r, hr, h⟩ := bind_ok.mp h
    have hmap : r.map (fun vm => (b, vm)) = some (base, vm') := Except.ok.inj h
    obtain ⟨w, rfl, hw⟩ := Option.map_eq_some_iff.mp hmap
    obtain ⟨rfl, rfl⟩ := Prod.mk.inj hw
    have hfresh := m.fresh _ _ _ hp
    refine ⟨fun hz => hlen (Or.inl hz), hfresh.1, hfresh.2, ?_⟩
    rw [contigMmap] at hr
    cases hf : k.files f with
    | none => simp [hf] at hr
    | some l =>
      simp only [hf] at hr
      obtain ⟨q, hq, hr⟩ := bind_ok.mp hr
      have hoff : off / pageSize * pageSize = off := by
        refine Nat.div_mul_cancel (Nat.dvd_of_mod_eq_zero ?_)
        by_contra hne
        exact hlen (Or.inr hne)
      rw [hoff] at hq
      cases q with
      | none => cases hr
      | some desc =>
        refine ⟨l, desc, rfl, hq, ?_⟩
        have hval := Except.ok.inj hr
        split at hval
        · exact (Option.some.inj hval).symm
        · cases hval

theorem findByPaddr_head {st : State} {a : Addr} {l : List Addr} {desc : Desc}
    (hd : st.heap a = some desc) (hne : desc.arr ≠ []) :
    findByPaddr st (desc.arr.headD 0) (a :: l) = .ok (some desc) := by
  obtain ⟨x, xs, harr⟩ := List.exists_cons_of_ne_nil hne
  simp [findByPaddr, hd, harr]

theorem chunkBytes_small {log : Nat} (hle : log ≤ 30) : chunkBytes log = 2 ^ log := by
  have hpow : 2 ^ log ≤ 2 ^ 30 := Nat.pow_le_pow_right (by norm_num) hle
  generalize hx : 2 ^ log = x at hpow
  have hint : toInt x = (x : Int) := by
    unfold toInt
    rw [Int.bmod_eq_of_le (by omega) (by omega)]
  rw [chunkBytes, hx, hint]
  omega

/-- What has been mapped needs less than half of the address space, so 1 << chunk_log did
not reach the sign bit. -/
theorem chunkBytes_eq {log n : Nat} (hlog : log < 32) (hn : n < 2 ^ 32)
    (hlen : ulong (n * chunkBytes log) ≠ 0)
    (hb : divRoundUp (ulong (n * chunkBytes log)) pageSize < 2 ^ 51) : chunkBytes log = 2 ^ log := by
  by_cases hle : log ≤ 30
  · exact chunkBytes_small hle
  · exfalso
    have h31 : log = 31 := by omega
    subst h31
    have hval : chunkBytes 31 = 2 ^ 64 - 2 ^ 31 := by decide
    rw [hval] at hlen hb
    have hpos : n ≠ 0 := by
      intro hz
      simp [hz, ulong] at hlen
    have hsplit : n * (2 ^ 64 - 2 ^ 31) = (2 ^ 64 - n * 2 ^ 31) + 2 ^ 64 * (n - 1) := by omega
    have hmod : ulong (n * (2 ^ 64 - 2 ^ 31)) = 2 ^ 64 - n * 2 ^ 31 := by
      rw [ulong, hsplit, Nat.add_mul_mod_self_left, Nat.mod_eq_of_lt (by omega)]
    rw [hmod, divRoundUp, ulong, pageSize, Nat.mod_eq_of_lt (by omega)] at hb
    omega

end Mmap

section Alloc
variable {f : FileId} {req : Option AllocReq} {m : Kmalloc} {c : UserCopies}

theorem lookup_mem {f : FileId} (hf : s.fds.lookup s.fd = some f) : f ∈ s.fds.map Prod.snd := by
  obtain ⟨l, r, hfds, -⟩ := List.lookup_eq_some_iff.mp hf
  rw [hfds]
  simp

theorem Tracked.alloc {r : Except Errno AllocReply} (h0 : Small s0) (hs : Tracked s0 s)
    (hf : s.fds.lookup s.fd = some f)
    (hk : contigAllocIoctl s.kernel f req m c = .ok (k, r)) :
    Tracked s0 { s with kernel := k } := by
  obtain ⟨l, hl⟩ := Option.ne_none_iff_exists'.mp (hs.opened f (lookup_mem hf))
  cases r with
  | error e =>
    rw [contigAllocIoctl_error h0 hs.files.books hk]
    exact hs
  | ok r =>
    obtain ⟨desc, hnone, hheap, hfiles, -⟩ := contigAllocIoctl_adds h0 hs.files hl hk
    have hfk := hs.files.move (contigAllocIoctl_move h0 hs.files.books hl hk)
    apply hs.kernel hfk
    · intro g hg
      rw [hfiles]
      by_cases hgf : g = f
      · simp [hgf]
      · rw [Function.update_of_ne hgf]
        exact hs.opened g hg
    · intro h hh
      obtain ⟨d, hd, -⟩ := hs.live h hh
      have hne : h.khandle ≠ r.khandle := by
        intro he
        rw [he, hnone] at hd
        cases hd
      rw [hheap, if_neg hne]
    · intro g h hh hmem
      rw [descsOf, hfiles]
      by_cases hgf : g = f
      · subst hgf
        rw [descsOf_open hl] at hmem
        simp [hmem]
      · rw [Function.update_of_ne hgf]
        exact hmem

theorem bufferPages (hinit : ContigAlloc.contigInit p o = .ok s0) {n : Nat} (hn : n < 2 ^ 32) :
    divRoundUp (ulong (n * s0.chunkSize)) pageSize = s0.chunkSize / pageSize * n := by
  obtain ⟨-, hdvd, hpow, hlog⟩ := chunkSize_pos hinit
  have hle : s0.chunkSize ≤ 2 ^ 31 := by
    rw [hpow]
    exact Nat.pow_le_pow_right (by norm_num) (by omega)
  have hmul : n * s0.chunkSize ≤ 2 ^ 32 * 2 ^ 31 := Nat.mul_le_mul hn.le hle
  have hlen : n * s0.chunkSize = pageSize * (s0.chunkSize / pageSize * n) := by
    rw [← Nat.mul_assoc, Nat.mul_comm pageSize, hdvd, Nat.mul_comm]
  have hsub : pageSize * (s0.chunkSize / pageSize * n) + pageSize - 1 =
      (pageSize - 1) + pageSize * (s0.chunkSize / pageSize * n) := by
    simp only [pageSize]
    omega
  rw [ulong, Nat.mod_eq_of_lt (by omega), divRoundUp, ulong, pageSize, Nat.mod_eq_of_lt (by omega),
    ← pageSize, hlen, hsub, Nat.add_mul_div_left _ _ (by decide), Nat.div_eq_of_lt (by decide),
    Nat.zero_add]

theorem Tracked.hold {r : AllocReply} {desc : Desc} {base : Nat} (vm : Nat → Option Nat)
    (hs : Tracked s0 s) (hk : Tracked s0 { s with kernel := k }) (hsize : s.chunkSize = s0.chunkSize)
    (hf : f ∈ s.fds.map Prod.snd) (hmem : r.khandle ∈ descsOf k f)
    (hnone : s.kernel.alloc.heap r.khandle = none) (hdesc : k.alloc.heap r.khandle = some desc)
    (harr : desc.arr = r.arr) (hlen : r.arr.length = r.n) (hpos : 0 < r.n) :
    Tracked s0 (s.hold k vm (Req.ofReply base r)) := by
  refine ⟨hk.files, hk.size, fun _ => hsize, ?_, hk.opened, ?_, ?_, ?_⟩
  · intro h hh
    cases List.mem_cons.mp hh with
    | inl he =>
      rw [he]
      exact ⟨hpos, hlen⟩
    | inr hmem => exact hs.table h hmem
  · intro h hh
    cases List.mem_cons.mp hh with
    | inl he =>
      rw [he]
      exact ⟨desc, hdesc, harr⟩
    | inr hmem => exact hk.live h hmem
  · intro h hh
    cases List.mem_cons.mp hh with
    | inl he =>
      rw [he]
      exact ⟨f, hf, hmem⟩
    | inr hmem => exact hk.mine h hmem
  · apply List.nodup_cons.mpr
    refine ⟨?_, hs.distinct⟩
    intro hmem
    obtain ⟨h, hh, he⟩ := List.mem_map.mp hmem
    obtain ⟨d, hd, -⟩ := hs.live h hh
    change h.khandle = r.khandle at he
    rw [he, hnone] at hd
    cases hd

theorem Tracked.mapped {r : AllocReply} {mp : Mmap} {base : Nat} {vm : Nat → Option Nat}
    (hinit : ContigAlloc.contigInit p o = .ok s0) (hs : Tracked s0 s)
    (hf : s.fds.lookup s.fd = some f) (hzero : s.chunkSize ≠ 0)
    (hk : contigAllocIoctl s.kernel f req m c = .ok (k, .ok r))
    (hmm : mmap k f s.vm (ulong (r.n * s.chunkSize)) (r.arr.headD 0) mp = .ok (some (base, vm))) :
    Tracked s0 (s.hold k vm (Req.ofReply base r)) ∧
      vm = mapRegion s.vm ((Req.ofReply base r).region (s0.chunkSize / pageSize)) ∧
      (∀ v, base ≤ v → v < base + s0.chunkSize / pageSize * r.n → s.vm v = none) ∧
      base + s0.chunkSize / pageSize * r.n < 2 ^ 51 := by
  have h0 := small_init hinit
  obtain ⟨hpages, -, hpow, hlog⟩ := chunkSize_pos hinit
  obtain ⟨l, hl⟩ := Option.ne_none_iff_exists'.mp (hs.opened f (lookup_mem hf))
  obtain ⟨desc, hnone, hheap, hfiles, hn, harr, hlen, hlt⟩ :=
    contigAllocIoctl_adds h0 hs.files hl hk
  obtain ⟨hne, hspace, hfresh, l', desc', hl', hfind, hvm⟩ := mmap_some hmm
  have htr := hs.alloc h0 hf hk
  have hword : r.n < 2 ^ 32 := hn ▸ hlt
  have hsize : s.chunkSize = s0.chunkSize := by
    cases hs.size with
    | inl hz => exact absurd hz hzero
    | inr hb =>
      rw [hb] at hne hspace ⊢
      rw [chunkBytes_eq hlog hword hne (by omega), hpow]
  have hnpos : 0 < r.n := by
    apply Nat.pos_of_ne_zero
    intro hz
    simp [hz, ulong] at hne
  have hdesc : k.alloc.heap r.khandle = some desc := (hheap r.khandle).trans (if_pos rfl)
  have hsame : desc' = desc := by
    have hcons : r.khandle :: l = l' := by simpa [hfiles] using hl'
    have harrne : desc.arr ≠ [] := List.ne_nil_of_length_pos (by omega)
    rw [← hcons, harr, findByPaddr_head hdesc harrne] at hfind
    exact (Option.some.inj (Except.ok.inj hfind)).symm
  have hchunk : k.alloc.chunkSize / pageSize = s0.chunkSize / pageSize := htr.chunkPages
  have htake : desc.arr.take desc.n = r.arr := by rw [← hlen, List.take_length, harr]
  rw [hsize, bufferPages hinit hword] at hfresh hspace
  rw [hsame, htake, hchunk] at hvm
  have harrlen : r.arr.length = r.n := by rw [harr, hlen, hn]
  have hmem : r.khandle ∈ descsOf k f := by simp [descsOf, hfiles]
  refine ⟨?_, ?_, hfresh, hspace⟩
  · exact hs.hold vm htr hsize (lookup_mem hf) hmem hnone hdesc harr.symm harrlen hnpos
  · exact hvm.trans (remapChunks_region hpages s.vm (Req.ofReply base r) harrlen)

theorem regions_hold {r : AllocReply} {base : Nat} {vm : Nat → Option Nat} (hs : Tracked s0 s)
    (ht : Tracked s0 (s.hold k vm (Req.ofReply base r))) :
    (s.hold k vm (Req.ofReply base r)).regions =
      (Req.ofReply base r).region (s0.chunkSize / pageSize) :: s.regions := by
  rw [ht.regions, hs.regions]
  rfl

theorem LibOk.alloc {r : AllocReply} {mp : Mmap} {base : Nat} {vm : Nat → Option Nat}
    (hinit : ContigAlloc.contigInit p o = .ok s0) (hs : LibOk s0 s)
    (hf : s.fds.lookup s.fd = some f) (hzero : s.chunkSize ≠ 0)
    (hk : contigAllocIoctl s.kernel f req m c = .ok (k, .ok r))
    (hmm : mmap k f s.vm (ulong (r.n * s.chunkSize)) (r.arr.headD 0) mp = .ok (some (base, vm))) :
    LibOk s0 (s.hold k vm (Req.ofReply base r)) := by
  obtain ⟨hnew, hvm, hfresh, -⟩ := hs.tracked.mapped hinit hf hzero hk hmm
  have hregions := regions_hold hs.tracked hnew
  refine ⟨hnew, ?_, ?_⟩
  · rw [hregions]
    exact hs.apart.cons hs.mapped.contains hfresh
  · rw [Proc.MappedExactly, hregions]
    change Covers vm _
    rw [hvm]
    exact hs.mapped.cons hfresh

end Alloc

def Proc.allocReq (s : Proc) (params : Params) (size : Nat) (copyIn : Bool) : Option AllocReq :=
  if copyIn then some ⟨params, size, false, uint (divRoundUp size s.chunkSize)⟩ else none

/-- The exits of contig_alloc_policy: in front of the ioctl, after an ioctl that failed, after
an mmap that failed, and with a buffer. -/
inductive AllocExit (s : Proc) (params : Params) (size : Nat) (c : AllocCalls) :
    Proc → Option Req → Prop where
  | early : AllocExit s params size c (contigInit s c.init).1 none
  | refused {s1 : Proc} {f : FileId} {k : Sys} {e : Errno} (hs1 : contigInit s c.init = (s1, true))
    (hf : s1.fds.lookup s1.fd = some f)
    (hk : contigAllocIoctl s1.kernel f (s1.allocReq params size c.copyIn) c.kmalloc c.copies =
      .ok (k, .error e)) : AllocExit s params size c { s1 with kernel := k } none
  | unmapped {s1 : Proc} {f : FileId} {k : Sys} {r : AllocReply}
    (hs1 : contigInit s c.init = (s1, true)) (hzero : s1.chunkSize ≠ 0)
    (hcalloc : c.callocReq = true ∧ c.callocArr = true) (hf : s1.fds.lookup s1.fd = some f)
    (hk : contigAllocIoctl s1.kernel f (s1.allocReq params size c.copyIn) c.kmalloc c.copies =
      .ok (k, .ok r))
    (hmm : mmap k f s1.vm (ulong (r.n * s1.chunkSize)) (r.arr.headD 0) c.mmap = .ok none) :
    AllocExit s params size c { s1 with kernel := k } none
  | mapped {s1 : Proc} {f : FileId} {k : Sys} {r : AllocReply} {mm : Nat} {vm : Nat → Option Nat}
    (hs1 : contigInit s c.init = (s1, true)) (hzero : s1.chunkSize ≠ 0)
    (hf : s1.fds.lookup s1.fd = some f)
    (hk : contigAllocIoctl s1.kernel f (s1.allocReq params size c.copyIn) c.kmalloc c.copies =
      .ok (k, .ok r))
    (hmm : mmap k f s1.vm (ulong (r.n * s1.chunkSize)) (r.arr.headD 0) c.mmap = .ok (some (mm, vm))) :
    AllocExit s params size c (s1.hold k vm (Req.ofReply mm r)) (some (Req.ofReply mm r))

theorem contigAllocPolicy_exit {params : Params} {size : Nat} {c : AllocCalls} {r : Option Req}
    (h : contigAllocPolicy s params size c = .ok (t, r)) : AllocExit s params size c t r := by
  have hearly := @AllocExit.early s params size c
  rw [contigAllocPolicy] at h
  cases hs1 : contigInit s c.init with
  | mk s1 ok =>
  rw [hs1] at h hearly
  dsimp only at h hearly
  split at h
  · cases h
    exact hearly
  next hok =>
  obtain rfl : ok = true := by simpa using hok
  split at h
  · cases h
    exact hearly
  next hreq =>
  split at h
  · cases h
  next hzero =>
  split at h
  · cases h
    exact hearly
  next harr =>
  have hcalloc : c.callocReq = true ∧ c.callocArr = true := by simpa using And.intro hreq harr
  split at h
  · cases h
    exact hearly
  next f hf =>
  split at h
  · cases h
  · next k e hk =>
    cases h
    exact .refused hs1 hf hk
  · next k a hk =>
    split at h
    · cases h
    · next hmm =>
      cases h
      exact .unmapped hs1 hzero hcalloc hf hk hmm
    · next mm vm hmm =>
      cases h
      exact .mapped hs1 hzero hf hk hmm

theorem contigAllocPolicy_keeps {params : Params} {size : Nat} {c : AllocCalls} {r : Option Req}
    (hinit : ContigAlloc.contigInit p o = .ok s0) (hs : LibOk s0 s)
    (h : contigAllocPolicy s params size c = .ok (t, r)) : LibOk s0 t := by
  have hs1 : LibOk s0 (contigInit s c.init).1 :=
    hs.same (contigInit_tracked hinit hs.tracked c.init) (contigInit_vm s c.init)
      (contigInit_handles s c.init)
  cases contigAllocPolicy_exit h with
  | early => exact hs1
  | refused heq hf hk =>
    rw [heq] at hs1
    exact hs1.same (hs1.tracked.alloc (small_init hinit) hf hk) rfl rfl
  | unmapped heq hzero hcalloc hf hk hmm =>
    rw [heq] at hs1
    exact hs1.same (hs1.tracked.alloc (small_init hinit) hf hk) rfl rfl
  | mapped heq hzero hf hk hmm =>
    rw [heq] at hs1
    exact hs1.alloc hinit hf hzero hk hmm

/-- The first part of the invariant does not depend on what is freed. -/
theorem contigAllocPolicy_tracked {params : Params} {size : Nat} {c : AllocCalls} {r : Option Req}
    (hinit : ContigAlloc.contigInit p o = .ok s0) (hs : Tracked s0 s)
    (h : contigAllocPolicy s params size c = .ok (t, r)) : Tracked s0 t := by
  have hs1 := contigInit_tracked hinit hs c.init
  cases contigAllocPolicy_exit h with
  | early => exact hs1
  | refused heq hf hk =>
    rw [heq] at hs1
    exact hs1.alloc (small_init hinit) hf hk
  | unmapped heq hzero hcalloc hf hk hmm =>
    rw [heq] at hs1
    exact hs1.alloc (small_init hinit) hf hk
  | mapped heq hzero hf hk hmm =>
    rw [heq] at hs1
    exact (hs1.mapped hinit hf hzero hk hmm).1

section Free
variable {h : Req} {c : FreeCalls}

theorem Tracked.khandle_ne (hs : Tracked s0 s) (hh : h ∈ s.handles) :
    ∀ q ∈ s.handles.erase h, q.khandle ≠ h.khandle := by
  intro q hq he
  have hperm := (List.perm_cons_erase hh).map Req.khandle
  have hnd := hperm.nodup_iff.mp hs.distinct
  exact (List.nodup_cons.mp hnd).1 (List.mem_map.mpr ⟨q, hq, he⟩)

theorem Tracked.free {f : FileId} {del : Option Addr} (h0 : Small s0) (hs : Tracked s0 s)
    (hh : h ∈ s.handles) (hdel : del = none ∨ del = some h.khandle)
    (hk : contigFreeIoctl s.kernel f del = .ok (k, .ok ())) (vm : Nat → Option Nat) :
    Tracked s0 { s with kernel := k, vm := vm, handles := s.handles.erase h } := by
  obtain ⟨a, l, u, ha, hl, hmem, hu, rfl⟩ := contigFreeIoctl_ok hk
  have hfk := hs.files.move (contigFreeIoctl_move h0 hs.files hk)
  obtain rfl : a = h.khandle := by
    cases hdel with
    | inl hnone =>
      rw [hnone] at ha
      cases ha
    | inr hsome =>
      rw [hsome] at ha
      exact (Option.some.inj ha).symm
  have hother := hs.khandle_ne hh
  have hsub : ∀ q ∈ s.handles.erase h, q ∈ s.handles := fun q hq => List.mem_of_mem_erase hq
  refine ⟨hfk, hs.size, ?_, ?_, ?_, ?_, ?_, ?_⟩
  · intro _
    exact hs.equal (List.ne_nil_of_mem hh)
  · intro q hq
    exact hs.table q (hsub q hq)
  · intro g hg
    change Function.update s.kernel.files f (some (l.erase h.khandle)) g ≠ none
    by_cases hgf : g = f
    · simp [hgf]
    · rw [Function.update_of_ne hgf]
      exact hs.opened g hg
  · intro q hq
    change ∃ desc, u.heap q.khandle = some desc ∧ desc.arr = q.arr
    rw [contigFree_heap h0 hs.files.books hu, Function.update_of_ne (hother q hq)]
    exact hs.live q (hsub q hq)
  · intro q hq
    obtain ⟨g, hg, hgmem⟩ := hs.mine q (hsub q hq)
    refine ⟨g, hg, ?_⟩
    change q.khandle ∈ descsOf ⟨u, Function.update s.kernel.files f (some (l.erase h.khandle))⟩ g
    by_cases hgf : g = f
    · subst hgf
      rw [descsOf_open hl] at hgmem
      rw [descsOf_update, if_pos rfl]
      exact (List.mem_erase_of_ne (hother q hq)).mpr hgmem
    · rwa [descsOf_update_of_ne hgf]
  · exact hs.distinct.sublist (List.erase_sublist.map Req.khandle)

theorem contigFree_some (hinit : ContigAlloc.contigInit p o = .ok s0) (hs : Tracked s0 s)
    (hh : h ∈ s.handles) (hc : contigFree s h c = .ok t) :
    Tracked s0 t ∧ t.handles = s.handles.erase h ∧
      t.vm = unmap s.vm h.mm (if c.munmapOk then s0.chunkSize / pageSize else 0) := by
  have hs1 := contigInit_tracked hinit hs c.init
  have hvm := contigInit_vm s c.init
  have hhs := contigInit_handles s c.init
  rw [contigFree] at hc
  generalize contigInit s c.init = q at hc hs1 hvm hhs
  obtain ⟨s1, ok⟩ := q
  dsimp only at hc hs1 hvm hhs
  rw [← hhs] at hh
  split at hc
  · cases hc
  cases hf : s1.fds.lookup s1.fd with
  | none => simp [hf] at hc
  | some f =>
    simp only [hf] at hc
    split at hc
    · cases hc
    · cases hc
    · next k hk =>
      have hdel : (if c.getUser then some h.khandle else none) = none ∨
          (if c.getUser then some h.khandle else none) = some h.khandle := by
        cases c.getUser <;> simp
      have hsize : s1.chunkSize = s0.chunkSize := hs1.equal (List.ne_nil_of_mem hh)
      have hval := Except.ok.inj hc
      rw [← hval]
      refine ⟨hs1.free (small_init hinit) hh hdel hk _, by rw [hhs], ?_⟩
      change (if c.munmapOk then unmap s1.vm h.mm (s1.chunkSize / pageSize) else s1.vm) = _
      rw [hvm, hsize]
      cases c.munmapOk with
      | true => rfl
      | false => exact (unmap_zero s.vm h.mm).symm

/-- A free that gives back all that was mapped: one chunk, and munmap succeeds. -/
def FreesAll (_ : Proc) : Call → Prop
  | .free h c => h.n = 1 ∧ c.munmapOk = true
  | _ => True

theorem regions_perm (hs : Tracked s0 s) (hh : h ∈ s.handles) :
    s.regions.Perm (h.region (s0.chunkSize / pageSize) ::
      (s.handles.erase h).map (Req.region (s0.chunkSize / pageSize))) := by
  rw [hs.regions]
  exact (List.perm_cons_erase hh).map _

theorem LibOk.free (hinit : ContigAlloc.contigInit p o = .ok s0) (hs : LibOk s0 s)
    (hh : h ∈ s.handles) (hall : FreesAll s (.free h c)) (hc : contigFree s h c = .ok t) :
    LibOk s0 t := by
  obtain ⟨ht, hhs, hvm⟩ := contigFree_some hinit hs.tracked hh hc
  have hperm := regions_perm hs.tracked hh
  have hregions : t.regions = (s.handles.erase h).map (Req.region (s0.chunkSize / pageSize)) := by
    rw [ht.regions, hhs]
  have hsize : (h.region (s0.chunkSize / pageSize)).size = s0.chunkSize / pageSize := by
    rw [Req.region, hall.1, Nat.mul_one]
  refine ⟨ht, ?_, ?_⟩
  · rw [hregions]
    exact (List.pairwise_cons.mp (hs.apart.perm hperm)).2
  · have hcov := (hs.mapped.perm hperm).unmap (hs.apart.perm hperm)
    rw [hsize] at hcov
    rw [Proc.MappedExactly, hregions, hvm, if_pos hall.2]
    exact hcov

/-- Any other free leaves a page of the buffer mapped. -/
theorem LibOk.free_stale (hinit : ContigAlloc.contigInit p o = .ok s0) (hs : LibOk s0 s)
    (hh : h ∈ s.handles) (hall : ¬ FreesAll s (.free h c)) (hc : contigFree s h c = .ok t) :
    ¬ t.MappedExactly := by
  obtain ⟨ht, hhs, hvm⟩ := contigFree_some hinit hs.tracked hh hc
  have hperm := regions_perm hs.tracked hh
  have hpages := (chunkSize_pos hinit).1
  have hn := (hs.tracked.table h hh).1
  have hless : (if c.munmapOk then s0.chunkSize / pageSize else 0) <
      (h.region (s0.chunkSize / pageSize)).size := by
    change _ < s0.chunkSize / pageSize * h.n
    cases hm : c.munmapOk with
    | false => exact Nat.mul_pos hpages hn
    | true =>
      have htwo : 1 < h.n := by
        have hne : h.n ≠ 1 := fun he => hall ⟨he, hm⟩
        omega
      exact lt_mul_of_one_lt_right hpages htwo
  rw [Proc.MappedExactly, ht.regions, hhs, hvm]
  exact (hs.mapped.perm hperm).not_unmap (hs.apart.perm hperm) (Nat.le_refl _) hless

end Free

inductive LibMove (s t : Proc) : Call → Prop where
  | alloc {size : Nat} {c : AllocCalls} {r : Option Req}
    (h : contigAllocPolicy s (.preferred 0) size c = .ok (t, r)) : LibMove s t (.alloc size c)
  | allocPolicy {params : Params} {size : Nat} {c : AllocCalls} {r : Option Req}
    (h : contigAllocPolicy s params size c = .ok (t, r)) :
    LibMove s t (.allocPolicy params size c)
  | free {h : Req} {c : FreeCalls} (hh : h ∈ s.handles) (hc : contigFree s h c = .ok t) :
    LibMove s t (.free h c)
  | other {call : FileCall} {k : Sys} (hnot : fileOf call ∉ s.fds.map Prod.snd)
    (hk : fileStep s.kernel call = some k) (ht : t = { s with kernel := k }) :
    LibMove s t (.other call)

theorem step_move {call : Call} (h : step s call = some t) : LibMove s t call := by
  have hpolicy (params : Params) (size : Nat) (c : AllocCalls)
      (h : (contigAllocPolicy s params size c).toOption.map Prod.fst = some t) :
      ∃ r, contigAllocPolicy s params size c = .ok (t, r) := by
    cases hc : contigAllocPolicy s params size c with
    | error e => simp [hc, Except.toOption] at h
    | ok q =>
      have heq : q.1 = t := by simpa [hc, Except.toOption] using h
      exact ⟨q.2, by rw [← heq]⟩
  cases call with
  | alloc size c =>
    obtain ⟨r, hr⟩ := hpolicy (.preferred 0) size c h
    exact .alloc hr
  | allocPolicy params size c =>
    obtain ⟨r, hr⟩ := hpolicy params size c h
    exact .allocPolicy hr
  | free q c =>
    simp only [step] at h
    split at h
    · next hh =>
      cases hc : contigFree s q c with
      | error e => simp [hc, Except.toOption] at h
      | ok u =>
        have heq : u = t := by simpa [hc, Except.toOption] using h
        exact .free hh (heq ▸ hc)
    · cases h
  | other call =>
    simp only [step] at h
    split at h
    · cases h
    · next hnot =>
      obtain ⟨k, hk, heq⟩ := Option.map_eq_some_iff.mp h
      exact .other hnot hk heq.symm

theorem Tracked.other {call : FileCall} (h0 : Small s0) (hs : Tracked s0 s)
    (hnot : fileOf call ∉ s.fds.map Prod.snd) (hk : fileStep s.kernel call = some k) :
    Tracked s0 { s with kernel := k } := by
  have hmove := fileStep_move h0 hs.files hk
  have hmine : ∀ g ∈ s.fds.map Prod.snd, g ≠ fileOf call := fun g hg he => hnot (he ▸ hg)
  refine ⟨hs.files.move hmove, hs.size, hs.equal, hs.table, ?_, ?_, ?_, hs.distinct⟩
  · intro g hg
    change k.files g ≠ none
    rw [hmove.files_other (hmine g hg)]
    exact hs.opened g hg
  · intro q hq
    obtain ⟨g, hg, hmem⟩ := hs.mine q hq
    change ∃ desc, k.alloc.heap q.khandle = some desc ∧ desc.arr = q.arr
    rw [(hmove.other hs.files (hmine g hg) hmem).1]
    exact hs.live q hq
  · intro q hq
    obtain ⟨g, hg, hmem⟩ := hs.mine q hq
    exact ⟨g, hg, (hmove.other hs.files (hmine g hg) hmem).2⟩

theorem step_keeps (hinit : ContigAlloc.contigInit p o = .ok s0) (hs : LibOk s0 s) {call : Call}
    (hall : FreesAll s call) (h : step s call = some t) : LibOk s0 t := by
  cases step_move h with
  | alloc hc => exact contigAllocPolicy_keeps hinit hs hc
  | allocPolicy hc => exact contigAllocPolicy_keeps hinit hs hc
  | free hh hc => exact hs.free hinit hh hall hc
  | other hnot hk heq =>
    rw [heq]
    exact hs.same (hs.tracked.other (small_init hinit) hnot hk) rfl rfl

theorem step_tracked (hinit : ContigAlloc.contigInit p o = .ok s0) (hs : Tracked s0 s) {call : Call}
    (h : step s call = some t) : Tracked s0 t := by
  cases step_move h with
  | alloc hc => exact contigAllocPolicy_tracked hinit hs hc
  | allocPolicy hc => exact contigAllocPolicy_tracked hinit hs hc
  | free hh hc => exact (contigFree_some hinit hs hh hc).1
  | other hnot hk heq =>
    rw [heq]
    exact hs.other (small_init hinit) hnot hk

theorem step_breaks (hinit : ContigAlloc.contigInit p o = .ok s0) (hs : LibOk s0 s) {call : Call}
    (hall : ¬ FreesAll s call) (h : step s call = some t) : ¬ t.MappedExactly := by
  cases step_move h with
  | free hh hc => exact hs.free_stale hinit hh hall hc
  | _ => exact absurd trivial hall

theorem tracked_start (hinit : ContigAlloc.contigInit p o = .ok s0) :
    Tracked s0 (Proc.start s0) := by
  refine ⟨filesOk_init hinit, Or.inl rfl, ?_, ?_, ?_, ?_, ?_, List.nodup_nil⟩
  · intro hne
    exact absurd rfl hne
  · intro h hh
    cases hh
  · intro f hf
    cases hf
  · intro h hh
    cases hh
  · intro h hh
    cases hh

theorem libOk_start (hinit : ContigAlloc.contigInit p o = .ok s0) : LibOk s0 (Proc.start s0) :=
  ⟨tracked_start hinit, List.Pairwise.nil, covers_nil⟩

theorem tracked_run (hinit : ContigAlloc.contigInit p o = .ok s0) {calls : List Call}
    (hr : run step (Proc.start s0) calls = some s) : Tracked s0 s :=
  run_invariant (fun _ _ _ hs h => step_tracked hinit hs h) (tracked_start hinit) hr

def Proc.Unreachable (s : Proc) (x : Nat) : Prop :=
  ∀ v pfn, s.vm v = some pfn → ¬ (x / pageSize ≤ pfn ∧ pfn < x / pageSize + s.chunkPages)

theorem frames_apart {x y pages : Nat} (h : y + pages * pageSize ≤ x) :
    y / pageSize + pages ≤ x / pageSize := by
  have hdiv := Nat.div_le_div_right h (c := pageSize)
  rwa [Nat.add_mul_div_right _ _ (by decide)] at hdiv

theorem frame_inj {k : Sys} {a b : Addr} {desc desc' : Desc} {i j x y r r' : Nat}
    (hinit : ContigAlloc.contigInit p o = .ok s0) (hap : RegionsApart s0) (hk : FilesOk s0 k)
    (ha : k.alloc.heap a = some desc) (hb : k.alloc.heap b = some desc')
    (hx : desc.arr[i]? = some x) (hy : desc'.arr[j]? = some y)
    (hr : r < s0.chunkSize / pageSize) (hr' : r' < s0.chunkSize / pageSize)
    (he : x / pageSize + r = y / pageSize + r') : (a, i) = (b, j) ∧ r = r' := by
  obtain ⟨hpages, hdvd, -⟩ := chunkSize_pos hinit
  have hsize := hk.books.chunkSize
  have hpos : 0 < s0.chunkSize := Nat.pos_of_div_pos hpages
  obtain ⟨rfl, -⟩ := contigInit_ok hinit
  by_cases hsame : (a, i) = (b, j)
  · obtain ⟨rfl, rfl⟩ := Prod.mk.inj hsame
    rw [hb] at ha
    obtain rfl := Option.some.inj ha
    rw [hy] at hx
    obtain rfl := Option.some.inj hx
    exact ⟨rfl, Nat.add_left_cancel he⟩
  · exfalso
    have hapart := pages_apart hk.books hpos hap ha hb hx hy hsame
    rw [hsize, ← hdvd] at hapart
    cases hapart with
    | inl hle =>
      have := frames_apart hle
      omega
    | inr hle =>
      have := frames_apart hle
      omega

theorem Tracked.frame {q : Req} {k : Nat} (hinit : ContigAlloc.contigInit p o = .ok s0)
    (hs : Tracked s0 s) (hq : q ∈ s.handles) (hk : k < s0.chunkSize / pageSize * q.n) :
    ∃ desc y, s.kernel.alloc.heap q.khandle = some desc ∧
      desc.arr[k / (s0.chunkSize / pageSize)]? = some y ∧
      (q.region (s0.chunkSize / pageSize)).image k = y / pageSize + k % (s0.chunkSize / pageSize) := by
  obtain ⟨desc, hdesc, harr⟩ := hs.live q hq
  have hlt : k / (s0.chunkSize / pageSize) < q.arr.length := by
    rw [(hs.table q hq).2]
    refine (Nat.div_lt_iff_lt_mul (chunkSize_pos hinit).1).mpr ?_
    rwa [Nat.mul_comm]
  refine ⟨desc, q.arr[k / (s0.chunkSize / pageSize)], hdesc, ?_, ?_⟩
  · rw [harr, List.getElem?_eq_getElem hlt]
  · simp only [Req.region, List.getD_eq_getElem?_getD, List.getElem?_eq_getElem hlt, Option.getD_some]

theorem free_unreachable {h : Req} {c : FreeCalls} (hinit : ContigAlloc.contigInit p o = .ok s0)
    (hr : RegionsApart s0) (hs : LibOk s0 s) (hh : h ∈ s.handles)
    (hall : FreesAll s (.free h c)) (hc : contigFree s h c = .ok t) :
    ∀ x ∈ h.arr, t.Unreachable x := by
  intro x hx v pfn hv hin
  obtain ⟨ht, hhs, -⟩ := contigFree_some hinit hs.tracked hh hc
  rw [ht.chunkPages] at hin
  obtain ⟨r, hrmem, hlook⟩ := ((hs.free hinit hh hall hc).mapped v pfn).mp hv
  rw [ht.regions, hhs] at hrmem
  obtain ⟨q, hq, rfl⟩ := List.mem_map.mp hrmem
  have hqs : q ∈ s.handles := List.mem_of_mem_erase hq
  have hinside : q.mm ≤ v ∧ v < q.mm + s0.chunkSize / pageSize * q.n := by
    by_contra hout
    rw [Region.lookup_outside hout] at hlook
    cases hlook
  rw [Region.lookup_inside hinside] at hlook
  obtain ⟨e, y, he, hy, himage⟩ := @Tracked.frame p o s0 s q (v - q.mm) hinit hs.tracked hqs (by omega)
  have hpfn := himage.symm.trans (Option.some.inj hlook)
  obtain ⟨d, hd, hdarr⟩ := hs.tracked.live h hh
  obtain ⟨i, hi⟩ := List.mem_iff_getElem?.mp hx
  rw [← hdarr] at hi
  have hoff := Nat.mod_lt (v - q.mm) (chunkSize_pos hinit).1
  have hsame := @frame_inj p o s0 s.kernel h.khandle q.khandle d e i _ x y (pfn - x / pageSize) _
    hinit hr hs.tracked.files hd he hi hy (by omega) hoff (by omega)
  exact hs.tracked.khandle_ne hh q hq (Prod.mk.inj hsame.1).1.symm

/-- Over every run of library calls the mappings are those of the live handles exactly
when each contig_free frees a buffer of one chunk. Such a free leaves no way to the
memory it gave back. -/
theorem mappings_follow_handles (hinit : ContigAlloc.contigInit p o = .ok s0) {calls : List Call}
    (hr : run step (Proc.start s0) calls = some s) :
    (Always step Proc.MappedExactly (Proc.start s0) calls ↔
      Along step FreesAll (Proc.start s0) calls) ∧
    (RegionsApart s0 → Along step FreesAll (Proc.start s0) calls →
      ∀ h c t, FreesAll s (.free h c) → step s (.free h c) = some t →
        ∀ x ∈ h.arr, t.Unreachable x) := by
  refine ⟨?_, ?_⟩
  · exact always_iff_along (fun _ _ _ hs hall h => step_keeps hinit hs hall h)
      (fun _ _ _ hs hall h => step_breaks hinit hs hall h) (fun _ hs => hs.mapped)
      (libOk_start hinit) hr
  · intro hap hall h c t hfree hstep
    have hs : LibOk s0 s := run_induct FreesAll
      (fun _ _ _ hs hall h => step_keeps hinit hs hall h) (libOk_start hinit) hall hr
    cases step_move hstep with
    | free hh hc => exact free_unreachable hinit hap hs hh hfree hc

end Steps

section Instance

/-- open answers with descriptor 3 and file 0 while these are free. -/
def openThree : Opener where
  pick fds files := if fds.lookup 3 = none ∧ files 0 = none then some (3, 0) else none
  fresh := by
    intro fds files n f h
    split at h
    · obtain ⟨rfl, rfl⟩ := Prod.mk.inj (Option.some.inj h)
      assumption
    · cases h

/-- mmap answers with page 256 while the space it needs is free. -/
def mapAt256 : Mmap where
  pick vm n :=
    if 256 + n < 2 ^ 51 ∧ (List.range n).all (fun k => (vm (256 + k)).isNone) then some 256 else none
  fresh := by
    intro vm n base h
    split at h
    · next hfree =>
      obtain rfl := Option.some.inj h
      refine ⟨hfree.1, ?_⟩
      intro v hle hlt
      have hall := List.all_eq_true.mp hfree.2 (v - 256) (List.mem_range.mpr (by omega))
      rw [Nat.add_sub_cancel' hle] at hall
      exact Option.isNone_iff_eq_none.mp hall
    · cases h
  remapOk := true

def allocOk : AllocCalls :=
  ⟨⟨openThree, true⟩, true, true, true, blockAt 64, ⟨true, true⟩, mapAt256⟩

def freeOk : FreeCalls := ⟨⟨openThree, true⟩, true, true⟩

/-- The handle of a buffer whose chunks are the first `n` of node 0. -/
def firstHandle (n : Nat) : Req :=
  ⟨256, 64, n, firstNode, (List.range n).map fun i => 2 ^ 20 + 4096 * i⟩

theorem mappings_follow_handles_one : ∃ s,
    run step (Proc.start (initState smallInsmod)) [.alloc 4096 allocOk, .free (firstHandle 1) freeOk] =
      some s ∧ s.MappedExactly := by
  have h : ∃ s, run step (Proc.start (initState smallInsmod))
      [.alloc 4096 allocOk, .free (firstHandle 1) freeOk] = some s := ⟨_, rfl⟩
  obtain ⟨s, hr⟩ := h
  have hall : Along step FreesAll (Proc.start (initState smallInsmod))
      [.alloc 4096 allocOk, .free (firstHandle 1) freeOk] :=
    ⟨trivial, fun _ _ => ⟨⟨rfl, rfl⟩, fun _ _ => trivial⟩⟩
  have halways := (mappings_follow_handles contigInit_small hr).1.mpr hall
  exact ⟨s, hr, halways _ [] (by simp) s hr⟩

/-- The second page of a buffer of two chunks stays mapped when the buffer is freed,
while its chunk is back on the inactive list. -/
theorem second_chunk_stays_mapped : ∃ s,
    run step (Proc.start (initState smallInsmod)) [.alloc 8192 allocOk, .free (firstHandle 2) freeOk] =
      some s ∧ s.handles = [] ∧ s.vm 257 = some 257 ∧
      ⟨2 ^ 20 + 4096, 0, 1⟩ ∈ s.kernel.alloc.inactiveChunks 0 ∧ ¬ s.MappedExactly := by
  have h : ∃ s, run step (Proc.start (initState smallInsmod))
      [.alloc 8192 allocOk, .free (firstHandle 2) freeOk] = some s ∧ s.handles = [] ∧
      s.vm 257 = some 257 ∧ s.kernel.alloc.inactiveChunks 0 = (initState smallInsmod).inactiveChunks 0 :=
    ⟨_, rfl, rfl, rfl, rfl⟩
  obtain ⟨s, hr, hempty, hpage, hlist⟩ := h
  refine ⟨s, hr, hempty, hpage, by rw [hlist]; decide, ?_⟩
  intro hexact
  obtain ⟨r, hrmem, -⟩ := (hexact 257 257).mp hpage
  rw [Proc.regions, hempty] at hrmem
  cases hrmem

end Instance

end EspDrivers.LibContig
