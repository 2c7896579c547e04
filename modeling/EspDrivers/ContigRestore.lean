import EspDrivers.ContigConservation
import EspDrivers.ContigIoctl

/-! An allocation that is freed at once leaves no trace, so a CONTIG_IOC_ALLOC that
fails changes nothing: not the order of the inactive lists, not the file's list. -/
namespace EspDrivers.ContigAlloc
open KeyedStack Trace

variable {s0 s t u : State} {a : Addr}

theorem unpublish_publish {cs : List Chunk} {desc : Desc} (ht : Taken s cs t)
    (hf : desc.Filled cs) (ha : s.heap a = none) : unpublish (publish t a desc) a desc = s := by
  have hlists : desc.allocList.foldl (push Chunk.ddrNode) t.inactiveChunks = s.inactiveChunks := by
    rw [hf.2.2]
    exact ht.pops.restore
  have hcount (d : Node) : t.memAllocated d - t.chunkSize * onNode d desc.allocList =
      s.memAllocated d := by
    rw [hf.2.2, onNode_reverse, ht.charged, ht.chunkSize]
    omega
  have hheap : Function.update (Function.update t.heap a (some desc)) a none = s.heap := by
    rw [Function.update_idem, ht.heap, ← ha, Function.update_eq_self]
  rw [ht.frame] at hlists hcount hheap ⊢
  ext1
  · rfl
  · rfl
  · rfl
  · rfl
  · exact hlists
  · exact funext hcount
  · simp [unpublish, publish]
  · exact hheap

theorem free_of_alloc {params : Params} {size : Nat} {m : Kmalloc} (h0 : Small s0)
    (hs : Consistent s0 s) (h : contigAlloc s params size m = .ok (t, .ok a))
    (hf : contigFree t a = .ok u) : u = s := by
  obtain ⟨cs, v, desc, -, hv, hd, ha, -, rfl⟩ := contigAlloc_ok (hs.nodeOk h0) h
  obtain ⟨desc', hdesc', rfl⟩ := (consistent_publish hs hv hd ha).free_ok h0 hf
  obtain rfl : desc = desc' := by simpa [publish] using hdesc'
  exact unpublish_publish hv hd ha

theorem freeAndFail_error {sys sys' : Sys} {e e' : Errno} {params : Params} {size : Nat}
    {m : Kmalloc} (h0 : Small s0) (hs : Consistent s0 sys.alloc)
    (h : contigAlloc sys.alloc params size m = .ok (t, .ok a))
    (hf : freeAndFail sys t a e = .ok (sys', .error e')) : sys' = sys := by
  obtain ⟨u, hu, hf⟩ := bind_ok.mp hf
  obtain rfl := free_of_alloc h0 hs h hu
  simpa [eq_comm] using (And.left (by simpa using hf) : sys = sys')

theorem replyAlloc_error {sys sys' : Sys} {f : FileId} {req : AllocReq} {c : UserCopies}
    {e : Errno} {params : Params} {size : Nat} {m : Kmalloc} (h0 : Small s0)
    (hs : Consistent s0 sys.alloc) (ha : contigAlloc sys.alloc params size m = .ok (t, .ok a))
    (h : replyAlloc sys f req c t a = .ok (sys', .error e)) : sys' = sys := by
  rw [replyAlloc] at h
  split at h
  · simp at h
  split at h
  · exact freeAndFail_error h0 hs ha h
  split at h
  · exact freeAndFail_error h0 hs ha h
  split at h
  · exact freeAndFail_error h0 hs ha h
  · simp at h

theorem contigAllocIoctl_error {sys sys' : Sys} {f : FileId} {req : Option AllocReq}
    {m : Kmalloc} {c : UserCopies} {e : Errno} (h0 : Small s0) (hs : Consistent s0 sys.alloc)
    (h : contigAllocIoctl sys f req m c = .ok (sys', .error e)) : sys' = sys := by
  cases req with
  | none => exact (And.left (by simpa [contigAllocIoctl] using h) : sys = sys').symm
  | some req =>
    simp only [contigAllocIoctl] at h
    split at h
    · exact (And.left (by simpa using h) : sys = sys').symm
    split at h
    · exact (And.left (by simpa using h) : sys = sys').symm
    obtain ⟨⟨t, r⟩, ha, h⟩ := bind_ok.mp h
    cases r with
    | error e' =>
      have ht := contigAlloc_error ha
      subst ht
      exact (And.left (by simpa using h) : sys = sys').symm
    | ok a => exact replyAlloc_error h0 hs ha h

/-- Allocate-then-free is the identity in every reachable state, and a failed
CONTIG_IOC_ALLOC leaves the allocator and the file's list as they were. -/
theorem alloc_then_free {p : Insmod} {o : InitCalls} {ops : List Op}
    (h : contigInit p o = .ok s0) (hr : run step s0 ops = some s) :
    (∀ params size m t a u, contigAlloc s params size m = .ok (t, .ok a) →
      contigFree t a = .ok u → u = s) ∧
    ∀ files f req m c sys e, contigAllocIoctl ⟨s, files⟩ f req m c = .ok (sys, .error e) →
      sys = ⟨s, files⟩ := by
  have hs := consistent_run h hr
  refine ⟨?_, ?_⟩
  · intro params size m t a u ha hu
    exact free_of_alloc (small_init h) hs ha hu
  · intro files f req m c sys e he
    exact contigAllocIoctl_error (small_init h) hs he

theorem alloc_then_free_two_chunks : ∃ t u,
    contigAlloc (initState smallInsmod) (.preferred 0) 8192 (blockAt 64) = .ok (t, .ok 64) ∧
      contigFree t 64 = .ok u ∧ u = initState smallInsmod := by
  have h : ∃ t u, contigAlloc (initState smallInsmod) (.preferred 0) 8192 (blockAt 64) =
      .ok (t, .ok 64) ∧ contigFree t 64 = .ok u := ⟨_, _, rfl, rfl⟩
  obtain ⟨t, u, ht, hu⟩ := h
  have hid := (@alloc_then_free _ _ _ _ [] contigInit_small rfl).1
  exact ⟨t, u, ht, hu, hid _ _ _ _ _ _ ht hu⟩

end EspDrivers.ContigAlloc
