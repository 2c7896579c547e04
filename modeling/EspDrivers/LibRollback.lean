import EspDrivers.LibMappings

/-! What a failed contig_alloc of the library leaves behind. Up to the ioctl it holds memory
of the process only; a failing mmap comes after it, and no exit frees the kernel's buffer. -/
namespace EspDrivers.LibContig
open ContigAlloc Mapping Trace

variable {p : Insmod} {o : InitCalls} {s0 : State} {s t : Proc} {params : Params} {size : Nat}
  {c : AllocCalls}

structure Untouched (s t : Proc) : Prop where
  alloc : t.kernel.alloc = s.kernel.alloc
  descs : ∀ f, descsOf t.kernel f = descsOf s.kernel f
  vm : t.vm = s.vm

/-- Everything succeeds up to and with CONTIG_IOC_ALLOC, and then mmap fails. -/
def MapFails (s : Proc) (params : Params) (size : Nat) (c : AllocCalls) : Prop :=
  ∃ s1 f k r, contigInit s c.init = (s1, true) ∧ s1.chunkSize ≠ 0 ∧ c.callocReq = true ∧
    c.callocArr = true ∧ s1.fds.lookup s1.fd = some f ∧
    contigAllocIoctl s1.kernel f (s1.allocReq params size c.copyIn) c.kmalloc c.copies =
      .ok (k, .ok r) ∧
    mmap k f s1.vm (ulong (r.n * s1.chunkSize)) (r.arr.headD 0) c.mmap = .ok none

theorem contigInit_untouched (s : Proc) (c : InitOutcome) : Untouched s (contigInit s c).1 := by
  have hvm := contigInit_vm s c
  rw [contigInit] at hvm ⊢
  split
  · exact ⟨rfl, fun _ => rfl, rfl⟩
  · split
    · exact ⟨rfl, fun _ => rfl, rfl⟩
    · next localFd f hpick =>
      have hnone := (c.opener.fresh _ _ _ _ hpick).2
      have hdescs (g : FileId) : descsOf (contigOpen s.kernel f true).1 g = descsOf s.kernel g := by
        by_cases hg : g = f
        · simp [descsOf, contigOpen, hg, hnone]
        · simp [descsOf, contigOpen, Function.update_of_ne hg]
      dsimp only
      split
      · exact ⟨rfl, hdescs, rfl⟩
      · exact ⟨rfl, hdescs, rfl⟩

theorem Untouched.kernel {s1 : Proc} {k : Sys} (h : Untouched s s1) (hk : k = s1.kernel) :
    Untouched s { s1 with kernel := k } := by
  refine ⟨?_, ?_, h.vm⟩
  · rw [hk]
    exact h.alloc
  · rw [hk]
    exact h.descs

theorem not_untouched {s1 : Proc} {f : FileId} {req : Option AllocReq} {m : Kmalloc}
    {copies : UserCopies} {k : Sys} {r : AllocReply} (h0 : Small s0) (hs : Tracked s0 s1)
    (hsame : Untouched s s1) (hf : s1.fds.lookup s1.fd = some f)
    (hk : contigAllocIoctl s1.kernel f req m copies = .ok (k, .ok r)) :
    ¬ Untouched s { s1 with kernel := k } := by
  intro h
  obtain ⟨l, hl⟩ := Option.ne_none_iff_exists'.mp (hs.opened f (lookup_mem hf))
  obtain ⟨desc, hnone, hheap, -⟩ := contigAllocIoctl_adds h0 hs.files hl hk
  have hsome : k.alloc.heap r.khandle = some desc := (hheap r.khandle).trans (if_pos rfl)
  have halloc : k.alloc = s.kernel.alloc := h.alloc
  rw [halloc, ← hsame.alloc, hnone] at hsome
  cases hsome

/-- contig_alloc_policy that returns NULL has changed nothing, exactly when it is not for an
mmap that fails after the ioctl. -/
theorem contigAllocPolicy_null (hinit : ContigAlloc.contigInit p o = .ok s0) (hs : Tracked s0 s) :
    (∀ t, contigAllocPolicy s params size c = .ok (t, none) → Untouched s t) ↔
      ¬ MapFails s params size c := by
  have h0 := small_init hinit
  have hs1 := contigInit_tracked hinit hs c.init
  have hsame := contigInit_untouched s c.init
  constructor
  · intro hall hfail
    obtain ⟨s1, f, k, r, heq, hzero, hreq, harr, hf, hk, hmm⟩ := hfail
    rw [heq] at hs1 hsame
    have hnew := not_untouched h0 hs1 hsame hf hk
    rw [Proc.allocReq] at hk
    refine hnew (hall _ ?_)
    rw [contigAllocPolicy]
    simp only [heq, hreq, hzero, harr, hf, hk, hmm, Bool.not_true, Bool.false_eq_true, if_false]
  · intro hfail t h
    generalize hr : (none : Option Req) = r at h
    cases contigAllocPolicy_exit h with
    | early => exact hsame
    | refused heq hf hk =>
      rw [heq] at hs1 hsame
      exact hsame.kernel (contigAllocIoctl_error h0 hs1.files.books hk)
    | unmapped heq hzero hcalloc hf hk hmm =>
      exact absurd ⟨_, _, _, _, heq, hzero, hcalloc.1, hcalloc.2, hf, hk, hmm⟩ hfail
    | mapped => cases hr

/-- In every reachable state a contig_alloc or contig_alloc_policy that returns NULL holds
nothing, exactly when it is not for an mmap that fails after the ioctl. -/
theorem failed_alloc_holds_nothing (hinit : ContigAlloc.contigInit p o = .ok s0)
    {calls : List Call} (hr : run step (Proc.start s0) calls = some s) (params : Params)
    (size : Nat) (c : AllocCalls) :
    ((∀ t, contigAllocPolicy s params size c = .ok (t, none) → Untouched s t) ↔
      ¬ MapFails s params size c) ∧
    ((∀ t, contigAlloc s size c = .ok (t, none) → Untouched s t) ↔
      ¬ MapFails s (.preferred 0) size c) := by
  have hs := tracked_run hinit hr
  exact ⟨contigAllocPolicy_null hinit hs, contigAllocPolicy_null hinit hs⟩

section Instance

def noPlace : Mmap := ⟨fun _ _ => none, by simp, true⟩

theorem failed_alloc_holds_nothing_large : ∃ s t,
    run step (Proc.start (initState smallInsmod)) [.alloc 4096 allocOk] = some s ∧
      contigAlloc s (2 ^ 20) { allocOk with kmalloc := blockAt 128 } = .ok (t, none) ∧
      Untouched s t := by
  have h : ∃ s t, run step (Proc.start (initState smallInsmod)) [.alloc 4096 allocOk] = some s ∧
      contigAlloc s (2 ^ 20) { allocOk with kmalloc := blockAt 128 } = .ok (t, none) ∧
      ∀ s1 f k r, contigInit s allocOk.init = (s1, true) → s1.fds.lookup s1.fd = some f →
        contigAllocIoctl s1.kernel f (s1.allocReq (.preferred 0) (2 ^ 20) true) (blockAt 128)
          ⟨true, true⟩ ≠ .ok (k, .ok r) := by
    refine ⟨_, _, rfl, rfl, ?_⟩
    intro s1 f k r hs1 hf hk
    cases hs1
    cases hf
    cases hk
  obtain ⟨s, t, hr, hnull, hioctl⟩ := h
  have hall := (failed_alloc_holds_nothing contigInit_small hr (.preferred 0) (2 ^ 20)
    { allocOk with kmalloc := blockAt 128 }).2
  refine ⟨s, t, hr, hnull, hall.mpr ?_ t hnull⟩
  intro hfail
  obtain ⟨s1, f, k, r, hs1, -, -, -, hf, hk, -⟩ := hfail
  exact hioctl s1 f k r hs1 hf hk

/-- The mmap of the first buffer fails: the descriptor stays on the file's list. -/
theorem failed_mmap_keeps_buffer : ∃ t,
    contigAlloc (Proc.start (initState smallInsmod)) 4096 { allocOk with mmap := noPlace } =
      .ok (t, none) ∧ t.handles = [] ∧ descsOf t.kernel 0 = [64] ∧
      t.kernel.alloc.memAllocated 0 = 4096 ∧
      ¬ Untouched (Proc.start (initState smallInsmod)) t := by
  refine ⟨_, rfl, rfl, rfl, rfl, ?_⟩
  intro h
  have hlist : [64] = descsOf (Proc.start (initState smallInsmod)).kernel 0 := h.descs 0
  cases hlist

end Instance

end EspDrivers.LibContig
