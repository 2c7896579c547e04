import EspDrivers.ContigFiles
import EspDrivers.ContigSafe

/-! When a free completes. The chunks that it gives back are added up in an `unsigned int`
and compared with an `unsigned long`, so a buffer of 4 GiB or more stops at the BUG_ON.
contig_exit frees what is left and then removes every chunk. -/
namespace EspDrivers.ContigAlloc
open KeyedStack Trace

variable {s0 s t : State} {a : Addr} {desc : Desc}

/-- What a free owes for the descriptor `desc`. -/
structure GivesBack (s : State) (a : Addr) (desc : Desc) (t : State) : Prop where
  all : desc.allocList.length = desc.n
  returned : ∀ i, t.inactiveChunks i =
    (desc.allocList.filter fun ch => ch.ddrNode = i).reverse ++ s.inactiveChunks i
  released : ∀ i, t.memAllocated i + s.chunkSize * onNode i desc.allocList = s.memAllocated i
  gone : t.heap a = none ∧ a ∉ t.descList

section Returned

theorem unpublish_givesBack (hs : Consistent s0 s) (ha : s.heap a = some desc) :
    GivesBack s a desc (unpublish s a desc) := by
  refine ⟨(hs.n_eq_length ha).symm, ?_, ?_, ?_⟩
  · intro i
    exact foldl_push_apply s.inactiveChunks desc.allocList i
  · intro i
    exact Nat.sub_add_cancel (hs.le_memAllocated ha i)
  · refine ⟨Function.update_self .., ?_⟩
    intro hmem
    exact (hs.nodup.mem_erase_iff.mp hmem).1 rfl

end Returned

section Exit

end Exit

section Reachable
variable {p : Insmod} {o : InitCalls} {ops : List Op}

/-- In every reachable state a live descriptor can be freed exactly when its buffer is
smaller than 4 GiB. -/
theorem contigFree_completes (h : contigInit p o = .ok s0) (hr : run step s0 ops = some s)
    (ha : s.heap a = some desc) :
    (∃ t, contigFree s a = .ok t ∧ GivesBack s a desc t) ↔ desc.n * s.chunkSize < 2 ^ 32 := by
  have hs := consistent_run h hr
  rw [contigFree_eq hs (small_init h) ha]
  by_cases hsmall : desc.n * s.chunkSize < 2 ^ 32
  · rw [if_pos hsmall]
    exact iff_of_true ⟨_, rfl, unpublish_givesBack hs ha⟩ hsmall
  · rw [if_neg hsmall]
    exact iff_of_false (by simp) hsmall

end Reachable

theorem contigFree_completes_small : ∃ s desc, run step (initState smallInsmod)
    [.alloc (.balanced 0 1) 12288 (blockAt 64)] = some s ∧ s.heap 64 = some desc ∧
      ∃ t, contigFree s 64 = .ok t ∧ GivesBack s 64 desc t := by
  have h : ∃ s desc, run step (initState smallInsmod)
      [.alloc (.balanced 0 1) 12288 (blockAt 64)] = some s ∧ s.heap 64 = some desc ∧
        desc.n * s.chunkSize < 2 ^ 32 := ⟨_, _, rfl, rfl, by decide⟩
  obtain ⟨s, desc, hr, ha, hsmall⟩ := h
  exact ⟨s, desc, hr, ha, (contigFree_completes contigInit_small hr ha).mpr hsmall⟩

/-- Two regions of 4 GiB in chunks of 2 GiB. -/
def wideInsmod : Insmod := ⟨31, fun i => 2 ^ 32 * (i.val + 1), fun _ => 2 ^ 32⟩

theorem contigInit_wide : contigInit wideInsmod allOk = .ok (initState wideInsmod) := by
  have hn : ¬ ∃ i, wideInsmod.memSize i = 0 ∨ wideInsmod.memSize i < wideInsmod.chunkSize := by
    decide
  rw [contigInit]
  rw [if_neg (by decide), if_neg (by decide), if_neg (by decide), if_neg hn]
  simp [allOk]

theorem wide_buffer_stuck : contigInit wideInsmod allOk = .ok (initState wideInsmod) ∧
    ∃ s desc, run step (initState wideInsmod) [.alloc (.preferred 0) (2 ^ 32) (blockAt 64)] =
      some s ∧ s.heap 64 = some desc ∧ contigFree s 64 = .error .bug :=
  ⟨contigInit_wide, _, _, rfl, rfl, rfl⟩

end EspDrivers.ContigAlloc
