import EspDrivers.ContigMoves
import EspDrivers.Trace

/-! The invariant of the allocator: the lists together hold the chunks created at
init, and the counters and the descriptors follow the lists. Each call keeps it, so
every run does. -/
namespace EspDrivers.ContigAlloc
open KeyedStack Trace

theorem mem_nodes (i : Node) : i ∈ nodes := List.mem_finRange i
theorem nodup_nodes : nodes.Nodup := List.nodup_finRange ddrNodes

section Init
variable {p : Insmod} {o : InitCalls} {s0 : State}

theorem contigInit_ok (h : contigInit p o = .ok s0) :
    s0 = initState p ∧ p.chunkLog < 32 ∧ pageSize ≤ p.chunkSize ∧
      ∀ i, p.chunkSize ≤ p.memSize i := by
  rw [contigInit] at h
  split at h
  · simp at h
  split at h
  · simp at h
  split at h
  · simp at h
  split at h
  · simp at h
  rename_i hlog _ hpage hsize
  refine ⟨?_, by omega, by omega, ?_⟩
  · cases hc : o.createFile with
    | some e => simp [hc] at h
    | none =>
      simp only [hc] at h
      split at h
      · simpa using h.symm
      · simp at h
  · intro i
    by_contra hi
    exact hsize ⟨i, Or.inr (by omega)⟩

theorem toInt_toNat (x : Nat) :
    (toInt x).toNat < 2 ^ 31 ∧ (toInt x).toNat ≤ x ∧ (x < 2 ^ 31 → (toInt x).toNat = x) := by
  unfold toInt
  rw [Int.bmod_def]
  push_cast
  refine ⟨?_, ?_, ?_⟩ <;> split <;> omega

theorem nChunks_lt (i : Node) : p.nChunks i < 2 ^ 31 := (toInt_toNat _).1

theorem nChunks_le (i : Node) : p.nChunks i ≤ p.memSize i / p.chunkSize := (toInt_toNat _).2.1

/-- The `int` parameter holds the count exactly below 2 ^ 31 chunks. -/
theorem nChunks_eq_iff (i : Node) :
    p.nChunks i = p.memSize i / p.chunkSize ↔ p.memSize i / p.chunkSize < 2 ^ 31 := by
  constructor
  · intro h
    rw [← h]
    exact nChunks_lt i
  · exact (toInt_toNat _).2.2

theorem chunkSize_mul_div (i : Node) :
    p.chunkSize * (p.memSize i / p.chunkSize) = p.memSize i := by
  refine Nat.mul_div_cancel' ?_
  exact Nat.dvd_sub_mod (p.size i)

end Init

/-- The chunks that contig_init creates, and those a descriptor holds. -/
def created (s : State) : List Chunk := nodes.flatMap s.inactiveChunks

def held (s : State) (a : Addr) : List Chunk :=
  match s.heap a with
  | some desc => desc.allocList
  | none => []

def heldOn (s : State) (i : Node) : Nat := (s.descList.map fun a => onNode i (held s a)).sum

/-- What holds between two calls, relative to the state that init left. -/
structure Consistent (s0 s : State) : Prop where
  chunkSizeLog : s.chunkSizeLog = s0.chunkSizeLog
  chunkSize : s.chunkSize = s0.chunkSize
  memStart : s.memStart = s0.memStart
  memSize : s.memSize = s0.memSize
  sorted : Sorted Chunk.ddrNode s.inactiveChunks
  live : ∀ a, a ∈ s.descList ↔ s.heap a ≠ none
  nodup : s.descList.Nodup
  filled : ∀ a desc, s.heap a = some desc → ∃ cs, desc.Filled cs
  chunks : (created s ++ s.descList.flatMap (held s)).Perm (created s0)
  charged : ∀ i, s.memAllocated i = s.chunkSize * heldOn s i

/-- The chunks of a node fit an `unsigned long`, with room to spare. -/
def Small (s0 : State) : Prop := ∀ i, s0.chunkSize * onNode i (created s0) < 2 ^ 63

theorem onNode_flatMap (i : Node) (as : List Addr) (f : Addr → List Chunk) :
    onNode i (as.flatMap f) = (as.map fun a => onNode i (f a)).sum := by
  simp [onNode, List.countP_flatMap, Function.comp_def]

theorem onNode_created {s : State} (hs : Sorted Chunk.ddrNode s.inactiveChunks) (i : Node) :
    onNode i (created s) = (s.inactiveChunks i).length := by
  have hsplit (j : Node) : onNode i (s.inactiveChunks j) =
      if j = i then (s.inactiveChunks i).length else 0 := by
    by_cases hj : j = i
    · subst hj
      simpa [onNode, List.countP_eq_length] using hs j
    · simp only [onNode, if_neg hj, List.countP_eq_zero]
      intro ch hch
      simpa [hs j ch hch] using hj
  simp only [onNode] at hsplit
  simp only [onNode, created, List.countP_flatMap, Function.comp_def, hsplit]
  fin_cases i <;> simp [nodes, List.finRange_succ]

namespace Consistent
variable {s0 s : State}

theorem held_filled (hs : Consistent s0 s) {a : Addr} {desc : Desc} (h : s.heap a = some desc) :
    desc.Filled (held s a).reverse := by
  obtain ⟨cs, hn, ha, hl⟩ := hs.filled a desc h
  simp [held, h, Desc.Filled, hl, hn, ha]

theorem total (hs : Consistent s0 s) (i : Node) :
    (s.inactiveChunks i).length + heldOn s i = onNode i (created s0) := by
  have h := hs.chunks.countP_eq fun ch => ch.ddrNode = i
  change onNode i (created s ++ _) = onNode i (created s0) at h
  rwa [onNode_append, onNode_created hs.sorted, onNode_flatMap] at h

theorem balance (hs : Consistent s0 s) (i : Node) :
    s.memAllocated i + s.chunkSize * (s.inactiveChunks i).length =
      s0.chunkSize * onNode i (created s0) := by
  rw [hs.charged, ← hs.total i, hs.chunkSize]
  ring

theorem nodeOk (hs : Consistent s0 s) (h0 : Small s0) : NodeOk s := by
  refine ⟨hs.sorted, ?_⟩
  intro d
  have := h0 d
  rw [hs.balance]
  omega

theorem le_memAllocated (hs : Consistent s0 s) {a : Addr} {desc : Desc}
    (h : s.heap a = some desc) (i : Node) :
    s.chunkSize * onNode i desc.allocList ≤ s.memAllocated i := by
  rw [hs.charged]
  refine Nat.mul_le_mul_left _ ?_
  have ha : a ∈ s.descList := (hs.live a).mpr (by simp [h])
  have := List.single_le_sum (l := s.descList.map fun a => onNode i (held s a)) (by simp)
    (onNode i (held s a)) (List.mem_map_of_mem ha)
  simpa only [held, h, heldOn] using this

theorem free_ok (hs : Consistent s0 s) (h0 : Small s0) {t : State} {a : Addr}
    (h : contigFree s a = .ok t) : ∃ desc, s.heap a = some desc ∧ t = unpublish s a desc := by
  have hlt (d : Node) : s.memAllocated d < 2 ^ 64 := by
    have := (hs.nodeOk h0).room d
    omega
  exact contigFree_ok hlt (fun _ hd i => hs.le_memAllocated hd i) h

end Consistent

theorem held_publish (s : State) (a b : Addr) (desc : Desc) :
    held (publish s a desc) b = if b = a then desc.allocList else held s b := by
  by_cases hb : b = a
  · subst hb
    simp [held, publish]
  · simp [held, publish, hb]

section Publish
variable {s0 s t : State} {cs : List Chunk} {a : Addr} {desc : Desc}

theorem held_publish_of_mem (hs : Consistent s0 s) (ht : Taken s cs t) (ha : s.heap a = none) :
    ∀ b ∈ s.descList, held (publish t a desc) b = held s b := by
  intro b hb
  have hne : b ≠ a := fun he => (hs.live a).mp (he ▸ hb) ha
  rw [held_publish, if_neg hne]
  simp [held, ht.heap]

theorem chunks_publish (hs : Consistent s0 s) (ht : Taken s cs t) (hf : desc.Filled cs)
    (ha : s.heap a = none) : (created (publish t a desc) ++
      (publish t a desc).descList.flatMap (held (publish t a desc))).Perm
        (created s ++ s.descList.flatMap (held s)) := by
  have hp : (created s).Perm (cs ++ created t) := ht.pops.perm nodup_nodes mem_nodes
  have hsplit : (publish t a desc).descList.flatMap (held (publish t a desc)) =
      cs.reverse ++ s.descList.flatMap (held s) := by
    change (a :: t.descList).flatMap _ = _
    rw [ht.descList, List.flatMap_cons, held_publish, if_pos rfl, hf.2.2,
      List.flatMap_congr (held_publish_of_mem hs ht ha)]
  rw [hsplit, ← List.append_assoc]
  refine List.Perm.append_right _ (List.Perm.trans ?_ hp.symm)
  exact List.perm_append_comm.trans (List.Perm.append_right _ (List.reverse_perm cs))

theorem heldOn_publish (hs : Consistent s0 s) (ht : Taken s cs t) (hf : desc.Filled cs)
    (ha : s.heap a = none) (i : Node) :
    heldOn (publish t a desc) i = onNode i cs + heldOn s i := by
  have hheld := @held_publish_of_mem s0 s t cs a desc hs ht ha
  change ((a :: t.descList).map _).sum = _
  rw [ht.descList, List.map_cons, List.sum_cons, held_publish, if_pos rfl, hf.2.2,
    onNode_reverse, List.map_congr_left fun b hb => by rw [hheld b hb]]
  rfl

theorem consistent_publish (hs : Consistent s0 s) (ht : Taken s cs t) (hf : desc.Filled cs)
    (ha : s.heap a = none) : Consistent s0 (publish t a desc) := by
  have hnot : a ∉ s.descList := by simp [hs.live, ha]
  refine ⟨?_, ?_, ?_, ?_, ht.pops.sorted hs.sorted, ?_, ?_, ?_, ?_, ?_⟩
  · exact ht.chunkSizeLog.trans hs.chunkSizeLog
  · exact ht.chunkSize.trans hs.chunkSize
  · exact ht.memStart.trans hs.memStart
  · exact ht.memSize.trans hs.memSize
  · intro b
    by_cases hb : b = a
    · subst hb
      simp [publish]
    · simp [publish, hb, ht.heap, ht.descList, hs.live]
  · simpa [publish, ht.descList, hnot] using hs.nodup
  · intro b d hd
    by_cases hb : b = a
    · subst hb
      obtain rfl : desc = d := by simpa [publish] using hd
      exact ⟨cs, hf⟩
    · apply hs.filled b d
      simpa [publish, hb, ht.heap] using hd
  · exact (chunks_publish hs ht hf ha).trans hs.chunks
  · intro i
    have hmem : (publish t a desc).memAllocated i = t.memAllocated i := rfl
    have hsize : (publish t a desc).chunkSize = s.chunkSize := ht.chunkSize
    rw [heldOn_publish hs ht hf ha, hmem, hsize, ht.charged, hs.charged]
    ring

end Publish

theorem held_unpublish (s : State) (a b : Addr) (desc : Desc) :
    held (unpublish s a desc) b = if b = a then [] else held s b := by
  by_cases hb : b = a
  · subst hb
    simp [held, unpublish]
  · simp [held, unpublish, hb]

section Unpublish
variable {s0 s : State} {a : Addr} {desc : Desc}

theorem held_unpublish_of_mem (hs : Consistent s0 s) :
    ∀ b ∈ s.descList.erase a, held (unpublish s a desc) b = held s b := by
  intro b hb
  have hne : b ≠ a := (hs.nodup.mem_erase_iff.mp hb).1
  rw [held_unpublish, if_neg hne]

theorem descList_perm (hs : Consistent s0 s) (ha : s.heap a = some desc) :
    s.descList.Perm (a :: s.descList.erase a) := by
  apply List.perm_cons_erase
  rw [hs.live, ha]
  simp

theorem chunks_unpublish (hs : Consistent s0 s) (ha : s.heap a = some desc) :
    (created (unpublish s a desc) ++
      (unpublish s a desc).descList.flatMap (held (unpublish s a desc))).Perm
        (created s ++ s.descList.flatMap (held s)) := by
  change (created (unpublish s a desc) ++ (s.descList.erase a).flatMap _).Perm _
  rw [List.flatMap_congr (held_unpublish_of_mem hs)]
  have hback : (created (unpublish s a desc)).Perm (desc.allocList ++ created s) :=
    foldl_push_perm nodup_nodes mem_nodes _ _
  have hall : (s.descList.flatMap (held s)).Perm
      (desc.allocList ++ (s.descList.erase a).flatMap (held s)) := by
    simpa [held, ha] using (descList_perm hs ha).flatMap_right (held s)
  refine (List.Perm.append_right _ hback).trans ?_
  refine List.Perm.trans ?_ (List.Perm.append_left _ hall.symm)
  rw [← List.append_assoc]
  exact List.Perm.append_right _ List.perm_append_comm

theorem heldOn_unpublish (hs : Consistent s0 s) (ha : s.heap a = some desc) (i : Node) :
    heldOn s i = onNode i desc.allocList + heldOn (unpublish s a desc) i := by
  have h := ((descList_perm hs ha).map fun b => onNode i (held s b)).sum_eq
  rw [List.map_cons, List.sum_cons] at h
  have hheld := @held_unpublish_of_mem s0 s a desc hs
  have hrest : (s.descList.erase a).map (fun b => onNode i (held s b)) =
      (s.descList.erase a).map (fun b => onNode i (held (unpublish s a desc) b)) :=
    List.map_congr_left fun b hb => by rw [hheld b hb]
  have ha' : held s a = desc.allocList := by simp [held, ha]
  rw [hrest, ha'] at h
  exact h

theorem consistent_unpublish (hs : Consistent s0 s) (ha : s.heap a = some desc) :
    Consistent s0 (unpublish s a desc) := by
  refine ⟨hs.chunkSizeLog, hs.chunkSize, hs.memStart, hs.memSize, sorted_foldl_push hs.sorted _, ?_,
    hs.nodup.erase a, ?_, (chunks_unpublish hs ha).trans hs.chunks, ?_⟩
  · intro b
    by_cases hb : b = a
    · subst hb
      simp [unpublish, hs.nodup.mem_erase_iff]
    · simp [unpublish, hs.nodup.mem_erase_iff, hb, hs.live]
  · intro b d hd
    by_cases hb : b = a
    · subst hb
      simp [unpublish] at hd
    · exact hs.filled b d (by simpa [unpublish, hb] using hd)
  · intro i
    change s.memAllocated i - s.chunkSize * onNode i desc.allocList = s.chunkSize * _
    rw [hs.charged, heldOn_unpublish hs ha, Nat.mul_add]
    omega

end Unpublish

section Width
variable {s0 s : State} {a : Addr} {desc : Desc}

theorem foldl_freeChunk_lt (cs : List Chunk) (s : State) {total : Nat} (ht : total < 2 ^ 32) :
    (cs.foldl freeChunk (s, total)).2 < 2 ^ 32 := by
  induction cs generalizing s total with
  | nil => exact ht
  | cons ch cs ih =>
    rw [List.foldl_cons]
    exact ih (freeChunk (s, total) ch).1 (Nat.mod_lt _ (by norm_num))

theorem Consistent.memAllocated_lt (hs : Consistent s0 s) (h0 : Small s0) (d : Node) :
    s.memAllocated d < 2 ^ 63 := by
  have hbal := hs.balance d
  have hlt := h0 d
  omega

theorem Consistent.n_eq_length (hs : Consistent s0 s) (ha : s.heap a = some desc) :
    desc.n = desc.allocList.length := by
  obtain ⟨hn, -, hl⟩ := hs.held_filled ha
  rw [hn, hl, List.reverse_reverse, List.length_reverse]

theorem Consistent.size_lt (hs : Consistent s0 s) (h0 : Small s0) (ha : s.heap a = some desc) :
    desc.n * s.chunkSize < 2 ^ 64 := by
  have hsum := onNode_add desc.allocList
  have hle0 := hs.le_memAllocated ha 0
  have hle1 := hs.le_memAllocated ha 1
  have hlt0 := hs.memAllocated_lt h0 0
  have hlt1 := hs.memAllocated_lt h0 1
  rw [hs.n_eq_length ha, ← hsum, Nat.add_mul, Nat.mul_comm _ s.chunkSize,
    Nat.mul_comm _ s.chunkSize]
  omega

/-- The BUG_ON compares the size with what is left of it in 32 bits. -/
theorem contigFree_eq (hs : Consistent s0 s) (h0 : Small s0) (ha : s.heap a = some desc) :
    contigFree s a =
      if desc.n * s.chunkSize < 2 ^ 32 then .ok (unpublish s a desc) else .error .bug := by
  have hlt (d : Node) : s.memAllocated d < 2 ^ 64 := by
    have := hs.memAllocated_lt h0 d
    omega
  obtain ⟨hstate, htotal⟩ := foldl_freeChunk desc.allocList s 0 hlt (hs.le_memAllocated ha)
  have hword : ulong (desc.n * s.chunkSize) = desc.n * s.chunkSize :=
    Nat.mod_eq_of_lt (hs.size_lt h0 ha)
  have hcut := foldl_freeChunk_lt desc.allocList s (show 0 < 2 ^ 32 by norm_num)
  rw [Nat.mod_eq_of_lt hcut, Nat.zero_add, ← hs.n_eq_length ha] at htotal
  rw [contigFree, ha]
  dsimp only
  rw [htotal, hword, hstate]
  by_cases hsmall : desc.n * s.chunkSize < 2 ^ 32
  · rw [if_pos hsmall, if_neg (not_not.mpr (Nat.mod_eq_of_lt hsmall))]
    rfl
  · have hne : desc.n * s.chunkSize % 2 ^ 32 ≠ desc.n * s.chunkSize := by
      intro heq
      exact hsmall (heq ▸ Nat.mod_lt _ (by norm_num))
    rw [if_neg hsmall, if_pos hne]

end Width

theorem consistent_free {s0 s t : State} {a : Addr} (h0 : Small s0) (hs : Consistent s0 s)
    (h : contigFree s a = .ok t) : Consistent s0 t := by
  obtain ⟨desc, ha, rfl⟩ := hs.free_ok h0 h
  exact consistent_unpublish hs ha

theorem consistent_step {s0 s t : State} {op : Op} (h0 : Small s0) (hs : Consistent s0 s)
    (h : step s op = some t) : Consistent s0 t := by
  cases op with
  | alloc params size m =>
    cases hc : contigAlloc s params size m with
    | error f => simp [step, hc, Except.toOption] at h
    | ok r =>
      obtain ⟨u, r⟩ := r
      obtain rfl : u = t := by simpa [step, hc, Except.toOption] using h
      cases r with
      | error e => exact contigAlloc_error hc ▸ hs
      | ok a =>
        obtain ⟨cs, t, desc, -, ht, hf, ha, -, rfl⟩ := contigAlloc_ok (hs.nodeOk h0) hc
        exact consistent_publish hs ht hf ha
  | free a =>
    cases hc : contigFree s a with
    | error f => simp [step, hc, Except.toOption] at h
    | ok u =>
      obtain rfl : u = t := by simpa [step, hc, Except.toOption] using h
      exact consistent_free h0 hs hc

section Reachable
variable {p : Insmod} {o : InitCalls} {s0 s : State}

theorem sorted_initState (p : Insmod) : Sorted Chunk.ddrNode (initState p).inactiveChunks := by
  intro i ch hch
  simp only [initState, contigChunksCreate, List.mem_map] at hch
  obtain ⟨k, -, rfl⟩ := hch
  rfl

theorem length_initState (p : Insmod) (i : Node) :
    ((initState p).inactiveChunks i).length = p.nChunks i := by
  simp [initState, contigChunksCreate]

theorem consistent_init (h : contigInit p o = .ok s0) : Consistent s0 s0 := by
  obtain ⟨rfl, -⟩ := contigInit_ok h
  refine ⟨rfl, rfl, rfl, rfl, sorted_initState p, by simp [initState], by simp [initState],
    by simp [initState], by simp [initState], ?_⟩
  intro i
  simp [initState, heldOn]

theorem small_init (h : contigInit p o = .ok s0) : Small s0 := by
  obtain ⟨rfl, hlog, -⟩ := contigInit_ok h
  intro i
  rw [onNode_created (sorted_initState p), length_initState]
  have hc : p.chunkSize ≤ 2 ^ 31 := by
    rw [Insmod.chunkSize]
    exact Nat.pow_le_pow_right (by norm_num) (by omega)
  have hn := @nChunks_lt p i
  have hmul : p.chunkSize * p.nChunks i ≤ 2 ^ 31 * 2 ^ 31 := Nat.mul_le_mul hc hn.le
  change p.chunkSize * p.nChunks i < 2 ^ 63
  omega

theorem consistent_run {ops : List Op} (h : contigInit p o = .ok s0)
    (hr : run step s0 ops = some s) : Consistent s0 s :=
  run_invariant (fun _ _ _ hs hst => consistent_step (small_init h) hs hst) (consistent_init h) hr

end Reachable

end EspDrivers.ContigAlloc
