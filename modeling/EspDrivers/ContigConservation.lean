import EspDrivers.ContigBooks

/-! Conservation and exclusive ownership: over every sequence of calls each chunk
created at init is in exactly one list, the counters count what is held, and no two
entries of the page tables of live descriptors name the same memory. -/
namespace EspDrivers.ContigAlloc
open KeyedStack Trace

section Ownership

inductive Owner where
  | inactive (i : Node)
  | desc (a : Addr)

def chunksOf (s : State) : Owner → List Chunk
  | .inactive i => s.inactiveChunks i
  | .desc a => held s a

variable {s0 s : State} {ch : Chunk}

def OwnedBy (s : State) (ch : Chunk) (o : Owner) : Prop :=
  (chunksOf s o).count ch = 1 ∧ ∀ o', o' ≠ o → ch ∉ chunksOf s o'

theorem mem_held (hs : Consistent s0 s) {a : Addr} (h : ch ∈ held s a) : a ∈ s.descList := by
  refine (hs.live a).mpr fun ha => ?_
  simp [held, ha] at h

theorem ownedBy_inactive (hs : Consistent s0 s) (hn : (created s0).Nodup)
    (h : ch ∈ s.inactiveChunks ch.ddrNode) : OwnedBy s ch (.inactive ch.ddrNode) := by
  have hall := hs.chunks.nodup_iff.mpr hn
  obtain ⟨hinact, -, hdisj⟩ := List.nodup_append.mp hall
  have hmem : ch ∈ created s := List.mem_flatMap.mpr ⟨_, mem_nodes _, h⟩
  refine ⟨List.count_eq_one_of_mem ((List.nodup_flatMap.mp hinact).1 _ (mem_nodes _)) h, ?_⟩
  intro o ho hch
  cases o with
  | inactive j => exact ho (by rw [hs.sorted j ch hch])
  | desc a =>
    exact hdisj ch hmem ch (List.mem_flatMap.mpr ⟨a, mem_held hs hch, hch⟩) rfl

theorem ownedBy_desc (hs : Consistent s0 s) (hn : (created s0).Nodup) {a : Addr}
    (h : ch ∈ held s a) : OwnedBy s ch (.desc a) := by
  have hall := hs.chunks.nodup_iff.mpr hn
  obtain ⟨-, hheld, hdisj⟩ := List.nodup_append.mp hall
  obtain ⟨hone, hpair⟩ := List.nodup_flatMap.mp hheld
  have ha := mem_held hs h
  refine ⟨List.count_eq_one_of_mem (hone a ha) h, ?_⟩
  intro o ho hch
  cases o with
  | inactive j =>
    exact hdisj ch (List.mem_flatMap.mpr ⟨j, mem_nodes j, hch⟩) ch
      (List.mem_flatMap.mpr ⟨a, ha, h⟩) rfl
  | desc b =>
    have hne : a ≠ b := fun he => ho (by rw [he])
    have : Std.Symm (Function.onFun List.Disjoint (held s)) := ⟨fun _ _ h => List.Disjoint.symm h⟩
    have hd : (held s a).Disjoint (held s b) := hpair.forall ha (mem_held hs hch) hne
    exact hd h hch

theorem exists_owner (hs : Consistent s0 s) (hn : (created s0).Nodup) (hch : ch ∈ created s0) :
    OwnedBy s ch (.inactive ch.ddrNode) ∨ ∃ a, a ∈ s.descList ∧ OwnedBy s ch (.desc a) := by
  rcases List.mem_append.mp (hs.chunks.mem_iff.mpr hch) with h | h
  · obtain ⟨i, -, hi⟩ := List.mem_flatMap.mp h
    left
    exact ownedBy_inactive hs hn (by rw [hs.sorted i ch hi]; exact hi)
  · obtain ⟨a, ha, hch⟩ := List.mem_flatMap.mp h
    exact Or.inr ⟨a, ha, ownedBy_desc hs hn hch⟩

end Ownership

section Regions
variable {p : Insmod} {ch ch' : Chunk}

theorem mem_created : ch ∈ created (initState p) ↔
    ch.nr < p.nChunks ch.ddrNode ∧ ch.paddr = contigChunkPaddr p ch.ddrNode ch.nr := by
  simp only [created, initState, contigChunksCreate, List.mem_flatMap, List.mem_map, List.mem_range]
  constructor
  · intro h
    obtain ⟨i, -, k, hk, rfl⟩ := h
    exact ⟨hk, rfl⟩
  · intro h
    refine ⟨ch.ddrNode, mem_nodes _, ch.nr, h.1, ?_⟩
    rw [← h.2]

theorem nodup_created (p : Insmod) : (created (initState p)).Nodup := by
  rw [created, List.nodup_flatMap]
  refine ⟨?_, ?_⟩
  · intro i _
    simp only [initState, contigChunksCreate]
    refine List.Nodup.map ?_ List.nodup_range
    intro k l h
    simpa using congrArg Chunk.nr h
  · refine nodup_nodes.imp ?_
    intro i j hij ch hi hj
    exact hij ((sorted_initState p i ch hi).symm.trans (sorted_initState p j ch hj))

/-- The managed regions, cut to whole chunks, end below 2 ^ 64 and do not overlap. -/
structure RegionsApart (s : State) : Prop where
  noWrap : ∀ i, s.memStart i + s.memSize i ≤ 2 ^ 64
  apart : ∀ i j, i ≠ j → s.memStart i + s.memSize i ≤ s.memStart j ∨
    s.memStart j + s.memSize j ≤ s.memStart i

theorem chunk_inside (hch : ch ∈ created (initState p)) (hc : 0 < p.chunkSize)
    (hr : RegionsApart (initState p)) :
    ch.paddr = p.start ch.ddrNode + p.chunkSize * ch.nr ∧
      ch.paddr + p.chunkSize ≤ p.start ch.ddrNode + p.memSize ch.ddrNode := by
  obtain ⟨hlt, hp⟩ := mem_created.mp hch
  have hle : p.chunkSize * (ch.nr + 1) ≤ p.memSize ch.ddrNode := by
    rw [← chunkSize_mul_div]
    exact Nat.mul_le_mul_left _ (hlt.trans_le (nChunks_le _))
  have hw : p.start ch.ddrNode + p.memSize ch.ddrNode ≤ 2 ^ 64 := hr.noWrap ch.ddrNode
  rw [Nat.mul_add] at hle
  have hnw : p.start ch.ddrNode + p.chunkSize * ch.nr < 2 ^ 64 := by omega
  rw [hp, contigChunkPaddr, ulong, Nat.mod_eq_of_lt hnw]
  omega

theorem chunks_apart (hch : ch ∈ created (initState p)) (hch' : ch' ∈ created (initState p))
    (hne : ch ≠ ch') (hc : 0 < p.chunkSize) (hr : RegionsApart (initState p)) :
    ch.paddr + p.chunkSize ≤ ch'.paddr ∨ ch'.paddr + p.chunkSize ≤ ch.paddr := by
  obtain ⟨hp, hle⟩ := chunk_inside hch hc hr
  obtain ⟨hp', hle'⟩ := chunk_inside hch' hc hr
  by_cases hd : ch.ddrNode = ch'.ddrNode
  · have hnr : ch.nr ≠ ch'.nr := by
      intro he
      apply hne
      have h1 := (mem_created.mp hch).2
      have h2 := (mem_created.mp hch').2
      rw [hd, he, ← h2] at h1
      cases ch
      cases ch'
      simp_all
    rw [hp, hp', hd]
    rcases Nat.lt_or_gt_of_ne hnr with hlt | hlt
    · have := Nat.mul_le_mul_left p.chunkSize (Nat.succ_le_of_lt hlt)
      rw [Nat.mul_succ] at this
      omega
    · have := Nat.mul_le_mul_left p.chunkSize (Nat.succ_le_of_lt hlt)
      rw [Nat.mul_succ] at this
      omega
  · have h := hr.apart ch.ddrNode ch'.ddrNode hd
    change p.start ch.ddrNode + p.memSize ch.ddrNode ≤ p.start ch'.ddrNode ∨
      p.start ch'.ddrNode + p.memSize ch'.ddrNode ≤ p.start ch.ddrNode at h
    omega

end Regions

section Pages
variable {p : Insmod} {s : State} {a b : Addr} {desc desc' : Desc} {k l x y : Nat}

theorem page_chunk (hs : Consistent (initState p) s) (ha : s.heap a = some desc)
    (hk : desc.arr[k]? = some x) :
    ∃ ch, (held s a).reverse[k]? = some ch ∧ ch.paddr = x := by
  obtain ⟨-, harr, -⟩ := hs.held_filled ha
  rw [harr, List.getElem?_map] at hk
  exact Option.map_eq_some_iff.mp hk

theorem mem_created_of_held (hs : Consistent (initState p) s) {ch : Chunk} (h : ch ∈ held s a) :
    ch ∈ created (initState p) :=
  hs.chunks.mem_iff.mp (List.mem_append_right _ (List.mem_flatMap.mpr ⟨a, mem_held hs h, h⟩))

theorem pages_distinct (hs : Consistent (initState p) s) {ch ch' : Chunk}
    (hk : (held s a).reverse[k]? = some ch) (hl : (held s b).reverse[l]? = some ch')
    (hne : (a, k) ≠ (b, l)) : ch ≠ ch' := by
  intro he
  subst he
  have hm : ch ∈ held s a := List.mem_reverse.mp (List.mem_of_getElem? hk)
  have hm' : ch ∈ held s b := List.mem_reverse.mp (List.mem_of_getElem? hl)
  have hown := ownedBy_desc hs (nodup_created p) hm
  by_cases hab : a = b
  · subst hab
    have hnd : (held s a).Nodup := by
      have hall := hs.chunks.nodup_iff.mpr (nodup_created p)
      exact (List.nodup_flatMap.mp (List.nodup_append.mp hall).2.1).1 a (mem_held hs hm)
    have hkl : k = l := by
      have hlt := (List.getElem?_eq_some_iff.mp hk).1
      exact (List.getElem?_inj hlt (List.nodup_reverse.mpr hnd)).mp (hk.trans hl.symm)
    exact hne (by rw [hkl])
  · exact hown.2 (.desc b) (by simpa using Ne.symm hab) hm'

theorem pages_apart (hs : Consistent (initState p) s) (hpos : 0 < p.chunkSize)
    (hr : RegionsApart (initState p)) (ha : s.heap a = some desc) (hb : s.heap b = some desc')
    (hk : desc.arr[k]? = some x) (hl : desc'.arr[l]? = some y) (hne : (a, k) ≠ (b, l)) :
    x + s.chunkSize ≤ y ∨ y + s.chunkSize ≤ x := by
  have hsize : s.chunkSize = p.chunkSize := hs.chunkSize
  obtain ⟨ch, hch, rfl⟩ := page_chunk hs ha hk
  obtain ⟨ch', hch', rfl⟩ := page_chunk hs hb hl
  have hc := mem_created_of_held hs (List.mem_reverse.mp (List.mem_of_getElem? hch))
  have hc' := mem_created_of_held hs (List.mem_reverse.mp (List.mem_of_getElem? hch'))
  rw [hsize]
  exact chunks_apart hc hc' (pages_distinct hs hch hch' hne) hpos hr

end Pages

structure Conserved (s0 s : State) : Prop where
  owned : ∀ ch ∈ created s0,
    OwnedBy s ch (.inactive ch.ddrNode) ∨ ∃ a, s.heap a ≠ none ∧ OwnedBy s ch (.desc a)
  counted : ∀ i, s.memAllocated i = s.chunkSize * heldOn s i
  balanced : ∀ i, s.memAllocated i + s.chunkSize * (s.inactiveChunks i).length = s.memSize i
  listed : ∀ a, s.descList.count a = if s.heap a = none then 0 else 1
  paged : ∀ a desc, s.heap a = some desc →
    desc.arr.length = desc.n ∧ desc.arr = desc.allocList.reverse.map Chunk.paddr
  apart : RegionsApart s0 → ∀ (a b : Addr) (desc desc' : Desc) (k l x y : Nat),
    s.heap a = some desc → s.heap b = some desc' → desc.arr[k]? = some x →
      desc'.arr[l]? = some y → (a, k) ≠ (b, l) →
    x + s.chunkSize ≤ y ∨ y + s.chunkSize ≤ x
  inside : RegionsApart s0 → ∀ a desc x, s.heap a = some desc → x ∈ desc.arr →
    ∃ i, s.memStart i ≤ x ∧ x + s.chunkSize ≤ s.memStart i + s.memSize i

theorem conserved_of_consistent {p : Insmod} {o : InitCalls} {s0 s : State}
    (h : contigInit p o = .ok s0) (hfit : ∀ i, s0.memSize i / s0.chunkSize < 2 ^ 31)
    (hs : Consistent s0 s) : Conserved s0 s := by
  obtain ⟨rfl, -, hpage, -⟩ := contigInit_ok h
  have hpos : 0 < p.chunkSize := Nat.lt_of_lt_of_le (by decide) hpage
  have hsize : s.chunkSize = p.chunkSize := hs.chunkSize
  refine ⟨?_, hs.charged, ?_, ?_, ?_, ?_, ?_⟩
  · intro ch hch
    rcases exists_owner hs (nodup_created p) hch with h | ⟨a, ha, h⟩
    · exact Or.inl h
    · exact Or.inr ⟨a, (hs.live a).mp ha, h⟩
  · intro i
    rw [hs.balance, onNode_created (sorted_initState p), length_initState,
      (nChunks_eq_iff i).mpr (hfit i), hs.memSize]
    exact chunkSize_mul_div i
  · intro a
    rw [List.Nodup.count hs.nodup]
    simp only [hs.live]
    split <;> simp_all
  · intro a desc ha
    obtain ⟨hn, harr, hl⟩ := hs.held_filled ha
    have hheld : held s a = desc.allocList := by simp [held, ha]
    rw [harr, hheld]
    refine ⟨?_, rfl⟩
    rw [hn, List.length_map, hheld]
  · intro hr a b desc desc' k l x y ha hb hk hl hne
    exact pages_apart hs hpos hr ha hb hk hl hne
  · intro hr a desc x ha hx
    obtain ⟨k, hk⟩ := List.mem_iff_getElem?.mp hx
    obtain ⟨ch, hch, rfl⟩ := page_chunk hs ha hk
    have hc := mem_created_of_held hs (List.mem_reverse.mp (List.mem_of_getElem? hch))
    obtain ⟨hp, hle⟩ := chunk_inside hc hpos hr
    refine ⟨ch.ddrNode, ?_, ?_⟩
    · rw [hs.memStart, hp]
      exact Nat.le_add_right _ _
    · rw [hsize, hs.memStart, hs.memSize]
      exact hle

/-- The law holds over every run exactly when no node has 2 ^ 31 chunks or more: the
count reaches contig_chunks_create as an `int`. -/
theorem contigAlloc_conserves {p : Insmod} {o : InitCalls} {s0 : State}
    (h : contigInit p o = .ok s0) :
    (∀ ops s, run step s0 ops = some s → Conserved s0 s) ↔
      ∀ i, s0.memSize i / s0.chunkSize < 2 ^ 31 := by
  constructor
  · intro hall i
    have hb := (hall [] s0 rfl).balanced i
    obtain ⟨rfl, -, hpage, -⟩ := contigInit_ok h
    have hpos : 0 < p.chunkSize := Nat.lt_of_lt_of_le (by decide) hpage
    rw [length_initState] at hb
    have hn : p.chunkSize * p.nChunks i = p.memSize i := by simpa [initState] using hb
    refine (nChunks_eq_iff i).mp ?_
    rw [← hn, Nat.mul_div_cancel_left _ hpos]
  · intro hfit ops s hr
    exact conserved_of_consistent h hfit (consistent_run h hr)

def allOk : InitCalls := ⟨none, fun _ _ => true⟩

/-- Two regions of eight chunks of 4 KiB. -/
def smallInsmod : Insmod := ⟨12, fun i => 2 ^ 20 * (i.val + 1), fun _ => 2 ^ 15⟩

/-- Two regions of 8 TiB, 2 ^ 31 chunks of 4 KiB each. -/
def hugeInsmod : Insmod := ⟨12, fun i => 2 ^ 44 * (i.val + 1), fun _ => 2 ^ 43⟩

/-- kmalloc answers with the block at `a` while it is not in use. -/
def blockAt (a : Addr) : Kmalloc where
  pick h := if h a = none ∧ a ≠ 0 then some (a, a) else none
  fresh := by
    intro h b dma hb
    split at hb
    · obtain rfl : a = b := by simpa using congrArg (Option.map Prod.fst) hb
      assumption
    · simp at hb

theorem contigInit_small : contigInit smallInsmod allOk = .ok (initState smallInsmod) := by
  have hn : ¬ ∃ i, smallInsmod.memSize i = 0 ∨ smallInsmod.memSize i < smallInsmod.chunkSize := by
    decide
  rw [contigInit]
  rw [if_neg (by decide), if_neg (by decide), if_neg (by decide), if_neg hn]
  simp [allOk]

theorem contigInit_huge : contigInit hugeInsmod allOk = .ok (initState hugeInsmod) := by
  have hn : ¬ ∃ i, hugeInsmod.memSize i = 0 ∨ hugeInsmod.memSize i < hugeInsmod.chunkSize := by
    decide
  rw [contigInit]
  rw [if_neg (by decide), if_neg (by decide), if_neg (by decide), if_neg hn]
  simp [allOk]

theorem contigAlloc_conserves_small : ∃ s, run step (initState smallInsmod)
    [.alloc (.balanced 0 1) 12288 (blockAt 64), .alloc (.leastLoaded 0) 4096 (blockAt 128),
      .free 64] = some s ∧ s.heap 128 ≠ none ∧ Conserved (initState smallInsmod) s := by
  have h : ∃ s, run step (initState smallInsmod)
      [.alloc (.balanced 0 1) 12288 (blockAt 64), .alloc (.leastLoaded 0) 4096 (blockAt 128),
        .free 64] = some s ∧ (s.heap 128).isSome = true := ⟨_, rfl, rfl⟩
  obtain ⟨s, hr, hlive⟩ := h
  have hall := (contigAlloc_conserves contigInit_small).mpr (by decide)
  exact ⟨s, hr, Option.isSome_iff_ne_none.mp hlive, hall _ s hr⟩

/-- With 2 ^ 31 chunks on a node the count turns negative and no chunk is created,
while mem_size still promises them. -/
theorem huge_not_conserved : contigInit hugeInsmod allOk = .ok (initState hugeInsmod) ∧
    created (initState hugeInsmod) = [] ∧
    ¬ Conserved (initState hugeInsmod) (initState hugeInsmod) := by
  refine ⟨contigInit_huge, by decide, ?_⟩
  intro h
  have hb := h.balanced 0
  have hmem : (initState hugeInsmod).memSize 0 = 2 ^ 43 := by decide
  have hlen : ((initState hugeInsmod).inactiveChunks 0).length = 0 := by decide
  rw [hlen, hmem] at hb
  simp [initState] at hb

end EspDrivers.ContigAlloc
