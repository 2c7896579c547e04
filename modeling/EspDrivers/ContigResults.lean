import EspDrivers.ContigPolicies

/-! What a caller of contig_alloc gets: as many chunks as the size needs, each of them
once, and the node that holds most of them. -/
namespace EspDrivers.ContigAlloc
open KeyedStack Trace

/-- The lowest-numbered node with the most chunks of `cs`. -/
def MostOf (cs : List Chunk) (d : Node) : Prop :=
  (∀ e, onNode e cs ≤ onNode d cs) ∧ ∀ e < d, onNode e cs < onNode d cs

section Most
variable {s t : State} {desc desc' : Desc} {cs : List Chunk}

theorem mostAllocated_eq (f : Node → Nat) : mostAllocated f = if f 0 < f 1 then 1 else 0 := by
  simp [mostAllocated, nodes, List.finRange_succ]

theorem mostOf_counted {f : Node → Nat} (h : ∀ d, f d = onNode d cs) :
    MostOf cs (mostAllocated f) := by
  rw [mostAllocated_eq, h, h]
  split
  · next hlt =>
    refine ⟨?_, ?_⟩
    · intro e
      rcases node_cases e with rfl | rfl
      · exact hlt.le
      · exact le_refl _
    · intro e he
      rcases node_cases e with rfl | rfl
      · exact hlt
      · exact absurd he (lt_irrefl _)
  · next hge =>
    refine ⟨?_, fun e he => absurd he (Fin.not_lt_zero e)⟩
    intro e
    rcases node_cases e with rfl | rfl
    · exact le_refl _
    · exact Nat.le_of_not_lt hge

theorem mostOf_single {d : Node} (hcs : cs ≠ []) (h : ∀ ch ∈ cs, ch.ddrNode = d) : MostOf cs d := by
  have hall : onNode d cs = cs.length := List.countP_eq_length.mpr fun ch hch => by simp [h ch hch]
  have hnone (e : Node) (he : e ≠ d) : onNode e cs = 0 :=
    List.countP_eq_zero.mpr fun ch hch => by simp [h ch hch, Ne.symm he]
  have hpos := List.length_pos_of_ne_nil hcs
  refine ⟨?_, ?_⟩
  · intro e
    by_cases he : e = d
    · rw [he]
    · rw [hnone e he]
      exact Nat.zero_le _
  · intro e he
    rw [hnone e he.ne, hall]
    exact hpos

theorem MostOf.reverse {d : Node} (h : MostOf cs d) : MostOf cs.reverse d := by
  simpa [MostOf] using h

theorem allocByPolicy_most {params : Params} (hs : NodeOk s) (hb : desc.Blank) (hn : desc.n ≠ 0)
    (h : allocByPolicy s desc params = .ok (.ok (t, desc'))) :
    ∃ cs, cs.length = desc.n ∧ Taken s cs t ∧ desc'.Filled cs ∧
      MostOf cs desc'.mostAllocated := by
  rcases allocByPolicy_inv h with ⟨σ, next, v, q, hq, rfl, rfl⟩ | ⟨d, q, hq, rfl, rfl⟩
  · obtain ⟨cs, hcs, ht, hf, hper⟩ := allocAll_ok hs hb hq
    exact ⟨cs, hcs, ht, hf, mostOf_counted hper⟩
  · obtain ⟨cs, hcs, ht, hf, -, v, -, hds⟩ :=
      allocAll_keeps (nextLeastLoaded_keeps d) hs hb ⟨rfl, rfl⟩ hq
    refine ⟨cs, hcs, ht, hf, mostOf_single ?_ ?_⟩
    · intro hnil
      rw [hnil, List.length_nil] at hcs
      exact hn hcs.symm
    · intro ch hch
      have hmem : ch.ddrNode ∈ origins cs := List.mem_map_of_mem hch
      rw [origins, hds] at hmem
      exact (List.mem_replicate.mp hmem).2

end Most

structure GoodBuffer (s0 : State) (size : Nat) (desc : Desc) : Prop where
  count : desc.n = size ⌈/⌉ s0.chunkSize
  covers : size ≤ desc.n * s0.chunkSize
  slack : desc.n * s0.chunkSize < size + s0.chunkSize
  pages : ∃ cs : List Chunk, cs.Nodup ∧ (∀ ch ∈ cs, ch ∈ created s0) ∧ cs.length = desc.n ∧
    desc.arr = cs.map Chunk.paddr
  most : MostOf desc.allocList desc.mostAllocated

def Returns (s : State) (params : Params) (size : Nat) (m : Kmalloc) (Q : Desc → Prop) : Prop :=
  ∀ u a, contigAlloc s params size m = .ok (u, .ok a) → ∃ desc, u.heap a = some desc ∧ Q desc

/-- PREFERRED and BALANCED, which spread a buffer over the nodes. -/
def Params.spreads : Params → Bool
  | .preferred _ => true
  | .balanced _ _ => true
  | _ => false

def Succeeds (s : State) (params : Params) (size : Nat) (m : Kmalloc) : Prop :=
  params.spreads = true → size ≤ s.chunkSize * freeChunks s → m.pick s.heap ≠ none →
    ∃ u a, contigAlloc s params size m = .ok (u, .ok a)

section Results
variable {p : Insmod} {s t : State} {params : Params} {size : Nat} {m : Kmalloc} {cs : List Chunk}

theorem ceil_covers {c : Nat} (hc : 0 < c) (size : Nat) :
    size ≤ size ⌈/⌉ c * c ∧ size ⌈/⌉ c * c < size + c := by
  rw [Nat.ceilDiv_eq_add_pred_div]
  have hdiv := Nat.div_add_mod (size + c - 1) c
  have hmod := Nat.mod_lt (size + c - 1) hc
  rw [Nat.mul_comm] at hdiv
  omega

theorem Taken.nodup (hs : Consistent (initState p) s) (ht : Taken s cs t) :
    cs.Nodup ∧ ∀ ch ∈ cs, ch ∈ created (initState p) := by
  have hp : (created s).Perm (cs ++ created t) := ht.pops.perm nodup_nodes mem_nodes
  have hall := hs.chunks.nodup_iff.mpr (nodup_created p)
  have hcs := hp.nodup_iff.mp (List.nodup_append.mp hall).1
  refine ⟨(List.nodup_append.mp hcs).1, ?_⟩
  intro ch hch
  apply hs.chunks.mem_iff.mp
  exact List.mem_append_left _ (hp.mem_iff.mpr (List.mem_append_left _ hch))

theorem nodup_paddr (hc : 0 < p.chunkSize) (hr : RegionsApart (initState p)) (hn : cs.Nodup)
    (hcs : ∀ ch ∈ cs, ch ∈ created (initState p)) : (cs.map Chunk.paddr).Nodup := by
  refine (List.nodup_map_iff_inj_on hn).mpr ?_
  intro ch hch ch' hch' heq
  by_contra hne
  have hapart := chunks_apart (hcs ch hch) (hcs ch' hch') hne hc hr
  omega

theorem Exact.returns (hs : Consistent (initState p) s) (hnode : NodeOk s) (hx : Exact s) :
    Returns s params size m fun desc =>
      GoodBuffer (initState p) size desc ∧ (RegionsApart (initState p) → desc.arr.Nodup) := by
  intro u a h
  obtain ⟨hzero, hsize, dma, t, desc, -, hpol, rfl⟩ := contigAlloc_inv h
  have hpos := nChunks_pos hx hzero hsize
  obtain ⟨cs, hcs, ht, ⟨hn, harr, hlist⟩, hmost⟩ :=
    allocByPolicy_most hnode ⟨rfl, rfl⟩ hpos.ne' hpol
  obtain ⟨hnodup, hcreated⟩ := ht.nodup hs
  have hceil : desc.n = size ⌈/⌉ (initState p).chunkSize := by
    rw [hn, hcs, Nat.ceilDiv_eq_add_pred_div, ← hs.chunkSize]
    exact nChunks_eq hx hsize
  have hc : 0 < (initState p).chunkSize := by
    rw [← hs.chunkSize]
    exact hx.pos
  have hcovers := ceil_covers hc size
  rw [← hceil] at hcovers
  refine ⟨desc, by simp [publish], ⟨hceil, hcovers.1, hcovers.2, ⟨cs, hnodup, hcreated, hn.symm, harr⟩,
    ?_⟩, ?_⟩
  · rw [hlist]
    exact hmost.reverse
  · intro hr
    rw [harr]
    exact nodup_paddr hc hr hnodup hcreated

theorem Exact.succeeds (hs : NodeOk s) (hx : Exact s) (hok : contigAllocOk s params = true)
    (hnode : params ≠ .preferred ddrNodes) (hzero : size ≠ 0) : Succeeds s params size m := by
  intro hspread hsize hm
  rw [← hx.memFree_eq] at hsize
  have hover : ¬ Overruns s params size m := fun hover => hnode hover.1
  obtain ⟨⟨u, r⟩, hr⟩ := contigAlloc_completes hs hx hok hover
  cases r with
  | ok a => exact ⟨u, a, hr⟩
  | error e =>
    -- past the checks and with a block, only LEAST_LOADED returns an error
    exfalso
    have hn := nChunks_le_freeChunks hx hsize
    have hdiv : memFree s / s.chunkSize = freeChunks s := by
      rw [hx.memFree_eq, Nat.mul_div_cancel_left _ hx.pos]
    obtain ⟨⟨a, dma⟩, hk⟩ := Option.ne_none_iff_exists'.mp hm
    rw [contigAlloc, if_neg hzero, if_neg (by omega), if_neg (by omega)] at hr
    simp only [contigAllocChunks, contigAllocDescriptor, hk] at hr
    obtain ⟨v, hv, hr⟩ := bind_ok.mp hr
    cases v with
    | ok v => cases hr
    | error e' =>
      cases params with
      | preferred d =>
        obtain ⟨w, -, hw⟩ := map_ok.mp hv
        cases hw
      | balanced th c =>
        obtain ⟨w, -, hw⟩ := map_ok.mp hv
        cases hw
      | leastLoaded th => cases hspread
      | other k => cases hspread

end Results

section Reachable
variable {p : Insmod} {o : InitCalls} {s0 s : State} {ops : List Op} {params : Params}
  {size : Nat} {m : Kmalloc}

/-- Over every run, with parameters in range and fewer than 2 ^ 31 chunks on each node. -/
theorem contigAlloc_result (h : contigInit p o = .ok s0)
    (hfew : ∀ i, s0.memSize i / s0.chunkSize < 2 ^ 31) (hr : run step s0 ops = some s)
    (hok : contigAllocOk s params = true) (hnode : params ≠ .preferred ddrNodes)
    (hsize : 1 ≤ size) :
    Returns s params size m (fun desc => GoodBuffer s0 size desc ∧
      (RegionsApart s0 → desc.arr.Nodup)) ∧ Succeeds s params size m := by
  have hs := consistent_run h hr
  have hx := exact_of_consistent h hfew hs
  have hn := hs.nodeOk (small_init h)
  refine ⟨?_, hx.succeeds hn hok hnode (by omega)⟩
  obtain ⟨rfl, -⟩ := contigInit_ok h
  exact hx.returns hs hn

theorem contigAlloc_result_three : ∃ s u desc, run step (initState smallInsmod)
    [.alloc (.preferred 1) 24576 (blockAt 64)] = some s ∧
      contigAlloc s (.preferred 1) 10000 (blockAt 128) = .ok (u, .ok 128) ∧
      u.heap 128 = some desc ∧ desc.mostAllocated = 1 ∧ GoodBuffer (initState smallInsmod) 10000 desc := by
  have h : ∃ s u, run step (initState smallInsmod) [.alloc (.preferred 1) 24576 (blockAt 64)] =
      some s ∧ contigAlloc s (.preferred 1) 10000 (blockAt 128) = .ok (u, .ok 128) ∧
        (u.heap 128).map Desc.mostAllocated = some 1 := ⟨_, _, rfl, rfl, rfl⟩
  obtain ⟨s, u, hr, hu, hmost⟩ := h
  have hall := @contigAlloc_result _ _ _ s _ (.preferred 1) 10000 (blockAt 128)
    contigInit_small (by decide) hr rfl (by decide) (by decide)
  obtain ⟨desc, hdesc, hgood⟩ := hall.1 u 128 hu
  rw [hdesc] at hmost
  exact ⟨s, u, desc, hr, hu, hdesc, Option.some.inj hmost, hgood.1⟩

theorem contigAlloc_not_succeeds : ¬ ∀ (p : Insmod) (o : InitCalls) (s0 s : State)
    (ops : List Op) (params : Params) (size : Nat) (m : Kmalloc), contigInit p o = .ok s0 →
      run step s0 ops = some s → contigAllocOk s params = true → params ≠ .preferred ddrNodes →
        1 ≤ size → Returns s params size m (fun desc => GoodBuffer s0 size desc ∧ desc.arr.Nodup) ∧
          Succeeds s params size m := by
  intro h
  have hall := h mixedInsmod allOk _ _ [] (.preferred 0) 4096 (blockAt 64) contigInit_mixed rfl rfl
    (by decide) (by decide)
  obtain ⟨u, a, hu⟩ := hall.2 rfl (by decide) (by decide)
  have hbug : contigAlloc (initState mixedInsmod) (.preferred 0) 4096 (blockAt 64) =
      .error .bug := rfl
  rw [hbug] at hu
  cases hu

end Reachable

end EspDrivers.ContigAlloc
