import EspDrivers.ContigConservation

/-! Which requests the allocator survives. A policy loop completes while it is sent to
nodes that still have chunks; the counters tell such nodes apart as long as mem_size
counts the chunks that exist. -/
namespace EspDrivers.ContigAlloc
open KeyedStack Trace

/-- mem_size counts the chunks of each node, fewer than 2 ^ 31 of them. -/
structure Exact (s : State) : Prop where
  pos : 0 < s.chunkSize
  small : s.chunkSize ≤ 2 ^ 31
  few : ∀ d, s.memSize d / s.chunkSize < 2 ^ 31
  whole : ∀ d, s.memAllocated d + s.chunkSize * (s.inactiveChunks d).length = s.memSize d

def freeChunks (s : State) : Nat := (nodes.map fun i => (s.inactiveChunks i).length).sum

theorem freeChunks_eq (s : State) :
    freeChunks s = (s.inactiveChunks 0).length + (s.inactiveChunks 1).length := by
  simp [freeChunks, nodes, List.finRange_succ]

section Exact
variable {s t : State} {cs : List Chunk} {d e first : Node}

theorem Taken.exact (h : Taken s cs t) (hs : Exact s) : Exact t := by
  refine ⟨?_, ?_, ?_, ?_⟩
  · rw [h.chunkSize]
    exact hs.pos
  · rw [h.chunkSize]
    exact hs.small
  · rw [h.chunkSize, h.memSize]
    exact hs.few
  intro d
  have hw := hs.whole d
  rw [h.length d, Nat.mul_add] at hw
  rw [h.charged, h.chunkSize, h.memSize]
  omega

theorem node_eq_or_succ (d e : Node) : e = d ∨ e = d + 1 := by
  fin_cases d <;> fin_cases e <;> decide

theorem node_succ_ne (d : Node) : d + 1 ≠ d := by
  fin_cases d <;> decide

theorem Taken.freeChunks (h : Taken s cs t) : freeChunks s = cs.length + freeChunks t := by
  rw [freeChunks_eq, freeChunks_eq, h.length 0, h.length 1, ← onNode_add cs]
  omega

theorem Exact.room (hs : Exact s) (d : Node) : s.memSize d < 2 ^ 62 := by
  have hlt := (Nat.div_lt_iff_lt_mul hs.pos).mp (hs.few d)
  have hmul := Nat.mul_le_mul_left (2 ^ 31) hs.small
  omega

theorem Exact.length_lt (hs : Exact s) (d : Node) : (s.inactiveChunks d).length < 2 ^ 31 := by
  refine lt_of_le_of_lt ?_ (hs.few d)
  refine (Nat.le_div_iff_mul_le hs.pos).mpr ?_
  rw [Nat.mul_comm, ← hs.whole d]
  exact Nat.le_add_left _ _

theorem Exact.full_iff (hs : Exact s) (d : Node) :
    s.memAllocated d = s.memSize d ↔ s.inactiveChunks d = [] := by
  have hw := hs.whole d
  have hpos := hs.pos
  constructor
  · intro h
    have hz : s.chunkSize * (s.inactiveChunks d).length = 0 := by omega
    cases Nat.mul_eq_zero.mp hz with
    | inl hz => omega
    | inr hz => exact List.length_eq_zero_iff.mp hz
  · intro h
    simpa [h] using hw

theorem Exact.le (hs : Exact s) (d : Node) : s.memAllocated d ≤ s.memSize d := by
  have := hs.whole d
  omega

theorem Exact.ulongSub_eq (hs : Exact s) (d : Node) :
    ulongSub (s.memSize d) (s.memAllocated d) = s.chunkSize * (s.inactiveChunks d).length := by
  have hw := hs.whole d
  have hr := hs.room d
  simp only [ulongSub, ulong]
  omega

theorem memFree_eq (s : State) :
    memFree s = ulong (ulong (ulongSub (s.memSize 0) (s.memAllocated 0)) +
      ulongSub (s.memSize 1) (s.memAllocated 1)) := by
  simp [memFree, nodes, List.finRange_succ]

theorem Exact.total_lt (hs : Exact s) : s.chunkSize * freeChunks s < 2 ^ 63 := by
  have h0 := hs.whole 0
  have h1 := hs.whole 1
  have hr0 := hs.room 0
  have hr1 := hs.room 1
  rw [freeChunks_eq, Nat.mul_add]
  omega

theorem Exact.freeChunks_lt (hs : Exact s) : freeChunks s < 2 ^ 32 := by
  have h0 := hs.length_lt 0
  have h1 := hs.length_lt 1
  rw [freeChunks_eq]
  omega

theorem Exact.memFree_eq (hs : Exact s) : memFree s = s.chunkSize * freeChunks s := by
  have ht := hs.total_lt
  rw [freeChunks_eq, Nat.mul_add] at ht
  rw [ContigAlloc.memFree_eq, hs.ulongSub_eq, hs.ulongSub_eq, freeChunks_eq, Nat.mul_add, ulong,
    ulong]
  omega

end Exact

section Loops
variable {σ : Type} {next : State → σ → Except Fault (Node × σ)} {left i : Nat} {v : σ}
  {p q : Progress} {s : State} {desc : Desc}

/-- With `left` chunks to go `J` sends the loop to a node that has one, and stays true. -/
def Leads (next : State → σ → Except Fault (Node × σ)) (J : Nat → State → σ → Prop) : Prop :=
  ∀ left s v, J (left + 1) s v → ∃ d v', next s v = .ok (d, v') ∧ s.inactiveChunks d ≠ [] ∧
    ∀ ch t, ch.ddrNode = d → Taken s [ch] t → J left t v'

theorem allocLoop_completes {J : Nat → State → σ → Prop} (hnext : Leads next J)
    (hs : NodeOk p.s) (hj : J left p.s v) : ∃ q, allocLoop next left i v p = .ok q := by
  induction left generalizing i v p with
  | zero => exact ⟨p, rfl⟩
  | succ left ih =>
    obtain ⟨d, v', hn, hne, hj'⟩ := hnext left p.s v hj
    have hc : ∃ t desc, allocateChunk p.s p.desc d i = .ok (t, desc) := by
      rw [allocateChunk]
      cases hl : p.s.inactiveChunks d with
      | nil => exact absurd hl hne
      | cons ch rest => exact ⟨_, _, rfl⟩
    obtain ⟨t, desc, hc⟩ := hc
    obtain ⟨ch, hd, ht, -⟩ := allocateChunk_ok hs hc
    simp only [allocLoop, hn, hc, bind, Except.bind]
    exact ih (ht.nodeOk hs) (hj' ch t hd ht)

theorem allocLoop_exhausts (J : State → σ → Prop) (d : Node)
    (hnext : ∀ s v, J s v → ∃ v', next s v = .ok (d, v') ∧ ∀ ch t, Taken s [ch] t → J t v')
    (hs : NodeOk p.s) (hj : J p.s v) (hleft : (p.s.inactiveChunks d).length < left) :
    allocLoop next left i v p = .error .bug := by
  induction left generalizing i v p with
  | zero => omega
  | succ left ih =>
    obtain ⟨v', hn, hj'⟩ := hnext p.s v hj
    cases hc : allocateChunk p.s p.desc d i with
    | error e =>
      have he : e = .bug := by
        rw [allocateChunk] at hc
        cases hl : p.s.inactiveChunks d with
        | nil => simpa [hl, eq_comm] using hc
        | cons ch rest => simp [hl] at hc
      simp only [allocLoop, hn, hc, bind, Except.bind, he]
    | ok r =>
      obtain ⟨t, desc⟩ := r
      obtain ⟨ch, hd, ht, -⟩ := allocateChunk_ok hs hc
      have hlen := ht.length d
      rw [onNode_cons, onNode_nil, if_pos hd] at hlen
      simp only [allocLoop, hn, hc, bind, Except.bind]
      exact ih (ht.nodeOk hs) (hj' ch t ht) (by change (t.inactiveChunks d).length < left; omega)

theorem allocLoop_allocated (hs : NodeOk p.s) (hp : p.allocated < 2 ^ 64)
    (h : allocLoop next left i v p = .ok q) :
    q.allocated = ulong (p.allocated + left * p.s.chunkSize) := by
  induction left generalizing i v p with
  | zero =>
    obtain rfl : p = q := by simpa [allocLoop] using h
    simpa [ulong] using (Nat.mod_eq_of_lt hp).symm
  | succ left ih =>
    obtain ⟨⟨d, v'⟩, hn, h⟩ := bind_ok.mp h
    obtain ⟨⟨t, desc⟩, hc, h⟩ := bind_ok.mp h
    obtain ⟨ch, -, ht, -⟩ := allocateChunk_ok hs hc
    have hlt : ulong (p.allocated + p.s.chunkSize) < 2 ^ 64 := Nat.mod_lt _ (by norm_num)
    have hrest := ih (ht.nodeOk hs) hlt h
    simp only [ht.chunkSize, ulong] at hrest ⊢
    rw [hrest, Nat.add_mul]
    omega

theorem allocAll_completes {J : Nat → State → σ → Prop} (hnext : Leads next J) (hs : NodeOk s)
    (hj : J desc.n s v) (hb : desc.Blank) :
    ∃ p, allocAll next v s desc = .ok p := by
  obtain ⟨q, hq⟩ := allocLoop_completes (i := 0) (p := ⟨s, desc, 0, fun _ => 0⟩) hnext hs hj
  obtain ⟨cs, -, ht, hd, -⟩ := allocLoop_ok [] hs (by simpa using hb.1) rfl hq
  have htotal := allocLoop_allocated hs (by norm_num) hq
  have hsame : q.allocated = ulong (q.desc.n * q.s.chunkSize) := by
    rw [htotal, hd, ht.chunkSize]
    simp
  refine ⟨q, ?_⟩
  simp only [allocAll, hq, bind, Except.bind]
  rw [if_neg (not_not.mpr hsame)]

end Loops

section Policies
variable {s : State} {desc : Desc} {d first : Node}

theorem index_val (d : Node) : index (d.val : Int) = .ok d := by
  have hd : (d.val : Int) < ddrNodes := by exact_mod_cast d.isLt
  rw [index]
  rw [dif_pos ⟨by omega, hd⟩]
  rfl

theorem getNextDdrNode_some (hs : Exact s) (he : s.inactiveChunks d ≠ []) (first : Int) :
    getNextDdrNode s (d.val : Int) first = .ok d := by
  have hle : ¬ s.memSize d < s.memAllocated d := by
    have := hs.le d
    omega
  have hfull : ¬ s.memAllocated d = s.memSize d := fun h => he ((hs.full_iff d).mp h)
  simp only [getNextDdrNode, index_val, bind, Except.bind, if_neg hle, searchDdrNode, if_neg hfull]

/-- While any node has a chunk the search finds one, unless it starts behind the first
node while that one still has chunks. -/
theorem getNextDdrNode_ok (hs : Exact s) (hd : d = first ∨ s.inactiveChunks first = [])
    (hfree : 0 < freeChunks s) :
    ∃ e : Node, getNextDdrNode s (d.val : Int) (first.val : Int) = .ok e ∧
      s.inactiveChunks e ≠ [] ∧ (e = first ∨ s.inactiveChunks first = []) := by
  by_cases he : s.inactiveChunks d = []
  · have hother : s.inactiveChunks (d + 1) ≠ [] := by
      intro ho
      rw [freeChunks_eq] at hfree
      rcases node_cases d with rfl | rfl
      · simp_all
      · simp_all
    have hne : d + 1 ≠ first := by
      intro heq
      rcases hd with hd | hd
      · exact node_succ_ne d (heq.trans hd.symm)
      · exact hother (heq ▸ hd)
    have hfirst : first = d := (node_eq_or_succ d first).resolve_right (Ne.symm hne)
    have hle : ¬ s.memSize d < s.memAllocated d := by
      have := hs.le d
      omega
    have hfull : s.memAllocated d = s.memSize d := (hs.full_iff d).mpr he
    have hroom : ¬ s.memAllocated (d + 1) = s.memSize (d + 1) :=
      fun h => hother ((hs.full_iff _).mp h)
    have hval : ¬ ((d + 1 : Node).val : Int) = (first.val : Int) := by
      intro h
      exact hne (Fin.ext (by exact_mod_cast h))
    refine ⟨d + 1, ?_, hother, Or.inr (hfirst ▸ he)⟩
    simp only [getNextDdrNode, index_val, bind, Except.bind, if_neg hle, searchDdrNode,
      if_pos hfull, if_neg hval, if_neg hroom]
  · exact ⟨d, getNextDdrNode_some hs he _, he, hd⟩

/-- The search has passed the preferred node only if that one is empty. -/
def PreferredInv (first : Node) (left : Nat) (s : State) (v : Int) : Prop :=
  Exact s ∧ left ≤ freeChunks s ∧
    ∃ d : Node, v = (d.val : Int) ∧ (d = first ∨ s.inactiveChunks first = [])

theorem nextPreferred_leads (first : Node) :
    Leads (nextPreferred (first.val : Int)) (PreferredInv first) := by
  intro left s v hinv
  obtain ⟨hx, hleft, d, rfl, hd⟩ := hinv
  obtain ⟨e, he, hne, hfirst⟩ := getNextDdrNode_ok hx hd (by omega)
  refine ⟨e, (e.val : Int), by rw [nextPreferred, he]; rfl, hne, ?_⟩
  intro ch t hch ht
  have hf : freeChunks s = 1 + freeChunks t := ht.freeChunks
  have hsplit := ht.pops.split first
  refine ⟨ht.exact hx, by omega, e, rfl, hfirst.imp_right ?_⟩
  intro hempty
  rw [hempty] at hsplit
  exact (List.append_eq_nil_iff.mp hsplit.symm).2

def BalancedInv (left : Nat) (s : State) (_ : Node × Nat) : Prop :=
  Exact s ∧ left ≤ freeChunks s

theorem nextBalanced_leads (clusterSize : Nat) : Leads (nextBalanced clusterSize) BalancedInv := by
  intro left s v hinv
  obtain ⟨hx, hleft⟩ := hinv
  have hpick (c : Node) := getNextDdrNode_ok hx (Or.inl rfl : c = c ∨ _) (by omega)
  have hnext : ∃ e v', nextBalanced clusterSize s v = .ok (e, v') ∧ s.inactiveChunks e ≠ [] := by
    rw [nextBalanced]
    split
    · obtain ⟨e, he, hne, -⟩ := hpick (v.1 + 1)
      simp only [he, bind, Except.bind]
      split
      · exact ⟨e, _, rfl, hne⟩
      · exact ⟨e, _, rfl, hne⟩
    · obtain ⟨e, he, hne, -⟩ := hpick v.1
      simp only [he, bind, Except.bind]
      split
      · exact ⟨e, _, rfl, hne⟩
      · exact ⟨e, _, rfl, hne⟩
  obtain ⟨e, v', he, hne⟩ := hnext
  refine ⟨e, v', he, hne, ?_⟩
  intro ch t _ ht
  have hf : freeChunks s = 1 + freeChunks t := ht.freeChunks
  exact ⟨ht.exact hx, by omega⟩

def LeastLoadedInv (d : Node) (left : Nat) (s : State) (v : Node) : Prop :=
  v = d ∧ left ≤ (s.inactiveChunks d).length

theorem nextLeastLoaded_leads (d : Node) : Leads nextLeastLoaded (LeastLoadedInv d) := by
  intro left s v hinv
  obtain ⟨rfl, hleft⟩ := hinv
  refine ⟨v, v, rfl, List.ne_nil_of_length_pos (by omega), ?_⟩
  intro ch t hch ht
  have hlen := ht.length v
  rw [onNode_cons, onNode_nil, if_pos hch] at hlen
  exact ⟨rfl, by omega⟩

theorem getLeastLoadedDdrNode_fits {n threshold : Nat} (hx : Exact s)
    (hn : n * s.chunkSize < 2 ^ 64) (hok : leastLoadedAllocOk s n = true) :
    n ≤ (s.inactiveChunks (getLeastLoadedDdrNode s n threshold)).length := by
  have hfits (i : Node) : ulong (n * s.chunkSize) ≤ ulongSub (s.memSize i) (s.memAllocated i) ↔
      n ≤ (s.inactiveChunks i).length := by
    rw [hx.ulongSub_eq, ulong, Nat.mod_eq_of_lt hn, Nat.mul_comm]
    exact Nat.mul_le_mul_left_iff hx.pos
  have hsome : n ≤ (s.inactiveChunks 0).length ∨ n ≤ (s.inactiveChunks 1).length := by
    simpa [leastLoadedAllocOk, nodes, List.finRange_succ, hfits] using hok
  have hle := hx.le 1
  by_cases h1 : n ≤ (s.inactiveChunks 1).length
  · simp only [getLeastLoadedDdrNode, nodes, List.finRange_succ, List.finRange_zero, List.map_cons,
      List.map_nil, List.tail_cons, List.foldl_cons, List.foldl_nil, Fin.succ_zero_eq_one, hfits,
      if_pos (And.intro hle h1)]
    split
    · next h => exact h.2
    · exact h1
  · have h0 := hsome.resolve_right h1
    simp only [getLeastLoadedDdrNode, nodes, List.finRange_succ, List.finRange_zero, List.map_cons,
      List.map_nil, List.tail_cons, List.foldl_cons, List.foldl_nil, Fin.succ_zero_eq_one, hfits,
      h1, and_false, if_false, ite_self]
    exact h0

theorem allocByPolicy_completes {params : Params} (hs : NodeOk s) (hx : Exact s) (hb : desc.Blank)
    (hn : desc.n ≤ freeChunks s) (hok : contigAllocOk s params = true)
    (hnode : params ≠ .preferred ddrNodes) : ∃ r, allocByPolicy s desc params = .ok r := by
  cases params with
  | preferred d =>
    have hd : ∃ first : Node, d = (first.val : Int) := by
      have hrange : ¬ d < 0 ∧ ¬ (ddrNodes : Int) < d := by simpa [contigAllocOk] using hok
      have hlt : d ≠ ddrNodes := fun he => hnode (by rw [he])
      exact ⟨⟨d.toNat, by omega⟩, by simp; omega⟩
    obtain ⟨first, rfl⟩ := hd
    have hinv : PreferredInv first desc.n s (first.val : Int) :=
      ⟨hx, hn, first, rfl, Or.inl rfl⟩
    obtain ⟨p, hp⟩ := allocAll_completes (nextPreferred_leads first) hs hinv hb
    simp only [allocByPolicy, contigAllocPreferred, hp, bind, Except.bind]
    exact ⟨_, rfl⟩
  | leastLoaded t =>
    simp only [allocByPolicy, contigAllocLeastLoaded]
    split
    · next hfit =>
      have htotal : desc.n * s.chunkSize < 2 ^ 64 := by
        have ht := hx.total_lt
        have hmul := Nat.mul_le_mul_left s.chunkSize hn
        rw [Nat.mul_comm] at hmul
        omega
      have hinv : LeastLoadedInv (getLeastLoadedDdrNode s desc.n t) desc.n s
          (getLeastLoadedDdrNode s desc.n t) :=
        ⟨rfl, getLeastLoadedDdrNode_fits hx htotal hfit⟩
      obtain ⟨p, hp⟩ := allocAll_completes (nextLeastLoaded_leads _) hs hinv hb
      simp only [hp, bind, Except.bind]
      exact ⟨_, rfl⟩
    · exact ⟨_, rfl⟩
  | balanced t c =>
    have hinv : BalancedInv desc.n s (getLeastLoadedDdrNode s 1 t, 0) := ⟨hx, hn⟩
    obtain ⟨p, hp⟩ := allocAll_completes (nextBalanced_leads c) hs hinv hb
    simp only [allocByPolicy, contigAllocBalanced, hp, bind, Except.bind]
    exact ⟨_, rfl⟩
  | other k => simp [contigAllocOk] at hok

end Policies

section Requests
variable {s s0 : State} {params : Params} {size : Nat} {m : Kmalloc}

theorem nChunks_le_div (s : State) (size : Nat) :
    nChunks s size ≤ (size + s.chunkSize - 1) / s.chunkSize := by
  refine (Nat.mod_le _ _).trans ?_
  exact Nat.div_le_div_right (Nat.mod_le _ _)

theorem div_le_freeChunks (hx : Exact s) (hsize : size ≤ memFree s) :
    (size + s.chunkSize - 1) / s.chunkSize ≤ freeChunks s := by
  have hpos := hx.pos
  rw [hx.memFree_eq] at hsize
  refine Nat.lt_succ_iff.mp ((Nat.div_lt_iff_lt_mul hpos).mpr ?_)
  rw [Nat.succ_mul, Nat.mul_comm]
  omega

theorem nChunks_le_freeChunks (hx : Exact s) (hsize : size ≤ memFree s) :
    nChunks s size ≤ freeChunks s :=
  (nChunks_le_div s size).trans (div_le_freeChunks hx hsize)

/-- The accepted requests that index behind the arrays: PREFERRED with DDR_NODES itself,
past the checks that come before the policy. -/
def Overruns (s : State) (params : Params) (size : Nat) (m : Kmalloc) : Prop :=
  params = .preferred ddrNodes ∧ size ≠ 0 ∧ size ≤ memFree s ∧ m.pick s.heap ≠ none

theorem contigAlloc_completes (hs : NodeOk s) (hx : Exact s) (hok : contigAllocOk s params = true)
    (hover : ¬ Overruns s params size m) : ∃ r, contigAlloc s params size m = .ok r := by
  rw [contigAlloc]
  split
  · exact ⟨_, rfl⟩
  next hzero =>
  split
  · exact ⟨_, rfl⟩
  next hfree =>
  have hn := nChunks_le_freeChunks hx (Nat.le_of_not_lt hfree)
  have hdiv : memFree s / s.chunkSize = freeChunks s := by
    rw [hx.memFree_eq, Nat.mul_div_cancel_left _ hx.pos]
  rw [if_neg (by omega)]
  cases hk : m.pick s.heap with
  | none =>
    simp only [contigAllocChunks, contigAllocDescriptor, hk]
    exact ⟨_, rfl⟩
  | some k =>
    have hnode : params ≠ .preferred ddrNodes := by
      intro he
      exact hover ⟨he, hzero, Nat.le_of_not_lt hfree, by simp [hk]⟩
    have hpol := @allocByPolicy_completes s
      ⟨List.replicate (nChunks s size) 0, k.2, nChunks s size, 0, []⟩ params
      hs hx ⟨rfl, rfl⟩ hn hok hnode
    obtain ⟨r, hr⟩ := hpol
    simp only [contigAllocChunks, contigAllocDescriptor, hk, hr, bind, Except.bind]
    cases r with
    | error e => exact ⟨_, rfl⟩
    | ok r => exact ⟨_, rfl⟩

theorem nChunks_eq (hx : Exact s) (hsize : size ≤ memFree s) :
    nChunks s size = (size + s.chunkSize - 1) / s.chunkSize := by
  have hsmall := hx.small
  have hlt := (div_le_freeChunks hx hsize).trans_lt hx.freeChunks_lt
  have hword : ulong (size + s.chunkSize - 1) = size + s.chunkSize - 1 := by
    have ht := hx.total_lt
    rw [hx.memFree_eq] at hsize
    exact Nat.mod_eq_of_lt (by omega)
  rw [nChunks, divRoundUp, hword, uint, Nat.mod_eq_of_lt hlt]

theorem nChunks_pos (hx : Exact s) (hzero : size ≠ 0) (hsize : size ≤ memFree s) :
    0 < nChunks s size := by
  have hpos := hx.pos
  rw [nChunks_eq hx hsize]
  exact Nat.div_pos (by omega) hpos

theorem nChunks_mul {k : Nat} (hpos : 0 < s.chunkSize) (hk : k < 2 ^ 32)
    (hword : k * s.chunkSize + s.chunkSize ≤ 2 ^ 64) : nChunks s (k * s.chunkSize) = k := by
  have hdiv : (k * s.chunkSize + s.chunkSize - 1) / s.chunkSize = k := by
    rw [Nat.add_sub_assoc hpos, Nat.add_comm, Nat.add_mul_div_right _ _ hpos,
      Nat.div_eq_of_lt (by omega), Nat.zero_add]
  have hfits : ulong (k * s.chunkSize + s.chunkSize - 1) = k * s.chunkSize + s.chunkSize - 1 :=
    Nat.mod_eq_of_lt (by omega)
  rw [nChunks, divRoundUp, hfits, hdiv, uint, Nat.mod_eq_of_lt hk]

theorem contigAllocChunks_fault {n dma : Nat} {a : Addr} {e : Fault}
    (hk : m.pick s.heap = some (a, dma))
    (h : allocByPolicy s ⟨List.replicate n 0, dma, n, 0, []⟩ params = .error e) :
    contigAllocChunks s params n m = .error e := by
  simp only [contigAllocChunks, contigAllocDescriptor, hk, h, bind, Except.bind]

theorem contigAlloc_overruns (hx : Exact s) (hover : Overruns s params size m) :
    contigAlloc s params size m = .error .oob := by
  obtain ⟨rfl, hzero, hsize, hk⟩ := hover
  have hn := nChunks_le_freeChunks hx hsize
  have hdiv : memFree s / s.chunkSize = freeChunks s := by
    rw [hx.memFree_eq, Nat.mul_div_cancel_left _ hx.pos]
  have hone := nChunks_pos hx hzero hsize
  obtain ⟨k, hk⟩ := Option.ne_none_iff_exists'.mp hk
  obtain ⟨n, hn'⟩ := Nat.exists_eq_succ_of_ne_zero hone.ne'
  rw [contigAlloc, if_neg hzero, if_neg (by omega), if_neg (by omega)]
  simp only [contigAllocChunks, contigAllocDescriptor, hk, allocByPolicy, contigAllocPreferred,
    allocAll, hn', allocLoop, nextPreferred, getNextDdrNode]
  rfl

theorem contigAlloc_completes_iff (hs : NodeOk s) (hx : Exact s)
    (hok : contigAllocOk s params = true) :
    (∃ r, contigAlloc s params size m = .ok r) ↔ ¬ Overruns s params size m := by
  constructor
  · intro h hover
    obtain ⟨r, hr⟩ := h
    rw [contigAlloc_overruns hx hover] at hr
    cases hr
  · exact contigAlloc_completes hs hx hok

end Requests

section Reachable
variable {p : Insmod} {o : InitCalls} {s0 s : State}

theorem exact_of_consistent (h : contigInit p o = .ok s0)
    (hfew : ∀ i, s0.memSize i / s0.chunkSize < 2 ^ 31) (hs : Consistent s0 s) : Exact s := by
  obtain ⟨rfl, hlog, hpage, -⟩ := contigInit_ok h
  refine ⟨?_, ?_, ?_, ?_⟩
  · rw [hs.chunkSize]
    exact Nat.lt_of_lt_of_le (by decide) hpage
  · rw [hs.chunkSize]
    exact Nat.pow_le_pow_right (by norm_num) (by omega)
  · rw [hs.chunkSize, hs.memSize]
    exact hfew
  · intro d
    rw [hs.balance, onNode_created (sorted_initState p), length_initState,
      (nChunks_eq_iff d).mpr (hfew d), hs.memSize]
    exact chunkSize_mul_div d

theorem preferred_exhausts {desc : Desc} (hs : NodeOk s) (i : Node)
    (hgap : s.memAllocated i + s.chunkSize * (s.inactiveChunks i).length < s.memSize i)
    (hn : (s.inactiveChunks i).length < desc.n) :
    contigAllocPreferred s desc (i.val : Int) = .error .bug := by
  have hstay : ∀ s v, (v = (i.val : Int) ∧
      s.memAllocated i + s.chunkSize * (s.inactiveChunks i).length < s.memSize i) →
      ∃ v', nextPreferred (i.val : Int) s v = .ok (i, v') ∧ ∀ ch t, Taken s [ch] t →
        v' = (i.val : Int) ∧
          t.memAllocated i + t.chunkSize * (t.inactiveChunks i).length < t.memSize i := by
    intro s v hv
    obtain ⟨rfl, hlt⟩ := hv
    have hle : ¬ s.memSize i < s.memAllocated i := by omega
    have hne : ¬ s.memAllocated i = s.memSize i := by omega
    refine ⟨(i.val : Int), ?_, ?_⟩
    · simp only [nextPreferred, getNextDdrNode, index_val, bind, Except.bind, if_neg hle,
        searchDdrNode, if_neg hne]
    · intro ch t ht
      rw [ht.length i, Nat.mul_add] at hlt
      rw [ht.charged, ht.chunkSize, ht.memSize]
      exact ⟨rfl, by omega⟩
  have hloop := allocLoop_exhausts (i := 0) (p := ⟨s, desc, 0, fun _ => 0⟩) _ i hstay hs
    ⟨rfl, hgap⟩ hn
  simp only [contigAllocPreferred, allocAll, hloop, bind, Except.bind]

theorem ulongSub_zero (x : Nat) (hx : x < 2 ^ 64) : ulongSub x 0 = x := by
  simp only [ulongSub, ulong]
  omega

theorem memFree_initState (p : Insmod) (hfit : p.memSize 0 + p.memSize 1 < 2 ^ 64) :
    memFree (initState p) = p.memSize 0 + p.memSize 1 := by
  have h0 := ulongSub_zero (p.memSize 0) (by omega)
  have h1 := ulongSub_zero (p.memSize 1) (by omega)
  have hsize (i : Node) : (initState p).memSize i = p.memSize i := rfl
  have hzero (i : Node) : (initState p).memAllocated i = 0 := rfl
  rw [memFree_eq, hsize, hsize, hzero, hzero, h0, h1, ulong, ulong]
  omega

theorem contigAlloc_exhausts (h : contigInit p o = .ok s0) (i : Node)
    (hmany : 2 ^ 31 ≤ s0.memSize i / s0.chunkSize) (hfit : s0.memSize 0 + s0.memSize 1 < 2 ^ 64) :
    contigAlloc s0 (.preferred (i.val : Int)) ((p.nChunks i + 1) * p.chunkSize) (blockAt 64) =
      .error .bug := by
  have hsmall := small_init h
  have hnode := (consistent_init h).nodeOk hsmall
  obtain ⟨rfl, hlog, hpage, -⟩ := contigInit_ok h
  have hpos : 0 < p.chunkSize := Nat.lt_of_lt_of_le (by decide) hpage
  have hle : p.chunkSize ≤ 2 ^ 31 := Nat.pow_le_pow_right (by norm_num) (by omega)
  have hk := @nChunks_lt p i
  have hmore : p.nChunks i + 1 ≤ p.memSize i / p.chunkSize := hk.trans_le hmany
  have hsize : (p.nChunks i + 1) * p.chunkSize ≤ p.memSize i :=
    (Nat.le_div_iff_mul_le hpos).mp hmore
  have hfree : (p.nChunks i + 1) * p.chunkSize ≤ memFree (initState p) := by
    rw [memFree_initState p hfit]
    cases node_cases i with
    | inl hi =>
      subst hi
      omega
    | inr hi =>
      subst hi
      omega
  have hmul : (p.nChunks i + 1) * p.chunkSize ≤ 2 ^ 31 * 2 ^ 31 := Nat.mul_le_mul hk hle
  have hword : (p.nChunks i + 1) * p.chunkSize + p.chunkSize ≤ 2 ^ 64 := by omega
  have hn : nChunks (initState p) ((p.nChunks i + 1) * p.chunkSize) = p.nChunks i + 1 :=
    @nChunks_mul (initState p) _ hpos (by omega) hword
  have hzero : (p.nChunks i + 1) * p.chunkSize ≠ 0 := by
    exact Nat.mul_ne_zero (by omega) hpos.ne'
  rw [contigAlloc, if_neg hzero, if_neg (by omega)]
  split
  · rfl
  · have hlen := length_initState p i
    have hgap : (initState p).memAllocated i +
        (initState p).chunkSize * ((initState p).inactiveChunks i).length <
          (initState p).memSize i := by
      rw [hlen]
      change 0 + p.chunkSize * p.nChunks i < p.memSize i
      rw [Nat.add_mul, Nat.mul_comm] at hsize
      omega
    have hlong : ((initState p).inactiveChunks i).length < p.nChunks i + 1 := by
      rw [hlen]
      exact Nat.lt_succ_self _
    have hbug := @preferred_exhausts _
      ⟨List.replicate (p.nChunks i + 1) 0, 64, p.nChunks i + 1, 0, []⟩ hnode i hgap hlong
    have hpick : (blockAt 64).pick (initState p).heap = some (64, 64) := rfl
    rw [hn]
    apply contigAllocChunks_fault hpick
    rw [allocByPolicy, hbug]
    rfl

/-- Which accepted requests complete. With fewer than 2 ^ 31 chunks on each node it is all
but those that overrun; with more, a request in range reaches a BUG_ON. -/
theorem contigAlloc_accepted (h : contigInit p o = .ok s0) :
    ((∀ i, s0.memSize i / s0.chunkSize < 2 ^ 31) → ∀ ops s, run step s0 ops = some s →
      ∀ params size m, contigAllocOk s params = true →
        ((∃ r, contigAlloc s params size m = .ok r) ↔ ¬ Overruns s params size m)) ∧
    ((∃ i, 2 ^ 31 ≤ s0.memSize i / s0.chunkSize) → s0.memSize 0 + s0.memSize 1 < 2 ^ 64 →
      ∃ params size m, contigAllocOk s0 params = true ∧ ¬ Overruns s0 params size m ∧
        contigAlloc s0 params size m = .error .bug) := by
  refine ⟨?_, ?_⟩
  · intro hfew ops s hr params size m hok
    have hs := consistent_run h hr
    exact contigAlloc_completes_iff (hs.nodeOk (small_init h)) (exact_of_consistent h hfew hs) hok
  · intro hmany hfit
    obtain ⟨i, hi⟩ := hmany
    have hlt := i.isLt
    refine ⟨.preferred (i.val : Int), (p.nChunks i + 1) * p.chunkSize, blockAt 64, ?_, ?_,
      contigAlloc_exhausts h i hi hfit⟩
    · simp only [contigAllocOk, Bool.not_eq_true', Bool.or_eq_false_iff, decide_eq_false_iff_not]
      omega
    · intro hover
      have he : (i.val : Int) = ddrNodes := by simpa using hover.1
      omega

end Reachable

theorem contigAlloc_accepted_full : ∃ s, run step (initState smallInsmod)
    [.alloc (.preferred 1) (2 ^ 15) (blockAt 64)] = some s ∧ s.inactiveChunks 1 = [] ∧
      ∃ r, contigAlloc s (.preferred 1) 4096 (blockAt 128) = .ok r := by
  have h : ∃ s, run step (initState smallInsmod) [.alloc (.preferred 1) (2 ^ 15) (blockAt 64)] =
      some s ∧ s.inactiveChunks 1 = [] := ⟨_, rfl, rfl⟩
  obtain ⟨s, hr, hempty⟩ := h
  have hall := (contigAlloc_accepted contigInit_small).1 (by decide) _ s hr
  have hin : ¬ Overruns s (.preferred 1) 4096 (blockAt 128) := fun hover => by
    simpa using hover.1
  exact ⟨s, hr, hempty, (hall (.preferred 1) 4096 (blockAt 128) rfl).mpr hin⟩

/-- The check accepts DDR_NODES as a node, and the first search indexes with it. -/
theorem contigAlloc_past_ddr_nodes :
    contigAllocOk (initState smallInsmod) (.preferred 2) = true ∧
      contigAlloc (initState smallInsmod) (.preferred 2) 4096 (blockAt 64) = .error .oob :=
  ⟨rfl, rfl⟩

end EspDrivers.ContigAlloc
