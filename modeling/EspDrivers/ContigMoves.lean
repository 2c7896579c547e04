import EspDrivers.ContigAlloc

/-! What a completed allocation or free does to the lists, the counters and the
descriptors. Every later result on the allocator goes through these equations. -/
namespace EspDrivers.ContigAlloc
open KeyedStack

def onNode (d : Node) (cs : List Chunk) : Nat := cs.countP fun ch => ch.ddrNode = d

theorem onNode_eq_length (d : Node) (cs : List Chunk) :
    onNode d cs = (cs.filter fun ch => ch.ddrNode = d).length := List.countP_eq_length_filter

@[simp] theorem onNode_nil (d : Node) : onNode d [] = 0 := rfl

@[simp] theorem onNode_append (d : Node) (xs ys : List Chunk) :
    onNode d (xs ++ ys) = onNode d xs + onNode d ys := List.countP_append

@[simp] theorem onNode_reverse (d : Node) (cs : List Chunk) :
    onNode d cs.reverse = onNode d cs := List.countP_reverse

theorem onNode_cons (d : Node) (ch : Chunk) (cs : List Chunk) :
    onNode d (ch :: cs) = onNode d cs + if ch.ddrNode = d then 1 else 0 := by
  simp [onNode, List.countP_cons]

theorem node_cases (d : Node) : d = 0 ∨ d = 1 := by
  fin_cases d <;> simp

theorem onNode_add (cs : List Chunk) : onNode 0 cs + onNode 1 cs = cs.length := by
  induction cs with
  | nil => rfl
  | cons ch cs ih =>
    rw [onNode_cons, onNode_cons, List.length_cons]
    cases node_cases ch.ddrNode with
    | inl hd =>
      simp [hd]
      omega
    | inr hd =>
      simp [hd]
      omega

structure NodeOk (s : State) : Prop where
  sorted : Sorted Chunk.ddrNode s.inactiveChunks
  room : ∀ d, s.memAllocated d + s.chunkSize * (s.inactiveChunks d).length < 2 ^ 64

/-- The chunks `cs` left their inactive lists, in this order, and were charged. -/
structure Taken (s : State) (cs : List Chunk) (t : State) : Prop where
  pops : Pops Chunk.ddrNode s.inactiveChunks cs t.inactiveChunks
  charged : ∀ d, t.memAllocated d = s.memAllocated d + s.chunkSize * onNode d cs
  frame : t = { s with inactiveChunks := t.inactiveChunks, memAllocated := t.memAllocated }

section Frame
variable {s t : State} {cs : List Chunk} (h : Taken s cs t)
include h

theorem Taken.chunkSizeLog : t.chunkSizeLog = s.chunkSizeLog := by rw [h.frame]
theorem Taken.chunkSize : t.chunkSize = s.chunkSize := by rw [h.frame]
theorem Taken.memStart : t.memStart = s.memStart := by rw [h.frame]
theorem Taken.memSize : t.memSize = s.memSize := by rw [h.frame]
theorem Taken.descList : t.descList = s.descList := by rw [h.frame]
theorem Taken.heap : t.heap = s.heap := by rw [h.frame]

end Frame

theorem Taken.nil (s : State) : Taken s [] s := ⟨rfl, by simp, rfl⟩

theorem Taken.append {s t u : State} {xs ys : List Chunk} (h : Taken s xs t) (h' : Taken t ys u) :
    Taken s (xs ++ ys) u := by
  refine ⟨pops_append.mpr ⟨_, h.pops, h'.pops⟩, ?_, ?_⟩
  · intro d
    rw [h'.charged, h.charged, h.chunkSize, onNode_append, Nat.mul_add]
    omega
  · rw [h'.frame, h.frame]

theorem Taken.length {s t : State} {cs : List Chunk} (h : Taken s cs t) (d : Node) :
    (s.inactiveChunks d).length = onNode d cs + (t.inactiveChunks d).length := by
  rw [h.pops.split d, List.length_append, onNode_eq_length]

theorem Taken.nodeOk {s t : State} {cs : List Chunk} (h : Taken s cs t) (hs : NodeOk s) :
    NodeOk t := by
  refine ⟨h.pops.sorted hs.sorted, ?_⟩
  intro d
  have hr := hs.room d
  rw [h.length d, Nat.mul_add] at hr
  rw [h.charged, h.chunkSize]
  omega

theorem allocateChunk_ok {s t : State} {desc desc' : Desc} {d : Node} {i : Nat} (hs : NodeOk s)
    (h : allocateChunk s desc d i = .ok (t, desc')) :
    ∃ ch, ch.ddrNode = d ∧ Taken s [ch] t ∧
      desc' = { desc with allocList := ch :: desc.allocList, arr := desc.arr.set i ch.paddr } := by
  rw [allocateChunk] at h
  cases hl : s.inactiveChunks d with
  | nil => simp [hl] at h
  | cons ch rest =>
    have hd : ch.ddrNode = d := hs.sorted d ch (by simp [hl])
    have hr := hs.room d
    rw [hl, List.length_cons, Nat.mul_add] at hr
    simp only [hl, Except.ok.injEq, Prod.mk.injEq] at h
    obtain ⟨rfl, rfl⟩ := h
    refine ⟨ch, hd, ⟨⟨rest, by rw [hd, hl], by rw [hd]; rfl⟩, ?_, rfl⟩, rfl⟩
    intro e
    by_cases he : e = d
    · subst he
      simp only [Function.update_self, onNode_cons, onNode_nil, hd, ulong]
      rw [Nat.mod_eq_of_lt (by omega)]
      simp
    · simp [onNode_cons, hd, Ne.symm he, Function.update_of_ne he]

theorem set_replicate (done : List Nat) (left v : Nat) :
    (done ++ List.replicate (left + 1) 0).set done.length v =
      (done ++ [v]) ++ List.replicate left 0 := by
  rw [List.set_append_right _ _ (Nat.le_refl _), Nat.sub_self, List.replicate_succ, List.set_cons_zero]
  simp

theorem bind_ok {φ α β : Type} {x : Except φ α} {f : α → Except φ β} {b : β} :
    x.bind f = .ok b ↔ ∃ a, x = .ok a ∧ f a = .ok b := by
  cases x <;> simp [Except.bind]

theorem bind_total {φ α β : Type} {x : Except φ α} {f : α → Except φ β} (hx : ∃ a, x = .ok a)
    (hf : ∀ a, ∃ b, f a = .ok b) : ∃ b, x.bind f = .ok b := by
  obtain ⟨a, rfl⟩ := hx
  exact hf a

theorem map_ok {φ α β : Type} {x : Except φ α} {f : α → β} {b : β} :
    f <$> x = .ok b ↔ ∃ a, x = .ok a ∧ f a = b := by
  cases x <;> simp [Functor.map, Except.map]

section Loop
variable {σ : Type} {next : State → σ → Except Fault (Node × σ)}

/-- `J` speaks of the nodes that the chunks came from so far; each pick keeps it. -/
def Keeps (next : State → σ → Except Fault (Node × σ)) (J : List Node → State → σ → Prop) : Prop :=
  ∀ ds s v d v' ch t, J ds s v → next s v = .ok (d, v') → ch.ddrNode = d → Taken s [ch] t →
    J (ds ++ [d]) t v'

/-- The loop moves `left` chunks to the descriptor and writes their addresses in the order
in which they were taken, from the nodes that the policy picks. -/
theorem allocLoop_keeps {J : List Node → State → σ → Prop} (hkeep : Keeps next J) {left i : Nat}
    {v : σ} {p q : Progress} (done : List Nat) (ds : List Node) (hs : NodeOk p.s)
    (harr : p.desc.arr = done ++ List.replicate left 0) (hi : done.length = i) (hj : J ds p.s v)
    (h : allocLoop next left i v p = .ok q) :
    ∃ cs, cs.length = left ∧ Taken p.s cs q.s ∧
      q.desc = { p.desc with
        allocList := cs.reverse ++ p.desc.allocList
        arr := done ++ cs.map Chunk.paddr } ∧
      (∀ d, q.nPerNode d = p.nPerNode d + onNode d cs) ∧
      ∃ v', J (ds ++ cs.map Chunk.ddrNode) q.s v' := by
  induction left generalizing i v p done ds with
  | zero =>
    obtain rfl : p = q := by simpa [allocLoop] using h
    refine ⟨[], rfl, Taken.nil _, ?_, by simp, v, by simpa using hj⟩
    have : p.desc.arr = done := by simpa using harr
    simp [← this]
  | succ left ih =>
    obtain ⟨⟨d, v'⟩, hn, h⟩ := bind_ok.mp h
    obtain ⟨⟨t, desc'⟩, ha, h⟩ := bind_ok.mp h
    obtain ⟨ch, hd, ht, rfl⟩ := allocateChunk_ok hs ha
    subst hi
    have hwritten : (p.desc.arr.set done.length ch.paddr) =
        (done ++ [ch.paddr]) ++ List.replicate left 0 := by
      rw [harr, set_replicate]
    have hpicked := hkeep ds p.s v d v' ch t hj hn hd ht
    obtain ⟨cs, hcs, hq, hdesc, hper, v'', hj''⟩ :=
      ih _ (ds ++ [d]) (ht.nodeOk hs) hwritten (by simp) hpicked h
    refine ⟨ch :: cs, by simp [hcs], ht.append hq, ?_, ?_, v'', ?_⟩
    · simpa using hdesc
    · intro e
      rw [hper, onNode_cons]
      by_cases he : e = d
      · subst he
        simp [hd]
        omega
      · simp [Function.update_of_ne he, hd, Ne.symm he]
    · simpa [hd] using hj''

theorem keeps_true : Keeps next fun _ _ _ => True := fun _ _ _ _ _ _ _ _ _ _ _ => trivial

theorem allocLoop_ok {left i : Nat} {v : σ} {p q : Progress} (done : List Nat) (hs : NodeOk p.s)
    (harr : p.desc.arr = done ++ List.replicate left 0) (hi : done.length = i)
    (h : allocLoop next left i v p = .ok q) :
    ∃ cs, cs.length = left ∧ Taken p.s cs q.s ∧
      q.desc = { p.desc with
        allocList := cs.reverse ++ p.desc.allocList
        arr := done ++ cs.map Chunk.paddr } ∧
      ∀ d, q.nPerNode d = p.nPerNode d + onNode d cs := by
  obtain ⟨cs, hcs, ht, hd, hper, -⟩ := allocLoop_keeps keeps_true done [] hs harr hi trivial h
  exact ⟨cs, hcs, ht, hd, hper⟩

end Loop

def Desc.Filled (desc : Desc) (cs : List Chunk) : Prop :=
  desc.n = cs.length ∧ desc.arr = cs.map Chunk.paddr ∧ desc.allocList = cs.reverse

def Desc.Blank (desc : Desc) : Prop :=
  desc.arr = List.replicate desc.n 0 ∧ desc.allocList = []

theorem allocAll_keeps {σ : Type} {next : State → σ → Except Fault (Node × σ)}
    {J : List Node → State → σ → Prop} {v : σ} {s : State} {desc : Desc} {p : Progress}
    (hkeep : Keeps next J) (hs : NodeOk s) (hb : desc.Blank) (hj : J [] s v)
    (h : allocAll next v s desc = .ok p) :
    ∃ cs, cs.length = desc.n ∧ Taken s cs p.s ∧ p.desc.Filled cs ∧
      (∀ d, p.nPerNode d = onNode d cs) ∧ ∃ v', J (cs.map Chunk.ddrNode) p.s v' := by
  obtain ⟨q, hq, h⟩ := bind_ok.mp h
  have hpq : q = p := by
    split at h <;> simp at h
    exact h
  subst hpq
  obtain ⟨cs, hcs, ht, hd, hper, hend⟩ :=
    allocLoop_keeps hkeep [] [] hs (by simpa using hb.1) rfl hj hq
  refine ⟨cs, hcs, ht, ?_, by simpa using hper, hend⟩
  rw [hd]
  exact ⟨hcs.symm, rfl, by simp [hb.2]⟩

theorem allocAll_ok {σ : Type} {next : State → σ → Except Fault (Node × σ)} {v : σ} {s : State}
    {desc : Desc} {p : Progress} (hs : NodeOk s) (hb : desc.Blank)
    (h : allocAll next v s desc = .ok p) :
    ∃ cs, cs.length = desc.n ∧ Taken s cs p.s ∧ p.desc.Filled cs ∧
      ∀ d, p.nPerNode d = onNode d cs := by
  obtain ⟨cs, hcs, ht, hf, hper, -⟩ := allocAll_keeps keeps_true hs hb trivial h
  exact ⟨cs, hcs, ht, hf, hper⟩

/-- A policy ends by setting most_allocated, which is no part of the page table. -/
theorem allocAll_filled {σ : Type} {next : State → σ → Except Fault (Node × σ)} {v : σ}
    {s : State} {desc : Desc} {p : Progress} (d : Node) (hs : NodeOk s) (hb : desc.Blank)
    (h : allocAll next v s desc = .ok p) :
    ∃ cs, cs.length = desc.n ∧ Taken s cs p.s ∧
      ({ p.desc with mostAllocated := d } : Desc).Filled cs := by
  obtain ⟨cs, hcs, ht, hf, -⟩ := allocAll_ok hs hb h
  exact ⟨cs, hcs, ht, hf⟩

theorem allocByPolicy_inv {s t : State} {desc desc' : Desc} {params : Params}
    (h : allocByPolicy s desc params = .ok (.ok (t, desc'))) :
    (∃ (σ : Type) (next : State → σ → Except Fault (Node × σ)) (v : σ) (p : Progress),
      allocAll next v s desc = .ok p ∧ t = p.s ∧
        desc' = { p.desc with mostAllocated := mostAllocated p.nPerNode }) ∨
    ∃ d p, allocAll nextLeastLoaded d s desc = .ok p ∧ t = p.s ∧
      desc' = { p.desc with mostAllocated := d } := by
  cases params with
  | preferred d =>
    obtain ⟨r, h, hr⟩ := map_ok.mp h
    cases hr
    obtain ⟨p, hp, h⟩ := bind_ok.mp h
    cases h
    exact Or.inl ⟨Int, _, _, p, hp, rfl, rfl⟩
  | leastLoaded th =>
    change contigAllocLeastLoaded s desc th = _ at h
    rw [contigAllocLeastLoaded] at h
    split at h
    · obtain ⟨p, hp, h⟩ := bind_ok.mp h
      cases h
      exact Or.inr ⟨_, p, hp, rfl, rfl⟩
    · cases h
  | balanced th c =>
    obtain ⟨r, h, hr⟩ := map_ok.mp h
    cases hr
    obtain ⟨p, hp, h⟩ := bind_ok.mp h
    cases h
    exact Or.inl ⟨Node × Nat, _, _, p, hp, rfl, rfl⟩
  | other k => cases h

theorem allocByPolicy_ok {s t : State} {desc desc' : Desc} {params : Params} (hs : NodeOk s)
    (hb : desc.Blank) (h : allocByPolicy s desc params = .ok (.ok (t, desc'))) :
    ∃ cs, cs.length = desc.n ∧ Taken s cs t ∧ desc'.Filled cs := by
  rcases allocByPolicy_inv h with ⟨σ, next, v, p, hp, rfl, rfl⟩ | ⟨d, p, hp, rfl, rfl⟩
  · exact allocAll_filled _ hs hb hp
  · exact allocAll_filled _ hs hb hp

theorem contigAlloc_inv {s u : State} {params : Params} {size : Nat} {m : Kmalloc} {a : Addr}
    (h : contigAlloc s params size m = .ok (u, .ok a)) :
    size ≠ 0 ∧ size ≤ memFree s ∧ ∃ dma t desc, m.pick s.heap = some (a, dma) ∧
      allocByPolicy s ⟨List.replicate (nChunks s size) 0, dma, nChunks s size, 0, []⟩ params =
        .ok (.ok (t, desc)) ∧ u = publish t a desc := by
  rw [contigAlloc] at h
  split at h
  · simp at h
  next hzero =>
  split at h
  · simp at h
  next hfree =>
  split at h
  · simp at h
  refine ⟨hzero, Nat.le_of_not_lt hfree, ?_⟩
  rw [contigAllocChunks] at h
  cases hk : m.pick s.heap with
  | none => simp [contigAllocDescriptor, hk] at h
  | some r =>
    obtain ⟨b, dma⟩ := r
    simp only [contigAllocDescriptor, hk] at h
    obtain ⟨r, hr, h⟩ := bind_ok.mp h
    cases r with
    | error e => simp at h
    | ok r =>
      obtain ⟨t, desc⟩ := r
      obtain ⟨rfl, rfl⟩ : publish t b desc = u ∧ b = a := by simpa using h
      exact ⟨dma, t, desc, rfl, hr, rfl⟩

/-- A successful allocation takes chunks from the inactive lists and publishes a
fresh descriptor that lists exactly these. -/
theorem contigAlloc_ok {s u : State} {params : Params} {size : Nat} {m : Kmalloc} {a : Addr}
    (hs : NodeOk s) (h : contigAlloc s params size m = .ok (u, .ok a)) :
    ∃ cs t desc, cs.length = nChunks s size ∧ Taken s cs t ∧ desc.Filled cs ∧
      s.heap a = none ∧ a ≠ 0 ∧ u = publish t a desc := by
  obtain ⟨-, -, dma, t, desc, hk, hr, hu⟩ := contigAlloc_inv h
  obtain ⟨cs, hcs, ht, hf⟩ := allocByPolicy_ok hs ⟨rfl, rfl⟩ hr
  exact ⟨cs, t, desc, hcs, ht, hf, (m.fresh _ _ _ hk).1, (m.fresh _ _ _ hk).2, hu⟩

theorem contigAlloc_error {s u : State} {params : Params} {size : Nat} {m : Kmalloc} {e : Errno}
    (h : contigAlloc s params size m = .ok (u, .error e)) : u = s := by
  rw [contigAlloc] at h
  split at h
  · simpa [eq_comm] using (And.left (by simpa using h) : s = u)
  split at h
  · simpa [eq_comm] using (And.left (by simpa using h) : s = u)
  split at h
  · simp at h
  rw [contigAllocChunks] at h
  cases hk : m.pick s.heap with
  | none =>
    simp only [contigAllocDescriptor, hk, Except.ok.injEq, Prod.mk.injEq] at h
    exact h.1.symm
  | some r =>
    obtain ⟨b, dma⟩ := r
    simp only [contigAllocDescriptor, hk] at h
    obtain ⟨r, hr, h⟩ := bind_ok.mp h
    cases r with
    | error e => exact (And.left (by simpa using h) : s = u).symm
    | ok r => simp at h

section Free

theorem foldl_freeChunk (cs : List Chunk) (s : State) (total : Nat)
    (hlt : ∀ d, s.memAllocated d < 2 ^ 64)
    (hle : ∀ d, s.chunkSize * onNode d cs ≤ s.memAllocated d) :
    (cs.foldl freeChunk (s, total)).1 = { s with
      inactiveChunks := cs.foldl (push Chunk.ddrNode) s.inactiveChunks
      memAllocated := fun d => s.memAllocated d - s.chunkSize * onNode d cs } ∧
    (cs.foldl freeChunk (s, total)).2 % 2 ^ 32 = (total + cs.length * s.chunkSize) % 2 ^ 32 := by
  induction cs generalizing s total with
  | nil => simp
  | cons ch cs ih =>
    have hcost (d : Node) : s.chunkSize * onNode d (ch :: cs) =
        s.chunkSize * onNode d cs + if ch.ddrNode = d then s.chunkSize else 0 := by
      rw [onNode_cons, Nat.mul_add]
      split <;> simp
    have hsub : ulongSub (s.memAllocated ch.ddrNode) s.chunkSize =
        s.memAllocated ch.ddrNode - s.chunkSize := by
      have h1 := hle ch.ddrNode
      have h2 := hlt ch.ddrNode
      rw [hcost, if_pos rfl] at h1
      simp only [ulongSub, ulong]
      omega
    have hmem (d : Node) : Function.update s.memAllocated ch.ddrNode
        (ulongSub (s.memAllocated ch.ddrNode) s.chunkSize) d =
        s.memAllocated d - if ch.ddrNode = d then s.chunkSize else 0 := by
      by_cases hd : ch.ddrNode = d
      · subst hd
        simp [hsub]
      · simp [hd, Function.update_of_ne (Ne.symm hd)]
    have h := ih (freeChunk (s, total) ch).1 (freeChunk (s, total) ch).2
      (by
        intro d
        have := hlt d
        simp only [freeChunk, hmem]
        omega)
      (by
        intro d
        have := hle d
        rw [hcost] at this
        simp only [freeChunk, hmem]
        omega)
    rw [List.foldl_cons]
    refine ⟨?_, ?_⟩
    · rw [h.1]
      simp only [freeChunk, List.foldl_cons, hmem, hcost]
      congr 1
      funext d
      omega
    · rw [h.2]
      simp only [freeChunk, uint, List.length_cons, Nat.add_mul, Nat.one_mul]
      omega

def unpublish (s : State) (a : Addr) (desc : Desc) : State := { s with
  inactiveChunks := desc.allocList.foldl (push Chunk.ddrNode) s.inactiveChunks
  memAllocated := fun d => s.memAllocated d - s.chunkSize * onNode d desc.allocList
  descList := s.descList.erase a
  heap := Function.update s.heap a none }

theorem contigFree_ok {s t : State} {a : Addr} (hlt : ∀ d, s.memAllocated d < 2 ^ 64)
    (hle : ∀ desc, s.heap a = some desc → ∀ d,
      s.chunkSize * onNode d desc.allocList ≤ s.memAllocated d)
    (h : contigFree s a = .ok t) :
    ∃ desc, s.heap a = some desc ∧ t = unpublish s a desc := by
  rw [contigFree] at h
  cases ha : s.heap a with
  | none => simp [ha] at h
  | some desc =>
    simp only [ha] at h
    obtain ⟨hv, -⟩ := foldl_freeChunk desc.allocList s 0 hlt (hle desc ha)
    split at h
    · simp at h
    · refine ⟨desc, rfl, ?_⟩
      simp only [Except.ok.injEq] at h
      rw [← h, hv]
      rfl

end Free

end EspDrivers.ContigAlloc
