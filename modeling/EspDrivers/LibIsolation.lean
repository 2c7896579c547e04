import EspDrivers.LibMappings
import EspDrivers.LibCopy

/-! Every live buffer stays mapped where contig_mmap put it, and no byte of memory is
part of two of them. So over every run of the library a copy reads what was last written
to the same place of the same buffer. -/
namespace EspDrivers.LibContig
open ContigAlloc Mapping MappedStore Trace

def layout (s0 : State) : Placement Req Nat where
  size h := h.n * s0.chunkSize
  place h := bytePlace (s0.chunkSize / pageSize) h.arr

/-- The live buffers are mapped, each in an address range of its own. -/
structure Backed (s0 : State) (s : Proc) : Prop where
  tracked : Tracked s0 s
  apart : Apart s.regions
  mapped : Contains s.vm s.regions
  low : ∀ h ∈ s.handles, h.mm + s0.chunkSize / pageSize * h.n < 2 ^ 51

structure Isolated (s0 : State) (u : User) : Prop where
  backed : Backed s0 u.proc
  holds : Holds (layout s0) u.proc.handles u.mem u.journal
  coherent : Coherent u.journal

section Steps
variable {p : Insmod} {o : InitCalls} {s0 : State} {s t : Proc} {u : User} {h q : Req}

section Places

theorem page_of_byte (hinit : ContigAlloc.contigInit p o = .ok s0) {i n : Nat}
    (hi : i < n * s0.chunkSize) : i / pageSize < s0.chunkSize / pageSize * n := by
  refine (Nat.div_lt_iff_lt_mul (by decide)).mpr ?_
  rwa [Nat.mul_right_comm, (chunkSize_pos hinit).2.1, Nat.mul_comm]

theorem bytes_low (hinit : ContigAlloc.contigInit p o = .ok s0) (hs : Backed s0 s)
    (hh : h ∈ s.handles) : h.mm * pageSize + h.n * s0.chunkSize < 2 ^ 63 := by
  have hlow := hs.low h hh
  have hlen : h.n * s0.chunkSize = s0.chunkSize / pageSize * h.n * pageSize := by
    rw [Nat.mul_right_comm, (chunkSize_pos hinit).2.1, Nat.mul_comm]
  generalize s0.chunkSize / pageSize * h.n = m at hlow hlen
  rw [hlen, ← Nat.add_mul, pageSize]
  omega

theorem addr_place (hinit : ContigAlloc.contigInit p o = .ok s0) (hs : Backed s0 s)
    (hh : h ∈ s.handles) {i : Nat} (hi : i < h.n * s0.chunkSize) :
    s.addr (h.mm * pageSize + i) = some ((layout s0).place h i) := by
  have hlow := bytes_low hinit hs hh
  have hpage := page_of_byte hinit hi
  have hword : ulong (h.mm * pageSize + i) = i + h.mm * pageSize := by
    rw [ulong, Nat.mod_eq_of_lt (by omega), Nat.add_comm]
  have hdiv : (i + h.mm * pageSize) / pageSize = h.mm + i / pageSize := by
    rw [Nat.add_mul_div_right _ _ (by decide), Nat.add_comm]
  have hinside : h.mm ≤ h.mm + i / pageSize ∧
      h.mm + i / pageSize < h.mm + s0.chunkSize / pageSize * h.n :=
    ⟨Nat.le_add_right _ _, Nat.add_lt_add_left hpage _⟩
  have hregion : h.region (s0.chunkSize / pageSize) ∈ s.regions := by
    rw [hs.tracked.regions]
    exact List.mem_map_of_mem hh
  have hvm := hs.mapped _ hregion (h.mm + i / pageSize) _
    (@Region.lookup_inside _ (h.region (s0.chunkSize / pageSize)) _ hinside)
  have hback : h.mm + i / pageSize - h.mm = i / pageSize := Nat.add_sub_cancel_left _ _
  rw [Proc.addr, hword, hdiv, hvm, Nat.add_mul_mod_self_right, Option.map_some]
  simp only [Req.region, hback]
  rfl

theorem split_byte {f g i j : Nat} (he : f * pageSize + i % pageSize = g * pageSize + j % pageSize) :
    f = g ∧ i % pageSize = j % pageSize := by
  simp only [pageSize] at he ⊢
  omega

theorem place_inj (hinit : ContigAlloc.contigInit p o = .ok s0) (hr : RegionsApart s0) {k : Sys}
    (hk : FilesOk s0 k) {a b : Addr} {desc desc' : Desc} {i j : Nat}
    (ha : k.alloc.heap a = some desc) (hb : k.alloc.heap b = some desc')
    (hi : i < desc.arr.length * s0.chunkSize) (hj : j < desc'.arr.length * s0.chunkSize)
    (he : bytePlace (s0.chunkSize / pageSize) desc.arr i =
      bytePlace (s0.chunkSize / pageSize) desc'.arr j) : a = b ∧ i = j := by
  have hpages := (chunkSize_pos hinit).1
  have hchunk {n i : Nat} (hi : i < n * s0.chunkSize) :
      i / pageSize / (s0.chunkSize / pageSize) < n := by
    refine (Nat.div_lt_iff_lt_mul hpages).mpr ?_
    rw [Nat.mul_comm]
    exact page_of_byte hinit hi
  have hx := List.getElem?_eq_getElem (hchunk hi)
  have hy := List.getElem?_eq_getElem (hchunk hj)
  simp only [bytePlace, List.getD_eq_getElem?_getD, hx, hy, Option.getD_some] at he
  obtain ⟨hframe, hbyte⟩ := split_byte he
  obtain ⟨hsame, hpage⟩ := frame_inj hinit hr hk ha hb hx hy (Nat.mod_lt _ hpages)
    (Nat.mod_lt _ hpages) hframe
  obtain ⟨hab, hchunks⟩ := Prod.mk.inj hsame
  have hpages' : i / pageSize = j / pageSize := by
    rw [← Nat.div_add_mod (i / pageSize) (s0.chunkSize / pageSize), hchunks, hpage, Nat.div_add_mod]
  refine ⟨hab, ?_⟩
  rw [← Nat.div_add_mod i pageSize, hpages', hbyte, Nat.div_add_mod]

theorem Tracked.inBuffer (hs : Tracked s0 s) (hh : h ∈ s.handles) {i : Nat}
    (hi : i < h.n * s0.chunkSize) : ∃ desc, s.kernel.alloc.heap h.khandle = some desc ∧
      desc.arr = h.arr ∧ i < desc.arr.length * s0.chunkSize := by
  obtain ⟨desc, hdesc, harr⟩ := hs.live h hh
  refine ⟨desc, hdesc, harr, ?_⟩
  rwa [harr, (hs.table h hh).2]

theorem Backed.separate (hinit : ContigAlloc.contigInit p o = .ok s0) (hr : RegionsApart s0)
    (hs : Backed s0 s) : (layout s0).Separate s.handles := by
  intro x hx y hy i j hi hj he
  obtain ⟨desc, hdesc, harr, hi'⟩ := hs.tracked.inBuffer hx hi
  obtain ⟨desc', hdesc', harr', hj'⟩ := hs.tracked.inBuffer hy hj
  have hsame : bytePlace (s0.chunkSize / pageSize) desc.arr i =
      bytePlace (s0.chunkSize / pageSize) desc'.arr j := by
    rw [harr, harr']
    exact he
  obtain ⟨hk, hij⟩ := place_inj hinit hr hs.tracked.files hdesc hdesc' hi' hj' hsame
  exact ⟨List.inj_on_of_nodup_map hs.tracked.distinct hx hy hk, hij⟩

end Places

section Processes

theorem Backed.same (hs : Backed s0 s) (ht : Tracked s0 t) (hvm : t.vm = s.vm)
    (hh : t.handles = s.handles) : Backed s0 t := by
  have hregions := hs.tracked.regions_same ht hh
  refine ⟨ht, ?_, ?_, ?_⟩
  · rw [hregions]
    exact hs.apart
  · rw [hregions, hvm]
    exact hs.mapped
  · rw [hh]
    exact hs.low

theorem Backed.init (hinit : ContigAlloc.contigInit p o = .ok s0) (hs : Backed s0 s)
    (c : InitOutcome) : Backed s0 (contigInit s c).1 :=
  hs.same (contigInit_tracked hinit hs.tracked c) (contigInit_vm s c) (contigInit_handles s c)

theorem Backed.alloc {f : FileId} {req : Option AllocReq} {k : Sys} {m : Kmalloc} {c : UserCopies}
    {r : AllocReply} {mp : Mmap} {base : Nat} {vm : Nat → Option Nat}
    (hinit : ContigAlloc.contigInit p o = .ok s0) (hs : Backed s0 s)
    (hf : s.fds.lookup s.fd = some f) (hzero : s.chunkSize ≠ 0)
    (hk : contigAllocIoctl s.kernel f req m c = .ok (k, .ok r))
    (hmm : mmap k f s.vm (ulong (r.n * s.chunkSize)) (r.arr.headD 0) mp = .ok (some (base, vm))) :
    Backed s0 (s.hold k vm (Req.ofReply base r)) := by
  obtain ⟨hnew, hvm, hfresh, hlow⟩ := hs.tracked.mapped hinit hf hzero hk hmm
  have hregions := regions_hold hs.tracked hnew
  refine ⟨hnew, ?_, ?_, ?_⟩
  · rw [hregions]
    exact hs.apart.cons hs.mapped hfresh
  · rw [hregions]
    change Contains vm _
    rw [hvm]
    exact hs.mapped.cons hfresh
  · intro q hq
    cases List.mem_cons.mp hq with
    | inl he =>
      rw [he]
      exact hlow
    | inr hmem => exact hs.low q hmem

theorem Backed.free {c : FreeCalls} (hinit : ContigAlloc.contigInit p o = .ok s0)
    (hs : Backed s0 s) (hh : h ∈ s.handles) (hc : contigFree s h c = .ok t) : Backed s0 t := by
  obtain ⟨ht, hhs, hvm⟩ := contigFree_some hinit hs.tracked hh hc
  have hperm := regions_perm hs.tracked hh
  have hregions : t.regions = (s.handles.erase h).map (Req.region (s0.chunkSize / pageSize)) := by
    rw [ht.regions, hhs]
  have hpart : (if c.munmapOk then s0.chunkSize / pageSize else 0) ≤
      (h.region (s0.chunkSize / pageSize)).size := by
    change _ ≤ s0.chunkSize / pageSize * h.n
    split
    · exact Nat.le_mul_of_pos_right _ (hs.tracked.table h hh).1
    · exact Nat.zero_le _
  refine ⟨ht, ?_, ?_, ?_⟩
  · rw [hregions]
    exact (List.pairwise_cons.mp (hs.apart.perm hperm)).2
  · rw [hregions, hvm]
    exact (hs.mapped.perm hperm).unmap (hs.apart.perm hperm) hpart
  · intro q hq
    rw [hhs] at hq
    exact hs.low q (List.mem_of_mem_erase hq)

end Processes

section Copies
variable {offset : Nat} {c : InitOutcome}

theorem User.Inside.bound (hs : Backed s0 u.proc) {size : Nat} (hin : u.Inside h offset size) :
    offset + size ≤ (layout s0).size h := by
  rw [layout, ← hs.tracked.equal (List.ne_nil_of_mem hin.1)]
  exact hin.2

theorem inside_addr (hinit : ContigAlloc.contigInit p o = .ok s0) (hs : Backed s0 u.proc)
    {size : Nat} (hin : u.Inside h offset size) {i : Nat} (hi : i < size) :
    (contigInit u.proc c).1.addr (h.mm * pageSize + offset + i) =
      some ((layout s0).place h (offset + i)) := by
  have hh : h ∈ (contigInit u.proc c).1.handles := by
    rw [contigInit_handles]
    exact hin.1
  have hbound : offset + size ≤ h.n * s0.chunkSize := hin.bound hs
  rw [Nat.add_assoc]
  exact addr_place hinit (hs.init hinit c) hh (by omega)

theorem inside_passes (hinit : ContigAlloc.contigInit p o = .ok s0) (hs : Backed s0 u.proc)
    {size : Nat} (hin : u.Inside h offset size) :
    ¬ ulong (h.n * (contigInit u.proc c).1.chunkSize) < ulong (offset + size) := by
  have hs1 := hs.init hinit c
  have hne : (contigInit u.proc c).1.handles ≠ [] := by
    rw [contigInit_handles]
    exact List.ne_nil_of_mem hin.1
  have hbound : offset + size ≤ h.n * s0.chunkSize := hin.bound hs
  have hlow := bytes_low hinit hs hin.1
  rw [hs1.tracked.equal hne, ulong, ulong, Nat.mod_eq_of_lt (by omega), Nat.mod_eq_of_lt (by omega)]
  omega

theorem contigCopy_init {vaddr : List Byte} {toContig : Bool} {r : User × List Byte}
    (h : contigCopy u h offset vaddr toContig c = .ok r) : (contigInit u.proc c).2 = true := by
  rw [contigCopy] at h
  cases hok : contigInit u.proc c with
  | mk s ok =>
    cases ok with
    | true => rfl
    | false => simp [hok] at h

theorem contigCopy_to (hinit : ContigAlloc.contigInit p o = .ok s0) (hr : RegionsApart s0)
    (hs : Backed s0 u.proc) {fr : List Byte} (hin : u.Inside h offset fr.length)
    (hok : (contigInit u.proc c).2 = true) : ∃ mem,
    contigCopy u h offset fr true c =
      .ok ({ u with proc := (contigInit u.proc c).1, mem := mem }, fr) ∧
    Written u.mem mem (fun i => (layout s0).place h (offset + i)) fr := by
  have hbound := hin.bound hs
  obtain ⟨mem, hstore, hw⟩ := @store_placed Nat Byte (contigInit u.proc c).1.addr
    (fun i => (layout s0).place h (offset + i)) u.mem _ (h.mm * pageSize + offset) fr
    (fun i hi => inside_addr hinit hs hin hi) (by
      intro i j hi hj he
      have hij := (hs.separate hinit hr h hin.1 h hin.1 _ _ (by omega) (by omega) he).2
      exact Nat.add_left_cancel hij)
  refine ⟨mem, ?_, hw⟩
  simp [contigCopy, hok, inside_passes hinit hs hin, hstore]

theorem contigCopy_from (hinit : ContigAlloc.contigInit p o = .ok s0) (hs : Backed s0 u.proc)
    {dest : List Byte} (hin : u.Inside h offset dest.length) (hok : (contigInit u.proc c).2 = true) :
    contigCopy u h offset dest false c = .ok ({ u with proc := (contigInit u.proc c).1 },
      (List.range dest.length).map fun i => u.mem ((layout s0).place h (offset + i))) := by
  have hload := @load_placed Nat Byte (contigInit u.proc c).1.addr
    (fun i => (layout s0).place h (offset + i)) u.mem (h.mm * pageSize + offset) dest.length
    (fun i hi => inside_addr hinit hs hin hi)
  simp [contigCopy, hok, inside_passes hinit hs hin, hload]

theorem Isolated.copyTo {fr : List Byte} {u' : User} (hinit : ContigAlloc.contigInit p o = .ok s0)
    (hr : RegionsApart s0) (hu : Isolated s0 u) (hin : u.Inside h offset fr.length)
    (hc : contigCopyTo u h offset fr c = .ok u') :
    Isolated s0 { u' with journal := .wrote h offset fr :: u'.journal } := by
  obtain ⟨r, hcopy, rfl⟩ := map_ok.mp hc
  obtain ⟨mem, hval, hw⟩ := contigCopy_to hinit hr hu.backed hin (contigCopy_init hcopy)
  obtain rfl := Except.ok.inj (hval.symm.trans hcopy)
  refine ⟨hu.backed.init hinit c, ?_, ?_⟩
  · have hh := contigInit_handles u.proc c
    dsimp only
    rw [hh]
    exact hu.holds.wrote (hu.backed.separate hinit hr) hin.1 (hin.bound hu.backed) hw
  · apply hu.coherent.cons
    rintro x start bs he
    cases he

theorem Isolated.copyFrom {dest bytes : List Byte} {u' : User}
    (hinit : ContigAlloc.contigInit p o = .ok s0) (hu : Isolated s0 u)
    (hin : u.Inside h offset dest.length)
    (hc : contigCopyFrom u dest h offset c = .ok (u', bytes)) :
    bytes.length = dest.length ∧
      Isolated s0 { u' with journal := .read h offset bytes :: u'.journal } := by
  have hval := contigCopy_from hinit hu.backed hin (contigCopy_init hc)
  obtain ⟨rfl, rfl⟩ := Prod.mk.inj (Except.ok.inj (hval.symm.trans hc))
  refine ⟨by simp, hu.backed.init hinit c, ?_, ?_⟩
  · have hh := contigInit_handles u.proc c
    dsimp only
    rw [hh]
    exact hu.holds.read _ _
  · exact hu.holds.coherent hu.coherent hin.1 (hin.bound hu.backed)

end Copies

section Accessors
variable {w : Nat} {b : Bool}

theorem length_toBytes (val : BitVec (8 * w)) : (toBytes b w val).length = w := by
  cases b <;> simp [toBytes]

theorem ofBytes_toBytes (val : BitVec (8 * w)) : ofBytes b w (toBytes b w val) = val := by
  have hbytes : (if b then (toBytes b w val).reverse else toBytes b w val) =
      (List.range w).map fun k => val.extractLsb' (8 * k) 8 := by
    cases b <;> simp [toBytes]
  apply BitVec.eq_of_getLsbD_eq
  intro i hi
  have hlt : i / 8 < w := by omega
  have hbit : i % 8 < 8 := Nat.mod_lt i (by decide)
  rw [ofBytes, hbytes, BitVec.getLsbD_ofFnLE, dif_pos hi]
  simp [hlt, hbit, Nat.div_add_mod]

theorem toBytes_ofBytes {bytes : List Byte} (h : bytes.length = w) :
    toBytes b w (ofBytes b w bytes) = bytes := by
  have hle (le : List Byte) (hlen : le.length = w) : ((List.range w).map fun k =>
      (BitVec.ofFnLE fun i : Fin (8 * w) => (le.getD (i / 8) 0).getLsbD (i % 8)).extractLsb' (8 * k) 8) =
        le := by
    apply List.ext_getElem
    · simp [hlen]
    · intro k hk hk'
      apply BitVec.eq_of_getLsbD_eq
      intro j hj
      have hdiv : (8 * k + j) / 8 = k := by omega
      have hmod : (8 * k + j) % 8 = j := by omega
      have hin : 8 * k + j < 8 * w := by omega
      simp [hj, hin, hdiv, hmod, hk']
  cases b with
  | false => exact hle bytes h
  | true =>
    have hrev := hle bytes.reverse (by simpa using h)
    exact (congrArg List.reverse hrev).trans (List.reverse_reverse bytes)

end Accessors

section Runs

/-- Only the accesses themselves touch memory and the journal. -/
theorem Isolated.proc (hu : Isolated s0 u) (ht : Backed s0 t)
    (hsub : ∀ h ∈ t.handles, h ∈ u.proc.handles) : Isolated s0 { u with proc := t } :=
  ⟨ht, hu.holds.subset hsub, hu.coherent⟩

theorem Isolated.fresh (hinit : ContigAlloc.contigInit p o = .ok s0) (hu : Isolated s0 u)
    (ht : Backed s0 t) (hh : t.handles = h :: u.proc.handles) :
    Isolated s0 (u.allocated t (some h)) := by
  refine ⟨ht, ?_, ?_⟩
  · change Holds (layout s0) t.handles u.mem _
    rw [hh]
    apply hu.holds.fresh
    intro i hi
    have hmem : h ∈ t.handles := by
      rw [hh]
      exact List.mem_cons_self
    rw [addr_place hinit ht hmem hi, Option.map_some]
  · apply hu.coherent.cons
    rintro x start bs he
    cases he

theorem Backed.allocPolicy {params : Params} {size : Nat} {c : AllocCalls} {r : Option Req}
    (hinit : ContigAlloc.contigInit p o = .ok s0) (hs : Backed s0 s)
    (hc : contigAllocPolicy s params size c = .ok (t, r)) : Backed s0 t := by
  have hs1 := hs.init hinit c.init
  cases contigAllocPolicy_exit hc with
  | early => exact hs1
  | refused heq hf hk =>
    rw [heq] at hs1
    exact hs1.same (hs1.tracked.alloc (small_init hinit) hf hk) rfl rfl
  | unmapped heq hzero hcalloc hf hk hmm =>
    rw [heq] at hs1
    exact hs1.same (hs1.tracked.alloc (small_init hinit) hf hk) rfl rfl
  | mapped heq hzero hf hk hmm =>
    rw [heq] at hs1
    exact hs1.alloc hinit hf hzero hk hmm

theorem Isolated.allocPolicy {params : Params} {size : Nat} {c : AllocCalls} {r : Option Req}
    (hinit : ContigAlloc.contigInit p o = .ok s0) (hu : Isolated s0 u)
    (hc : contigAllocPolicy u.proc params size c = .ok (t, r)) : Isolated s0 (u.allocated t r) := by
  have hb := hu.backed.allocPolicy hinit hc
  have hhs := contigInit_handles u.proc c.init
  have hkept {s1 s2 : Proc} (hs2 : s2.handles = s1.handles) (hs1 : s1.handles = u.proc.handles) :
      ∀ h ∈ s2.handles, h ∈ u.proc.handles := by
    intro h hh
    rwa [hs2, hs1] at hh
  cases contigAllocPolicy_exit hc with
  | early => exact hu.proc hb (hkept rfl hhs)
  | refused heq hf hk =>
    rw [heq] at hhs
    exact hu.proc hb (hkept rfl hhs)
  | unmapped heq hzero hcalloc hf hk hmm =>
    rw [heq] at hhs
    exact hu.proc hb (hkept rfl hhs)
  | mapped heq hzero hf hk hmm =>
    rw [heq] at hhs
    exact hu.fresh hinit hb (congrArg _ hhs)

theorem Isolated.otherWrite {f : FileId} {khandle : Addr} {desc : Desc} {offset : Nat} {b : Byte}
    (hinit : ContigAlloc.contigInit p o = .ok s0) (hr : RegionsApart s0) (hu : Isolated s0 u)
    (hf : f ∉ u.proc.fds.map Prod.snd) (hmem : khandle ∈ descsOf u.proc.kernel f)
    (hdesc : u.proc.kernel.alloc.heap khandle = some desc) (hlt : offset < desc.n * s0.chunkSize) :
    Isolated s0 { u with
      mem := Function.update u.mem (bytePlace (s0.chunkSize / pageSize) desc.arr offset) b } := by
  have ht := hu.backed.tracked
  refine ⟨hu.backed, ?_, hu.coherent⟩
  apply hu.holds.frame
  intro h hh i hi
  obtain ⟨d, hd, harr, hi'⟩ := ht.inBuffer hh hi
  obtain ⟨g, hg, hgmem⟩ := ht.mine h hh
  obtain ⟨cs, hn, hcs, -⟩ := ht.files.books.filled khandle desc hdesc
  have hlen : offset < desc.arr.length * s0.chunkSize := by
    rwa [hcs, List.length_map, ← hn]
  have hne : (layout s0).place h i ≠ bytePlace (s0.chunkSize / pageSize) desc.arr offset := by
    intro he
    have hplace : bytePlace (s0.chunkSize / pageSize) d.arr i =
        bytePlace (s0.chunkSize / pageSize) desc.arr offset := by
      rw [harr]
      exact he
    have hsame := (place_inj hinit hr ht.files hd hdesc hi' hlen hplace).1
    rw [hsame] at hgmem
    exact hf (ht.files.one f g khandle hmem hgmem ▸ hg)
  dsimp only
  rw [Function.update_of_ne hne]

theorem toOption_map {ε α β : Type} {x : Except ε α} {f : α → β} {y : β}
    (h : x.toOption.map f = some y) : ∃ a, x = .ok a ∧ f a = y := by
  cases x with
  | error e => cases h
  | ok a => exact ⟨a, rfl, Option.some.inj h⟩

theorem userStep_keeps {a : Access} {u' : User} (hinit : ContigAlloc.contigInit p o = .ok s0)
    (hr : RegionsApart s0) (hu : Isolated s0 u) (hin : InBounds u a)
    (hstep : userStep u a = some u') : Isolated s0 u' := by
  cases a with
  | alloc size c =>
    obtain ⟨⟨t, r⟩, hc, rfl⟩ := toOption_map hstep
    exact hu.allocPolicy hinit hc
  | allocPolicy params size c =>
    obtain ⟨⟨t, r⟩, hc, rfl⟩ := toOption_map hstep
    exact hu.allocPolicy hinit hc
  | free h c =>
    obtain ⟨t, hc, rfl⟩ := Option.map_eq_some_iff.mp hstep
    cases step_move hc with
    | free hh hfree =>
      apply hu.proc (hu.backed.free hinit hh hfree)
      intro q hq
      rw [(contigFree_some hinit hu.backed.tracked hh hfree).2.1] at hq
      exact List.mem_of_mem_erase hq
  | copyTo h offset fr c =>
    obtain ⟨t, hc, rfl⟩ := toOption_map hstep
    exact hu.copyTo hinit hr hin hc
  | copyFrom dest h offset c =>
    obtain ⟨⟨t, bytes⟩, hc, rfl⟩ := toOption_map hstep
    exact (hu.copyFrom hinit hin hc).2
  | write w val h offs c =>
    obtain ⟨t, hc, rfl⟩ := toOption_map hstep
    exact hu.copyTo hinit hr (by rwa [length_toBytes]) hc
  | read w h offs c =>
    obtain ⟨⟨t, val⟩, hc, rfl⟩ := toOption_map hstep
    obtain ⟨⟨t', bytes⟩, hcopy, heq⟩ := map_ok.mp hc
    obtain ⟨rfl, rfl⟩ := Prod.mk.inj heq
    obtain ⟨hlen, hkeep⟩ := hu.copyFrom hinit (by rwa [List.length_replicate]) hcopy
    rw [List.length_replicate] at hlen
    dsimp only
    rw [toBytes_ofBytes hlen]
    exact hkeep
  | other call =>
    obtain ⟨t, hc, rfl⟩ := Option.map_eq_some_iff.mp hstep
    cases step_move hc with
    | other hnot hk heq =>
      rw [heq]
      have ht := hu.backed.tracked.other (small_init hinit) hnot hk
      exact hu.proc (hu.backed.same ht rfl rfl) (fun _ hh => hh)
  | otherWrite f khandle offset b =>
    simp only [userStep] at hstep
    split at hstep
    · cases hstep
    next hmem =>
    obtain ⟨desc, hdesc, hval⟩ := Option.bind_eq_some_iff.mp hstep
    split at hval
    · cases hval
    next hlt =>
    obtain rfl := Option.some.inj hval
    rw [hu.backed.tracked.files.books.chunkSize] at hlt ⊢
    push Not at hmem hlt
    exact hu.otherWrite hinit hr hmem.1 hmem.2 hdesc hlt

theorem isolated_start (hinit : ContigAlloc.contigInit p o = .ok s0) (mem : Nat → Byte) (b : Bool) :
    Isolated s0 (User.start s0 mem b) := by
  refine ⟨⟨tracked_start hinit, List.Pairwise.nil, ?_, ?_⟩, holds_nil _ _ _, coherent_nil⟩
  · intro r hr
    cases hr
  · intro h hh
    cases hh

theorem isolated_run (hinit : ContigAlloc.contigInit p o = .ok s0) (hr : RegionsApart s0)
    (mem : Nat → Byte) (bigEndian : Bool) {as : List Access}
    (hrun : run userStep (User.start s0 mem bigEndian) as = some u)
    (hin : Along userStep InBounds (User.start s0 mem bigEndian) as) : Isolated s0 u :=
  run_induct InBounds (fun _ _ _ hu hin hstep => userStep_keeps hinit hr hu hin hstep)
    (isolated_start hinit mem bigEndian) hin hrun

/-- Over every run of allocations, copies inside live buffers and frees, in which other
processes use buffers of their own, each byte read is the one last written at that offset
of that buffer. Nothing but contig_init keeps such a copy from returning. -/
theorem buffers_isolated (hinit : ContigAlloc.contigInit p o = .ok s0) (hr : RegionsApart s0)
    (mem : Nat → Byte) (bigEndian : Bool) {as : List Access}
    (hrun : run userStep (User.start s0 mem bigEndian) as = some u)
    (hin : Along userStep InBounds (User.start s0 mem bigEndian) as) :
    Coherent u.journal ∧
    ∀ h offset vaddr toContig c, u.Inside h offset vaddr.length →
      (LibContig.contigInit u.proc c).2 = true →
        ∃ r, contigCopy u h offset vaddr toContig c = .ok r := by
  have hu := isolated_run hinit hr mem bigEndian hrun hin
  refine ⟨hu.coherent, ?_⟩
  intro h offset vaddr toContig c hinside hok
  cases toContig with
  | true =>
    obtain ⟨mem', hcopy, -⟩ := contigCopy_to hinit hr hu.backed hinside hok
    exact ⟨_, hcopy⟩
  | false => exact ⟨_, contigCopy_from hinit hu.backed hinside hok⟩

theorem Isolated.read_write {w offs : Nat} {val : BitVec (8 * w)} {c c' : InitOutcome} {u' : User}
    (hinit : ContigAlloc.contigInit p o = .ok s0) (hr : RegionsApart s0) (hu : Isolated s0 u)
    (hin : u.Inside h offs w) (hw : contigWrite w u val h offs c = .ok u')
    (hok : (LibContig.contigInit u'.proc c').2 = true) :
    ∃ v, contigRead w u' h offs c' = .ok (v, val) := by
  have hlen : (toBytes u.bigEndian w val).length = w := length_toBytes val
  obtain ⟨r, hcopy, rfl⟩ := map_ok.mp hw
  obtain ⟨mem, hval, hwritten⟩ := contigCopy_to hinit hr hu.backed (by rwa [hlen]) (contigCopy_init hcopy)
  obtain rfl := Except.ok.inj (hval.symm.trans hcopy)
  have hs' := hu.backed.init hinit c
  have hhs := contigInit_handles u.proc c
  have hne : u.proc.handles ≠ [] := List.ne_nil_of_mem hin.1
  have hin' : (⟨(LibContig.contigInit u.proc c).1, mem, u.bigEndian, u.journal⟩ : User).Inside h offs
      (List.replicate w (0 : Byte)).length := by
    refine ⟨by rw [hhs]; exact hin.1, ?_⟩
    rw [List.length_replicate, hs'.tracked.equal (by rwa [hhs])]
    exact hin.bound hu.backed
  have hread := contigCopy_from hinit hs' hin' hok
  have hbytes : ((List.range w).map fun i => mem ((layout s0).place h (offs + i))) =
      toBytes u.bigEndian w val := by
    apply List.ext_getElem
    · simp [hlen]
    · intro i hi hi'
      have hinside := hwritten.inside i hi'
      rw [List.getElem?_eq_getElem hi'] at hinside
      simpa using (Option.some.inj hinside).symm
  rw [List.length_replicate] at hread
  dsimp only at hread hok
  rw [hbytes] at hread
  have hnumber := ofBytes_toBytes (b := u.bigEndian) val
  refine ⟨⟨(LibContig.contigInit (LibContig.contigInit u.proc c).1 c').1, mem, u.bigEndian, u.journal⟩, ?_⟩
  simp only [contigRead, contigCopyFrom, hread, Except.map, hnumber]

/-- What libtest.c checks of each number it writes: at any offset inside a live buffer, after any
run, the number is read back. -/
theorem contigRead_contigWrite {w offs : Nat} {val : BitVec (8 * w)} {c c' : InitOutcome}
    {u' : User}
    (hinit : ContigAlloc.contigInit p o = .ok s0) (hr : RegionsApart s0) (mem : Nat → Byte)
    (bigEndian : Bool) {as : List Access}
    (hrun : run userStep (User.start s0 mem bigEndian) as = some u)
    (hin : Along userStep InBounds (User.start s0 mem bigEndian) as) (hinside : u.Inside h offs w)
    (hw : contigWrite w u val h offs c = .ok u')
    (hok : (LibContig.contigInit u'.proc c').2 = true) :
    ∃ v, contigRead w u' h offs c' = .ok (v, val) :=
  (isolated_run hinit hr mem bigEndian hrun hin).read_write hinit hr hinside hw hok

end Runs

end Steps

section Instance

def initOk : InitOutcome := ⟨openThree, true⟩

theorem buffers_isolated_straddling : ∃ u,
    run userStep (User.start (initState smallInsmod) (fun _ => 0) false) [.alloc 8192 allocOk,
      .write 4 0xdeadface (firstHandle 2) 4094 initOk, .read 4 (firstHandle 2) 4094 initOk] = some u ∧
      u.journal.length = 3 ∧ Coherent u.journal := by
  have h : ∃ u, run userStep (User.start (initState smallInsmod) (fun _ => 0) false)
      [.alloc 8192 allocOk, .write 4 0xdeadface (firstHandle 2) 4094 initOk,
        .read 4 (firstHandle 2) 4094 initOk] = some u ∧
      u.journal.length = 3 := ⟨_, rfl, rfl⟩
  obtain ⟨u, hr, hlen⟩ := h
  have hin : Along userStep InBounds (User.start (initState smallInsmod) (fun _ => 0) false)
      [.alloc 8192 allocOk, .write 4 0xdeadface (firstHandle 2) 4094 initOk,
        .read 4 (firstHandle 2) 4094 initOk] := by decide +kernel
  have hap : RegionsApart (initState smallInsmod) := ⟨by decide, by decide⟩
  exact ⟨u, hr, hlen, (buffers_isolated contigInit_small hap _ _ hr hin).1⟩

theorem contigRead_contigWrite_straddling : ∃ u u' v,
    run userStep (User.start (initState smallInsmod) (fun _ => 0) true) [.alloc 8192 allocOk] =
      some u ∧ contigWrite32 u 0xdeadface (firstHandle 2) 4094 initOk = .ok u' ∧
      contigRead32 u' (firstHandle 2) 4094 initOk = .ok (v, 0xdeadface) := by
  have h : ∃ u u', run userStep (User.start (initState smallInsmod) (fun _ => 0) true)
      [.alloc 8192 allocOk] = some u ∧ u.Inside (firstHandle 2) 4094 4 ∧
      contigWrite 4 u 0xdeadface (firstHandle 2) 4094 initOk = .ok u' ∧
      (LibContig.contigInit u'.proc initOk).2 = true := ⟨_, _, rfl, by decide, rfl, rfl⟩
  obtain ⟨u, u', hr, hinside, hw, hok⟩ := h
  have hin : Along userStep InBounds (User.start (initState smallInsmod) (fun _ => 0) true)
      [.alloc 8192 allocOk] := by decide +kernel
  have hap : RegionsApart (initState smallInsmod) := ⟨by decide, by decide⟩
  obtain ⟨v, hv⟩ := contigRead_contigWrite contigInit_small hap _ _ hr hin hinside hw hok
  exact ⟨u, u', v, hr, hw, hv⟩

end Instance

end EspDrivers.LibContig
