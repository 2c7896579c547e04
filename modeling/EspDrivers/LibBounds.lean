import EspDrivers.LibIsolation

/-! The guard of contig_copy adds two words before it compares: a copy leaves its buffer
exactly when the sum of offset and size wraps to a length that the buffer has. -/
namespace EspDrivers.LibContig
open ContigAlloc Mapping MappedStore Trace

def User.place (u : User) (h : Req) (i : Nat) : Nat := bytePlace u.proc.chunkPages h.arr i

/-- The only bytes touched are `offset .. offset + size - 1` of the buffer, as unbounded
integers. -/
def User.Touches (u : User) (h : Req) (offset size : Nat) (mem : Nat → Byte) : Prop :=
  offset + size ≤ h.n * u.proc.chunkSize ∧
    ∀ a, (∀ i, i < size → u.place h (offset + i) ≠ a) → mem a = u.mem a

/-- A copy to the buffer aborts or touches its own bytes only. -/
def User.WritesInside (u : User) (h : Req) (offset size : Nat) (r : Except CopyCrash User) : Prop :=
  r = .error .abort ∨ ∃ t, r = .ok t ∧ u.Touches h offset size t.mem

/-- A copy from the buffer aborts or depends on its own bytes only, through `view`. -/
def User.ReadsInside {α : Type} (u : User) (h : Req) (offset size : Nat) (view : List Byte → α)
    (r : Except CopyCrash (User × α)) : Prop :=
  r = .error .abort ∨
    ∃ t, r = .ok (t, view ((List.range size).map fun i => u.mem (u.place h (offset + i)))) ∧
    offset + size ≤ h.n * u.proc.chunkSize ∧ t.mem = u.mem

/-- contig_init has no descriptor yet and cannot get one that answers. -/
def InitFails (s : Proc) (c : InitOutcome) : Prop :=
  s.fd = 0 ∧ (c.opener.pick s.fds s.kernel.files = none ∨ c.putUser = false)

/-- The sum of the guard does not wrap, or wraps to more than the buffer has. -/
def User.SumChecked (u : User) (h : Req) (offset size : Nat) : Prop :=
  offset + size < 2 ^ 64 ∨ h.n * u.proc.chunkSize < offset + size - 2 ^ 64

section Steps
variable {p : Insmod} {o : InitCalls} {s0 : State} {s t : Proc} {u u' : User} {h : Req}
  {offset : Nat} {c : InitOutcome}

section Runs

theorem contigInit_fails (s : Proc) (c : InitOutcome) :
    (LibContig.contigInit s c).2 = false ↔ InitFails s c := by
  by_cases hfd : s.fd = 0
  · cases hpick : c.opener.pick s.fds s.kernel.files with
    | none => simp [LibContig.contigInit, InitFails, hfd, hpick]
    | some r =>
      cases hput : c.putUser with
      | false => simp [LibContig.contigInit, InitFails, hfd, hpick, hput, contigChunkSizeIoctl]
      | true => simp [LibContig.contigInit, InitFails, hfd, hpick, hput, contigChunkSizeIoctl]
  · simp [LibContig.contigInit, InitFails, hfd]

theorem contigCopy_proc {vaddr : List Byte} {toContig : Bool} {r : User × List Byte}
    (hc : contigCopy u h offset vaddr toContig c = .ok r) :
    r.1.proc = (LibContig.contigInit u.proc c).1 := by
  simp only [contigCopy] at hc
  split at hc
  · cases hc
  split at hc
  · cases hc
  split at hc
  · split at hc
    · cases hc
    · cases hc
      rfl
  · split at hc
    · cases hc
    · cases hc
      rfl

theorem userStep_backed {a : Access} (hinit : ContigAlloc.contigInit p o = .ok s0)
    (hs : Backed s0 u.proc) (hstep : userStep u a = some u') : Backed s0 u'.proc := by
  have hcopy {h : Req} {offset : Nat} {vaddr : List Byte} {toContig : Bool} {c : InitOutcome}
      {r : User × List Byte} (hc : contigCopy u h offset vaddr toContig c = .ok r) :
      Backed s0 r.1.proc := by
    rw [contigCopy_proc hc]
    exact hs.init hinit c
  cases a with
  | alloc size c =>
    obtain ⟨⟨t, r⟩, hc, rfl⟩ := toOption_map hstep
    cases r with
    | none => exact hs.allocPolicy hinit hc
    | some h => exact hs.allocPolicy hinit hc
  | allocPolicy params size c =>
    obtain ⟨⟨t, r⟩, hc, rfl⟩ := toOption_map hstep
    cases r with
    | none => exact hs.allocPolicy hinit hc
    | some h => exact hs.allocPolicy hinit hc
  | free h c =>
    obtain ⟨t, hc, rfl⟩ := Option.map_eq_some_iff.mp hstep
    cases step_move hc with
    | free hh hfree => exact hs.free hinit hh hfree
  | copyTo h offset fr c =>
    obtain ⟨t, hc, rfl⟩ := toOption_map hstep
    obtain ⟨r, hr, rfl⟩ := map_ok.mp hc
    exact hcopy hr
  | copyFrom dest h offset c =>
    obtain ⟨⟨t, bytes⟩, hc, rfl⟩ := toOption_map hstep
    exact hcopy hc
  | write w val h offs c =>
    obtain ⟨t, hc, rfl⟩ := toOption_map hstep
    obtain ⟨r, hr, rfl⟩ := map_ok.mp hc
    exact hcopy hr
  | read w h offs c =>
    obtain ⟨⟨t, val⟩, hc, rfl⟩ := toOption_map hstep
    obtain ⟨⟨t', bytes⟩, hr, heq⟩ := map_ok.mp hc
    obtain ⟨rfl, rfl⟩ := Prod.mk.inj heq
    exact hcopy hr
  | other call =>
    obtain ⟨t, hc, rfl⟩ := Option.map_eq_some_iff.mp hstep
    cases step_move hc with
    | other hnot hk heq =>
      rw [heq]
      exact hs.same (hs.tracked.other (small_init hinit) hnot hk) rfl rfl
  | otherWrite f khandle offset b =>
    simp only [userStep] at hstep
    split at hstep
    · cases hstep
    obtain ⟨desc, hdesc, hval⟩ := Option.bind_eq_some_iff.mp hstep
    split at hval
    · cases hval
    obtain rfl := Option.some.inj hval
    exact hs

theorem backed_run {mem : Nat → Byte} {b : Bool} {as : List Access}
    (hinit : ContigAlloc.contigInit p o = .ok s0)
    (hrun : run userStep (User.start s0 mem b) as = some u) : Backed s0 u.proc :=
  run_invariant (I := fun u : User => Backed s0 u.proc)
    (fun _ _ _ hs hstep => userStep_backed hinit hs hstep) (isolated_start hinit mem b).backed hrun

end Runs

section Guard

theorem buffer_low (hinit : ContigAlloc.contigInit p o = .ok s0) (hs : Backed s0 u.proc)
    (hh : h ∈ u.proc.handles) : h.n * u.proc.chunkSize < 2 ^ 63 := by
  have hlow := bytes_low hinit hs hh
  rw [hs.tracked.equal (List.ne_nil_of_mem hh)]
  omega

theorem User.place_eq (hs : Backed s0 u.proc) (h : Req) (i : Nat) :
    u.place h i = (layout s0).place h i := by
  rw [User.place, hs.tracked.chunkPages]
  rfl

theorem contigInit_chunkSize (hinit : ContigAlloc.contigInit p o = .ok s0) (hs : Backed s0 u.proc)
    (hh : h ∈ u.proc.handles) (c : InitOutcome) :
    (LibContig.contigInit u.proc c).1.chunkSize = u.proc.chunkSize := by
  have hne : (LibContig.contigInit u.proc c).1.handles ≠ [] := by
    rw [contigInit_handles]
    exact List.ne_nil_of_mem hh
  rw [(hs.init hinit c).tracked.equal hne, hs.tracked.equal (List.ne_nil_of_mem hh)]

theorem contigCopy_aborts (vaddr : List Byte) (toContig : Bool)
    (hinit : ContigAlloc.contigInit p o = .ok s0) (hs : Backed s0 u.proc) (hh : h ∈ u.proc.handles) :
    contigCopy u h offset vaddr toContig c = .error .abort ↔
      InitFails u.proc c ∨ h.n * u.proc.chunkSize < ulong (offset + vaddr.length) := by
  have hsize := contigInit_chunkSize hinit hs hh c
  have hlow := buffer_low hinit hs hh
  have hword : ulong (h.n * u.proc.chunkSize) = h.n * u.proc.chunkSize :=
    Nat.mod_eq_of_lt (by omega)
  rw [← contigInit_fails, contigCopy]
  cases hok : LibContig.contigInit u.proc c with
  | mk s ok =>
    rw [hok] at hsize
    change s.chunkSize = u.proc.chunkSize at hsize
    cases ok with
    | false => simp
    | true =>
      by_cases hlt : h.n * u.proc.chunkSize < ulong (offset + vaddr.length)
      · simp [hsize, hword, hlt]
      · simp only [Bool.not_true, Bool.false_eq_true, if_false, hsize, hword, hlt, or_self,
          iff_false, Bool.true_eq_false]
        split
        · split <;> simp
        · split <;> simp

theorem sumChecked_iff {size n : Nat} (ho : offset < 2 ^ 64) (hsize : size < 2 ^ 64)
    (hn : n < 2 ^ 63) : (offset + size < 2 ^ 64 ∨ n < offset + size - 2 ^ 64) ↔
      n < ulong (offset + size) ∨ offset + size ≤ n := by
  by_cases hwrap : offset + size < 2 ^ 64
  · have hword : ulong (offset + size) = offset + size := Nat.mod_eq_of_lt hwrap
    rw [hword]
    omega
  · have hword : ulong (offset + size) = offset + size - 2 ^ 64 := by
      rw [ulong]
      omega
    rw [hword]
    omega

variable {size : Nat}

theorem contigCopyTo_inside {fr : List Byte} (hinit : ContigAlloc.contigInit p o = .ok s0)
    (hs : Backed s0 u.proc) (hh : h ∈ u.proc.handles) (hok : ¬ InitFails u.proc c)
    (hle : offset + fr.length ≤ h.n * u.proc.chunkSize) :
    ∃ t, contigCopyTo u h offset fr c = .ok t ∧ u.Touches h offset fr.length t.mem := by
  have hin : u.Inside h offset fr.length := ⟨hh, hle⟩
  have hinitOk : (LibContig.contigInit u.proc c).2 = true := by
    rwa [← contigInit_fails, Bool.not_eq_false] at hok
  obtain ⟨mem, hstore, hout⟩ := @store_outside Nat Byte (LibContig.contigInit u.proc c).1.addr
    (fun i => (layout s0).place h (offset + i)) u.mem _ (h.mm * pageSize + offset) fr
    (fun i hi => inside_addr hinit hs hin hi)
  refine ⟨{ u with proc := (LibContig.contigInit u.proc c).1, mem := mem }, ?_, hle, ?_⟩
  · simp [contigCopyTo, contigCopy, hinitOk, inside_passes hinit hs hin, hstore, Except.map]
  · intro a ha
    apply hout
    intro i hi
    rw [← User.place_eq hs]
    exact ha i hi

theorem contigCopyTo_stays (fr : List Byte) (hinit : ContigAlloc.contigInit p o = .ok s0)
    (hs : Backed s0 u.proc) (hh : h ∈ u.proc.handles) (ho : offset < 2 ^ 64)
    (hsize : fr.length < 2 ^ 64) :
    u.WritesInside h offset fr.length (contigCopyTo u h offset fr c) ↔
      InitFails u.proc c ∨ u.SumChecked h offset fr.length := by
  have habort : contigCopyTo u h offset fr c = .error .abort ↔
      InitFails u.proc c ∨ h.n * u.proc.chunkSize < ulong (offset + fr.length) := by
    rw [← contigCopy_aborts fr true hinit hs hh, contigCopyTo]
    cases contigCopy u h offset fr true c <;> simp [Except.map]
  rw [User.SumChecked, sumChecked_iff ho hsize (buffer_low hinit hs hh), ← or_assoc, ← habort,
    User.WritesInside]
  constructor
  · rintro (hab | ⟨t, -, hin⟩)
    · exact Or.inl hab
    · exact Or.inr hin.1
  · rintro (hab | hle)
    · exact Or.inl hab
    · by_cases hfail : InitFails u.proc c
      · exact Or.inl (habort.mpr (Or.inl hfail))
      · exact Or.inr (contigCopyTo_inside hinit hs hh hfail hle)

theorem contigCopyFrom_stays {α : Type} (dest : List Byte) (view : List Byte → α)
    (hinit : ContigAlloc.contigInit p o = .ok s0) (hs : Backed s0 u.proc)
    (hh : h ∈ u.proc.handles) (ho : offset < 2 ^ 64) (hsize : dest.length < 2 ^ 64) :
    u.ReadsInside h offset dest.length view
        ((contigCopyFrom u dest h offset c).map (Prod.map id view)) ↔
      InitFails u.proc c ∨ u.SumChecked h offset dest.length := by
  have habort : (contigCopyFrom u dest h offset c).map (Prod.map id view) = .error .abort ↔
      InitFails u.proc c ∨ h.n * u.proc.chunkSize < ulong (offset + dest.length) := by
    rw [← contigCopy_aborts dest false hinit hs hh, contigCopyFrom]
    cases contigCopy u h offset dest false c <;> simp [Except.map]
  rw [User.SumChecked, sumChecked_iff ho hsize (buffer_low hinit hs hh), ← or_assoc, ← habort,
    User.ReadsInside]
  constructor
  · rintro (hab | ⟨t, -, hle, -⟩)
    · exact Or.inl hab
    · exact Or.inr hle
  · rintro (hab | hle)
    · exact Or.inl hab
    · by_cases hfail : InitFails u.proc c
      · exact Or.inl (habort.mpr (Or.inl hfail))
      · have hok : (LibContig.contigInit u.proc c).2 = true := by
          rwa [← contigInit_fails, Bool.not_eq_false] at hfail
        have hin : u.Inside h offset dest.length := ⟨hh, hle⟩
        have hval := contigCopy_from hinit hs hin hok
        simp only [← User.place_eq hs] at hval
        refine Or.inr ⟨{ u with proc := (LibContig.contigInit u.proc c).1 }, ?_, hle, rfl⟩
        rw [contigCopyFrom, hval]
        rfl

end Guard

/-- For every live handle, offset and size of an unsigned long, a copy of either direction
and every accessor abort or touch the bytes they name only, exactly when contig_init fails
or the sum of the guard does not wrap to a length that the buffer has. -/
theorem copies_stay_inside_iff (hinit : ContigAlloc.contigInit p o = .ok s0) (mem : Nat → Byte)
    (bigEndian : Bool) {as : List Access}
    (hrun : run userStep (User.start s0 mem bigEndian) as = some u) (hh : h ∈ u.proc.handles)
    (ho : offset < 2 ^ 64) (c : InitOutcome) :
    (∀ fr : List Byte, fr.length < 2 ^ 64 →
      (u.WritesInside h offset fr.length (contigCopyTo u h offset fr c) ↔
        InitFails u.proc c ∨ u.SumChecked h offset fr.length)) ∧
    (∀ dest : List Byte, dest.length < 2 ^ 64 →
      (u.ReadsInside h offset dest.length id (contigCopyFrom u dest h offset c) ↔
        InitFails u.proc c ∨ u.SumChecked h offset dest.length)) ∧
    (∀ (w : Nat) (val : BitVec (8 * w)), w < 2 ^ 64 →
      (u.WritesInside h offset w (contigWrite w u val h offset c) ↔
        InitFails u.proc c ∨ u.SumChecked h offset w)) ∧
    (∀ w : Nat, w < 2 ^ 64 →
      (u.ReadsInside h offset w (ofBytes u.bigEndian w) (contigRead w u h offset c) ↔
        InitFails u.proc c ∨ u.SumChecked h offset w)) := by
  have hs := backed_run hinit hrun
  refine ⟨?_, ?_, ?_, ?_⟩
  · intro fr hfr
    exact contigCopyTo_stays fr hinit hs hh ho hfr
  · intro dest hdest
    have hread := contigCopyFrom_stays (c := c) dest id hinit hs hh ho hdest
    have hid : (contigCopyFrom u dest h offset c).map (Prod.map id id) =
        contigCopyFrom u dest h offset c := by
      cases contigCopyFrom u dest h offset c <;> rfl
    rwa [hid] at hread
  · intro w val hw
    have hlen : (toBytes u.bigEndian w val).length = w := length_toBytes val
    have hwrite := contigCopyTo_stays (c := c) (toBytes u.bigEndian w val) hinit hs hh ho
      (by rwa [hlen])
    rwa [hlen] at hwrite
  · intro w hw
    have hlen : (List.replicate w (0 : Byte)).length = w := List.length_replicate
    have hread := contigCopyFrom_stays (c := c) (List.replicate w 0) (ofBytes u.bigEndian w)
      hinit hs hh ho (by rwa [hlen])
    rwa [hlen] at hread

end Steps

section Instance

def mapAt (page : Nat) : Mmap where
  pick vm n :=
    if page + n < 2 ^ 51 ∧ (List.range n).all (fun k => (vm (page + k)).isNone) then some page
    else none
  fresh := by
    intro vm n base h
    split at h
    · next hfree =>
      obtain rfl := Option.some.inj h
      refine ⟨hfree.1, ?_⟩
      intro v hle hlt
      have hall := List.all_eq_true.mp hfree.2 (v - page) (List.mem_range.mpr (by omega))
      rw [Nat.add_sub_cancel' hle] at hall
      exact Option.isNone_iff_eq_none.mp hall
    · cases h
  remapOk := true

/-- Two buffers of one chunk, mapped next to each other. -/
def twoBuffers : List Access :=
  [.alloc 4096 allocOk, .alloc 4096 { allocOk with kmalloc := blockAt 65, mmap := mapAt 257 }]

def secondHandle : Req := ⟨257, 65, 1, firstNode, [2 ^ 20 + 4096]⟩

theorem copies_stay_inside_second : ∃ u,
    run userStep (User.start (initState smallInsmod) (fun _ => 0) false) twoBuffers = some u ∧
      secondHandle ∈ u.proc.handles ∧
      u.WritesInside secondHandle 4088 8 (contigWrite64 u 0xdeadface secondHandle 4088 initOk) := by
  have h : ∃ u, run userStep (User.start (initState smallInsmod) (fun _ => 0) false) twoBuffers =
      some u ∧ secondHandle ∈ u.proc.handles := ⟨_, rfl, List.mem_cons_self⟩
  obtain ⟨u, hr, hh⟩ := h
  have hsum : u.SumChecked secondHandle 4088 8 := Or.inl (by decide)
  have hoff : 4088 < 2 ^ 64 := by decide
  have hwrites := (copies_stay_inside_iff contigInit_small _ _ hr hh hoff initOk).2.2.1
  exact ⟨u, hr, hh, (hwrites 8 0xdeadface (by decide)).mpr (Or.inr hsum)⟩

/-- A write of 8 bytes at offset -8 of the second buffer goes to the end of the first. -/
theorem write_lands_in_other_buffer : ∃ u t,
    run userStep (User.start (initState smallInsmod) (fun _ => 0) false) twoBuffers = some u ∧
      secondHandle ∈ u.proc.handles ∧
      contigWrite64 u 0xdeadface secondHandle (2 ^ 64 - 8) initOk = .ok t ∧
      t.mem (u.place (firstHandle 1) 4088) ≠ u.mem (u.place (firstHandle 1) 4088) ∧
      ¬ u.WritesInside secondHandle (2 ^ 64 - 8) 8
        (contigWrite64 u 0xdeadface secondHandle (2 ^ 64 - 8) initOk) := by
  have h : ∃ u, run userStep (User.start (initState smallInsmod) (fun _ => 0) false) twoBuffers =
      some u ∧ secondHandle ∈ u.proc.handles := ⟨_, rfl, List.mem_cons_self⟩
  have hbytes : (run userStep (User.start (initState smallInsmod) (fun _ => 0) false)
      twoBuffers).bind (fun u =>
        (contigWrite64 u 0xdeadface secondHandle (2 ^ 64 - 8) initOk).toOption.map fun t =>
          (t.mem (u.place (firstHandle 1) 4088), u.mem (u.place (firstHandle 1) 4088))) =
      some (0xce, 0) := by decide +kernel
  obtain ⟨u, hr, hh⟩ := h
  rw [hr, Option.bind_some] at hbytes
  obtain ⟨t, hwrite, hpair⟩ := toOption_map hbytes
  obtain ⟨hafter, hbefore⟩ := Prod.mk.inj hpair
  have hsize := (backed_run contigInit_small hr).tracked.equal (List.ne_nil_of_mem hh)
  refine ⟨u, t, hr, hh, hwrite, ?_, ?_⟩
  · rw [hafter, hbefore]
    decide
  · rintro (habort | ⟨t', -, hin, -⟩)
    · rw [hwrite] at habort
      cases habort
    · rw [hsize] at hin
      exact absurd hin (by decide)

end Instance

end EspDrivers.LibContig
