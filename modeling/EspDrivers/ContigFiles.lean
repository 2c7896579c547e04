import EspDrivers.ContigRestore

/-! Ownership of descriptors by open files: over every sequence of file operations a
live descriptor stands in the list of exactly one open file, and leaves it when it
is freed or when the file is released. -/
namespace EspDrivers.ContigAlloc
open KeyedStack Trace

variable {s0 s t : State} {sys sys' : Sys} {f : FileId} {l : List Addr} {a : Addr}

/-- The list of a file; a file that is not open has none. -/
def descsOf (sys : Sys) (f : FileId) : List Addr := (sys.files f).getD []

theorem descsOf_open (h : sys.files f = some l) : descsOf sys f = l := by simp [descsOf, h]

theorem open_of_mem (h : a ∈ descsOf sys f) : sys.files f = some (descsOf sys f) := by
  cases hf : sys.files f with
  | none => simp [descsOf, hf] at h
  | some l => simp [descsOf, hf]

structure FilesOk (s0 : State) (sys : Sys) : Prop where
  books : Consistent s0 sys.alloc
  nodup : ∀ f, (descsOf sys f).Nodup
  live : ∀ f, ∀ a ∈ descsOf sys f, sys.alloc.heap a ≠ none
  one : ∀ f g a, a ∈ descsOf sys f → a ∈ descsOf sys g → f = g
  owned : ∀ a, sys.alloc.heap a ≠ none → ∃ f, a ∈ descsOf sys f

section Free

theorem contigFree_heap (h0 : Small s0) (hs : Consistent s0 s) (h : contigFree s a = .ok t) :
    t.heap = Function.update s.heap a none := by
  obtain ⟨desc, -, rfl⟩ := hs.free_ok h0 h
  rfl

theorem contigFree_live (ha : s.heap a ≠ none) :
    contigFree s a = .error .bug ∨ ∃ t, contigFree s a = .ok t := by
  rw [contigFree]
  cases hd : s.heap a with
  | none => exact absurd hd ha
  | some desc =>
    dsimp only
    split
    · exact Or.inl rfl
    · exact Or.inr ⟨_, rfl⟩

theorem freeAll_ok (h0 : Small s0) (hs : Consistent s0 s) (h : freeAll l s = .ok t) :
    Consistent s0 t ∧ ∀ b, t.heap b = if b ∈ l then none else s.heap b := by
  induction l generalizing s with
  | nil =>
    have hst : s = t := by simpa [freeAll] using h
    subst hst
    exact ⟨hs, by simp⟩
  | cons a l ih =>
    obtain ⟨u, hu, h⟩ := bind_ok.mp h
    have hheap := contigFree_heap h0 hs hu
    have hrest := ih (consistent_free h0 hs hu) h
    refine ⟨hrest.1, ?_⟩
    intro b
    rw [hrest.2, hheap]
    by_cases hb : b = a
    · simp [hb]
    · simp [hb]

theorem freeAll_live (h0 : Small s0) (hs : Consistent s0 s) (hn : l.Nodup)
    (hl : ∀ b ∈ l, s.heap b ≠ none) : freeAll l s = .error .bug ∨ ∃ t, freeAll l s = .ok t := by
  induction l generalizing s with
  | nil => exact Or.inr ⟨s, rfl⟩
  | cons a l ih =>
    have hna := List.nodup_cons.mp hn
    simp only [freeAll]
    rcases contigFree_live (hl a (by simp)) with hc | ⟨u, hc⟩
    · left
      rw [hc]
      rfl
    · rw [hc]
      apply ih (consistent_free h0 hs hc) hna.2
      intro b hb
      have hba : b ≠ a := fun he => hna.1 (he ▸ hb)
      rw [contigFree_heap h0 hs hc, Function.update_of_ne hba]
      exact hl b (List.mem_cons_of_mem a hb)

theorem freeAll_completes {l : List Addr} (h0 : Small s0) (hs : Consistent s0 s) (hn : l.Nodup)
    (hl : ∀ b ∈ l, s.heap b ≠ none) : (∃ t, freeAll l s = .ok t) ↔
      ∀ b ∈ l, ∀ desc, s.heap b = some desc → desc.n * s.chunkSize < 2 ^ 32 := by
  induction l generalizing s with
  | nil => exact iff_of_true ⟨s, rfl⟩ (by simp)
  | cons a l ih =>
    obtain ⟨hnot, hnl⟩ := List.nodup_cons.mp hn
    obtain ⟨desc, ha⟩ := Option.ne_none_iff_exists'.mp (hl a (by simp))
    have hfree := contigFree_eq hs h0 ha
    by_cases hsmall : desc.n * s.chunkSize < 2 ^ 32
    · rw [if_pos hsmall] at hfree
      have hsame (b : Addr) (hb : b ∈ l) : (unpublish s a desc).heap b = s.heap b :=
        Function.update_of_ne (ne_of_mem_of_not_mem hb hnot) _ _
      have hrest := ih (consistent_unpublish hs ha) hnl (by
        intro b hb
        rw [hsame b hb]
        exact hl b (List.mem_cons_of_mem a hb))
      have hstep : freeAll (a :: l) s = freeAll l (unpublish s a desc) := by
        simp only [freeAll, hfree, bind, Except.bind]
      rw [hstep, hrest]
      constructor
      · intro hall b hb d hd
        cases List.mem_cons.mp hb with
        | inl heq =>
          subst heq
          obtain rfl : desc = d := by simpa [ha] using hd
          exact hsmall
        | inr hb => exact hall b hb d (by rw [hsame b hb, hd])
      · intro hall b hb d hd
        rw [hsame b hb] at hd
        exact hall b (List.mem_cons_of_mem a hb) d hd
    · rw [if_neg hsmall] at hfree
      refine iff_of_false ?_ ?_
      · rintro ⟨t, ht⟩
        simp [freeAll, hfree, bind, Except.bind] at ht
      · intro hall
        exact hsmall (hall a (by simp) desc ha)

end Free

section Calls

theorem replyAlloc_ok {req : AllocReq} {c : UserCopies} {r : AllocReply}
    (h : replyAlloc sys f req c s a = .ok (sys', .ok r)) :
    (∃ desc, s.heap a = some desc ∧ r = ⟨a, desc.n, desc.mostAllocated, desc.arr⟩) ∧
      sys' = ⟨s, Function.update sys.files f ((sys.files f).map fun l => a :: l)⟩ := by
  have hfail (e : Errno) : freeAndFail sys s a e ≠ .ok (sys', .ok r) := by
    intro he
    obtain ⟨u, -, he⟩ := bind_ok.mp he
    simp at he
  rw [replyAlloc] at h
  cases hd : s.heap a with
  | none => simp [hd] at h
  | some desc =>
    simp only [hd] at h
    split at h
    · exact absurd h (hfail _)
    split at h
    · exact absurd h (hfail _)
    split at h
    · exact absurd h (hfail _)
    simp only [Except.ok.injEq, Prod.mk.injEq] at h
    exact ⟨⟨desc, rfl, h.2.symm⟩, h.1.symm⟩

theorem contigAllocIoctl_ok {req : Option AllocReq} {m : Kmalloc} {c : UserCopies} {r : AllocReply}
    (h : contigAllocIoctl sys f req m c = .ok (sys', .ok r)) :
    ∃ params size s desc, contigAlloc sys.alloc params size m = .ok (s, .ok r.khandle) ∧
      s.heap r.khandle = some desc ∧ r.n = desc.n ∧ r.arr = desc.arr ∧
      sys' = ⟨s, Function.update sys.files f ((sys.files f).map fun l => r.khandle :: l)⟩ := by
  cases req with
  | none => simp [contigAllocIoctl] at h
  | some req =>
    simp only [contigAllocIoctl] at h
    split at h
    · simp at h
    split at h
    · simp at h
    obtain ⟨⟨s, q⟩, hs, h⟩ := bind_ok.mp h
    cases q with
    | error e => simp at h
    | ok a =>
      obtain ⟨⟨desc, hd, rfl⟩, hsys⟩ := replyAlloc_ok h
      exact ⟨req.params, req.size, s, desc, hs, hd, rfl, rfl, hsys⟩

theorem contigFreeIoctl_listed (hf : sys.files f = some l) (ha : a ∈ l) :
    contigFreeIoctl sys f (some a) = (contigFree sys.alloc a).bind fun s =>
      .ok (⟨s, Function.update sys.files f (some (l.erase a))⟩, .ok ()) := by
  simp only [contigFreeIoctl, hf, if_pos ha]
  rfl

theorem contigFreeIoctl_unlisted (hf : sys.files f = some l) (ha : a ∉ l) :
    contigFreeIoctl sys f (some a) = .ok (sys, .error .efault) := by
  simp only [contigFreeIoctl, hf, if_neg ha]

theorem contigFreeIoctl_ok {del : Option Addr} (h : contigFreeIoctl sys f del = .ok (sys', .ok ())) :
    ∃ a l t, del = some a ∧ sys.files f = some l ∧ a ∈ l ∧ contigFree sys.alloc a = .ok t ∧
      sys' = ⟨t, Function.update sys.files f (some (l.erase a))⟩ := by
  cases del with
  | none => simp [contigFreeIoctl] at h
  | some a =>
    cases hf : sys.files f with
    | none => simp [contigFreeIoctl, hf] at h
    | some l =>
      by_cases ha : a ∈ l
      · rw [contigFreeIoctl_listed hf ha] at h
        obtain ⟨t, ht, h⟩ := bind_ok.mp h
        exact ⟨a, l, t, rfl, rfl, ha, ht, (congrArg Prod.fst (Except.ok.inj h)).symm⟩
      · rw [contigFreeIoctl_unlisted hf ha] at h
        cases congrArg Prod.snd (Except.ok.inj h)

end Calls

section Moves

/-- What a file operation on `f` can do to the allocator and the lists. -/
inductive FileMove (s0 : State) (sys : Sys) (f : FileId) : Sys → Prop
  | same : FileMove s0 sys f sys
  | opened (hf : sys.files f = none) :
      FileMove s0 sys f ⟨sys.alloc, Function.update sys.files f (some [])⟩
  | allocated (cs : List Chunk) (t : State) (desc : Desc) (a : Addr) (l : List Addr)
      (hf : sys.files f = some l) (ht : Taken sys.alloc cs t) (hd : desc.Filled cs)
      (ha : sys.alloc.heap a = none) :
      FileMove s0 sys f ⟨publish t a desc, Function.update sys.files f (some (a :: l))⟩
  | removed (out : List Addr) (r : Option (List Addr)) (t : State) (ht : Consistent s0 t)
      (hheap : ∀ b, t.heap b = if b ∈ out then none else sys.alloc.heap b)
      (hout : ∀ b ∈ out, b ∈ descsOf sys f) (hn : (r.getD []).Nodup)
      (hr : ∀ b, b ∈ r.getD [] ↔ b ∈ descsOf sys f ∧ b ∉ out) :
      FileMove s0 sys f ⟨t, Function.update sys.files f r⟩

theorem contigOpen_move {ok : Bool} (hf : sys.files f = none) :
    FileMove s0 sys f (contigOpen sys f ok).1 := by
  cases ok with
  | false => exact .same
  | true => exact .opened hf

theorem contigAllocIoctl_move {req : Option AllocReq} {m : Kmalloc} {c : UserCopies}
    {r : Except Errno AllocReply} (h0 : Small s0) (hs : Consistent s0 sys.alloc)
    (hf : sys.files f = some l) (h : contigAllocIoctl sys f req m c = .ok (sys', r)) :
    FileMove s0 sys f sys' := by
  cases r with
  | error e =>
    rw [contigAllocIoctl_error h0 hs h]
    exact .same
  | ok r =>
    obtain ⟨params, size, u, desc, ha, -, -, -, rfl⟩ := contigAllocIoctl_ok h
    obtain ⟨cs, t, desc, -, ht, hd, hfree, -, rfl⟩ := contigAlloc_ok (hs.nodeOk h0) ha
    rw [hf]
    exact .allocated cs t desc r.khandle l hf ht hd hfree

theorem contigFreeIoctl_move {del : Option Addr} {r : Except Errno Unit} (h0 : Small s0)
    (hs : FilesOk s0 sys) (h : contigFreeIoctl sys f del = .ok (sys', r)) :
    FileMove s0 sys f sys' := by
  cases del with
  | none =>
    have heq : sys = sys' := by
      have hpair : (sys, (.error .efault : Except Errno Unit)) = (sys', r) := by
        simpa [contigFreeIoctl] using h
      exact congrArg Prod.fst hpair
    exact heq ▸ .same
  | some a =>
    cases hf : sys.files f with
    | none => simp [contigFreeIoctl, hf] at h
    | some l =>
      by_cases ha : a ∈ l
      · rw [contigFreeIoctl_listed hf ha] at h
        obtain ⟨t, ht, h⟩ := bind_ok.mp h
        have heq : (⟨t, Function.update sys.files f (some (l.erase a))⟩ : Sys) = sys' :=
          congrArg Prod.fst (Except.ok.inj h)
        have hl := descsOf_open hf
        have hn : l.Nodup := hl ▸ hs.nodup f
        rw [← heq]
        refine .removed [a] _ t (consistent_free h0 hs.books ht) ?_ ?_ (hn.erase a) ?_
        · intro b
          rw [contigFree_heap h0 hs.books ht]
          by_cases hb : b = a <;> simp [hb]
        · intro b hb
          rw [hl]
          rwa [List.mem_singleton.mp hb]
        · intro b
          rw [hl]
          simpa [and_comm] using hn.mem_erase_iff (a := b) (b := a)
      · rw [contigFreeIoctl_unlisted hf ha] at h
        have heq : sys = sys' := congrArg Prod.fst (Except.ok.inj h)
        exact heq ▸ .same

theorem contigRelease_move (h0 : Small s0) (hs : FilesOk s0 sys)
    (h : contigRelease sys f = .ok sys') : FileMove s0 sys f sys' := by
  cases hf : sys.files f with
  | none => simp [contigRelease, hf] at h
  | some l =>
    simp only [contigRelease, hf] at h
    obtain ⟨t, ht, h⟩ := bind_ok.mp h
    have heq : (⟨t, Function.update sys.files f none⟩ : Sys) = sys' := Except.ok.inj h
    have hfreed := freeAll_ok h0 hs.books ht
    have hl := descsOf_open hf
    rw [← heq]
    refine .removed l none t hfreed.1 hfreed.2 ?_ (by simp) ?_
    · intro b hb
      rwa [hl]
    · intro b
      simp [hl]

inductive FileRun (sys sys' : Sys) : FileCall → Prop where
  | openFile {f : FileId} {ok : Bool} (hf : sys.files f = none)
    (h : (contigOpen sys f ok).1 = sys') : FileRun sys sys' (.openFile f ok)
  | alloc {f : FileId} {req : Option AllocReq} {m : Kmalloc} {c : UserCopies}
    {r : Except Errno AllocReply} (hf : sys.files f ≠ none)
    (h : contigAllocIoctl sys f req m c = .ok (sys', r)) : FileRun sys sys' (.alloc f req m c)
  | free {f : FileId} {del : Option Addr} {r : Except Errno Unit}
    (h : contigFreeIoctl sys f del = .ok (sys', r)) : FileRun sys sys' (.free f del)
  | release {f : FileId} (h : contigRelease sys f = .ok sys') : FileRun sys sys' (.release f)

theorem fileStep_run {call : FileCall} (h : fileStep sys call = some sys') :
    FileRun sys sys' call := by
  cases call with
  | openFile f ok =>
    by_cases hf : sys.files f = none
    · exact .openFile hf (by simpa [fileStep, hf] using h)
    · simp [fileStep, hf] at h
  | alloc f req m c =>
    by_cases hf : sys.files f = none
    · simp [fileStep, hf] at h
    · cases hc : contigAllocIoctl sys f req m c with
      | error e => simp [fileStep, hf, hc, Except.toOption] at h
      | ok q =>
        have heq : q.1 = sys' := by simpa [fileStep, hf, hc, Except.toOption] using h
        subst heq
        exact .alloc hf hc
  | free f del =>
    by_cases hf : sys.files f = none
    · simp [fileStep, hf] at h
    · cases hc : contigFreeIoctl sys f del with
      | error e => simp [fileStep, hf, hc, Except.toOption] at h
      | ok q =>
        have heq : q.1 = sys' := by simpa [fileStep, hf, hc, Except.toOption] using h
        subst heq
        exact .free hc
  | release f =>
    cases hc : contigRelease sys f with
    | error e => simp [fileStep, hc, Except.toOption] at h
    | ok u =>
      have heq : u = sys' := by simpa [fileStep, hc, Except.toOption] using h
      subst heq
      exact .release hc

theorem fileStep_move {call : FileCall} (h0 : Small s0) (hs : FilesOk s0 sys)
    (h : fileStep sys call = some sys') : FileMove s0 sys (fileOf call) sys' := by
  cases fileStep_run h with
  | openFile hf heq =>
    rw [← heq]
    exact contigOpen_move hf
  | @alloc f req m c r hf hc =>
    cases hl : sys.files f with
    | none => exact absurd hl hf
    | some l => exact contigAllocIoctl_move h0 hs.books hl hc
  | free hc => exact contigFreeIoctl_move h0 hs hc
  | release hc => exact contigRelease_move h0 hs hc

end Moves

section Steps

theorem descsOf_update (s : State) (files : FileId → Option (List Addr)) (f g : FileId)
    (r : Option (List Addr)) : descsOf ⟨s, Function.update files f r⟩ g =
      if g = f then r.getD [] else (files g).getD [] := by
  by_cases hg : g = f
  · subst hg
    simp [descsOf]
  · simp [descsOf, hg]

theorem descsOf_update_of_ne {g : FileId} (h : g ≠ f) (r : Option (List Addr)) :
    descsOf ⟨s, Function.update sys.files f r⟩ g = descsOf sys g := by
  rw [descsOf_update, if_neg h]
  rfl

theorem filesOk_opened (hs : FilesOk s0 sys) (hf : sys.files f = none) :
    FilesOk s0 ⟨sys.alloc, Function.update sys.files f (some [])⟩ := by
  have hsame (g : FileId) :
      descsOf ⟨sys.alloc, Function.update sys.files f (some [])⟩ g = descsOf sys g := by
    by_cases hg : g = f
    · rw [descsOf_update, if_pos hg, hg, descsOf, hf]
      rfl
    · exact descsOf_update_of_ne hg _
  refine ⟨hs.books, ?_, ?_, ?_, ?_⟩
  · intro g
    rw [hsame]
    exact hs.nodup g
  · intro g b hb
    rw [hsame] at hb
    exact hs.live g b hb
  · intro g k b hg hk
    rw [hsame] at hg hk
    exact hs.one g k b hg hk
  · intro b hb
    obtain ⟨g, hg⟩ := hs.owned b hb
    exact ⟨g, by rwa [hsame]⟩

theorem publish_heap {cs : List Chunk} {desc : Desc} (ht : Taken s cs t) (a b : Addr) :
    (publish t a desc).heap b = if b = a then some desc else s.heap b := by
  by_cases hb : b = a
  · simp [publish, hb]
  · simp [publish, hb, ht.heap]

theorem filesOk_allocated {cs : List Chunk} {desc : Desc} (hs : FilesOk s0 sys)
    (hf : sys.files f = some l) (ht : Taken sys.alloc cs t) (hd : desc.Filled cs)
    (ha : sys.alloc.heap a = none) :
    FilesOk s0 ⟨publish t a desc, Function.update sys.files f (some (a :: l))⟩ := by
  have hl := descsOf_open hf
  have hnew (g : FileId) : a ∉ descsOf sys g := fun hg => hs.live g _ hg ha
  have hlist (g : FileId) (b : Addr) :
      b ∈ descsOf ⟨publish t a desc, Function.update sys.files f (some (a :: l))⟩ g ↔
        (b = a ∧ g = f) ∨ b ∈ descsOf sys g := by
    by_cases hg : g = f
    · subst hg
      simp [descsOf_update, hl]
    · rw [descsOf_update_of_ne hg]
      simp [hg]
  refine ⟨consistent_publish hs.books ht hd ha, ?_, ?_, ?_, ?_⟩
  · intro g
    by_cases hg : g = f
    · subst hg
      have hcons := List.nodup_cons.mpr ⟨hnew g, hs.nodup g⟩
      simpa [descsOf_update, hl] using hcons
    · rw [descsOf_update_of_ne hg]
      exact hs.nodup g
  · intro g b hb
    change (publish t a desc).heap b ≠ none
    rw [publish_heap ht]
    rcases (hlist g b).mp hb with hb | hb
    · simp [hb.1]
    · have hne : b ≠ a := fun he => hnew g (he ▸ hb)
      rw [if_neg hne]
      exact hs.live g b hb
  · intro g k b hg hk
    rcases (hlist g b).mp hg with hg | hg
    · rcases (hlist k b).mp hk with hk | hk
      · rw [hg.2, hk.2]
      · exact absurd (hg.1 ▸ hk) (hnew k)
    · rcases (hlist k b).mp hk with hk | hk
      · exact absurd (hk.1 ▸ hg) (hnew g)
      · exact hs.one g k b hg hk
  · intro b hb
    change (publish t a desc).heap b ≠ none at hb
    rw [publish_heap ht] at hb
    by_cases hba : b = a
    · exact ⟨f, (hlist f b).mpr (Or.inl ⟨hba, rfl⟩)⟩
    · rw [if_neg hba] at hb
      obtain ⟨g, hg⟩ := hs.owned b hb
      exact ⟨g, (hlist g b).mpr (Or.inr hg)⟩

theorem filesOk_removed (out : List Addr) {r : Option (List Addr)} (hs : FilesOk s0 sys)
    (ht : Consistent s0 t) (hheap : ∀ b, t.heap b = if b ∈ out then none else sys.alloc.heap b)
    (hout : ∀ b ∈ out, b ∈ descsOf sys f) (hn : (r.getD []).Nodup)
    (hr : ∀ b, b ∈ r.getD [] ↔ b ∈ descsOf sys f ∧ b ∉ out) :
    FilesOk s0 ⟨t, Function.update sys.files f r⟩ := by
  have hlist (g : FileId) (b : Addr) : b ∈ descsOf ⟨t, Function.update sys.files f r⟩ g ↔
      b ∈ descsOf sys g ∧ b ∉ out := by
    by_cases hg : g = f
    · subst hg
      simp [descsOf_update, hr]
    · rw [descsOf_update_of_ne hg]
      constructor
      · intro hb
        exact ⟨hb, fun ho => hg (hs.one g f b hb (hout b ho))⟩
      · exact And.left
  refine ⟨ht, ?_, ?_, ?_, ?_⟩
  · intro g
    by_cases hg : g = f
    · rw [descsOf_update, if_pos hg]
      exact hn
    · rw [descsOf_update_of_ne hg]
      exact hs.nodup g
  · intro g b hb
    have hmem := (hlist g b).mp hb
    change t.heap b ≠ none
    rw [hheap, if_neg hmem.2]
    exact hs.live g b hmem.1
  · intro g k b hg hk
    exact hs.one g k b ((hlist g b).mp hg).1 ((hlist k b).mp hk).1
  · intro b hb
    change t.heap b ≠ none at hb
    rw [hheap] at hb
    by_cases ho : b ∈ out
    · simp [ho] at hb
    · rw [if_neg ho] at hb
      obtain ⟨g, hg⟩ := hs.owned b hb
      exact ⟨g, (hlist g b).mpr ⟨hg, ho⟩⟩

theorem FilesOk.move (hs : FilesOk s0 sys) (hm : FileMove s0 sys f sys') : FilesOk s0 sys' := by
  cases hm with
  | same => exact hs
  | opened hf => exact filesOk_opened hs hf
  | allocated cs t desc a l hf ht hd ha => exact filesOk_allocated hs hf ht hd ha
  | removed out r t ht hheap hout hn hr => exact filesOk_removed out hs ht hheap hout hn hr

theorem FileMove.other {g : FileId} (hs : FilesOk s0 sys) (hm : FileMove s0 sys f sys')
    (hg : g ≠ f) (ha : a ∈ descsOf sys g) :
    sys'.alloc.heap a = sys.alloc.heap a ∧ a ∈ descsOf sys' g := by
  cases hm with
  | same => exact ⟨rfl, ha⟩
  | opened hf => exact ⟨rfl, by rwa [descsOf_update_of_ne hg]⟩
  | allocated cs t desc b l hf ht hd hb =>
    have hne : a ≠ b := fun he => hs.live g a ha (he ▸ hb)
    refine ⟨?_, by rwa [descsOf_update_of_ne hg]⟩
    change (publish t b desc).heap a = _
    rw [publish_heap ht, if_neg hne]
  | removed out r t ht hheap hout hn hr =>
    have hnot : a ∉ out := fun ho => hg (hs.one g f a ha (hout a ho))
    refine ⟨?_, by rwa [descsOf_update_of_ne hg]⟩
    change t.heap a = _
    rw [hheap, if_neg hnot]

theorem FileMove.files_other {g : FileId} (hm : FileMove s0 sys f sys') (hg : g ≠ f) :
    sys'.files g = sys.files g := by
  cases hm with
  | same => rfl
  | opened hf => exact Function.update_of_ne hg _ _
  | allocated cs t desc b l hf ht hd hb => exact Function.update_of_ne hg _ _
  | removed out r t ht hheap hout hn hr => exact Function.update_of_ne hg _ _

theorem contigAllocIoctl_adds {req : Option AllocReq} {m : Kmalloc} {c : UserCopies}
    {r : AllocReply} (h0 : Small s0) (hs : FilesOk s0 sys) (hf : sys.files f = some l)
    (h : contigAllocIoctl sys f req m c = .ok (sys', .ok r)) :
    ∃ desc, sys.alloc.heap r.khandle = none ∧
      (∀ b, sys'.alloc.heap b = if b = r.khandle then some desc else sys.alloc.heap b) ∧
      sys'.files = Function.update sys.files f (some (r.khandle :: l)) ∧
      r.n = desc.n ∧ r.arr = desc.arr ∧ desc.arr.length = desc.n ∧ desc.n < 2 ^ 32 := by
  obtain ⟨params, size, u, desc', ha, hheap, hn, harr, rfl⟩ := contigAllocIoctl_ok h
  obtain ⟨cs, t, desc, hcs, ht, hd, hfree, -, rfl⟩ := contigAlloc_ok (hs.books.nodeOk h0) ha
  rw [publish_heap ht, if_pos rfl] at hheap
  obtain rfl : desc = desc' := Option.some.inj hheap
  refine ⟨desc, hfree, publish_heap ht r.khandle, by rw [hf]; rfl, hn, harr, ?_, ?_⟩
  · rw [hd.2.1, List.length_map, hd.1]
  · rw [hd.1, hcs]
    exact Nat.mod_lt _ (by norm_num)

theorem filesOk_step {call : FileCall} (h0 : Small s0) (hs : FilesOk s0 sys)
    (h : fileStep sys call = some sys') : FilesOk s0 sys' :=
  hs.move (fileStep_move h0 hs h)

end Steps

section Reachable
variable {p : Insmod} {o : InitCalls} {calls : List FileCall}

def Sys.closed (s : State) : Sys := ⟨s, fun _ => none⟩

theorem filesOk_init (h : contigInit p o = .ok s0) : FilesOk s0 (Sys.closed s0) := by
  have hbooks := consistent_init h
  refine ⟨hbooks, by simp [Sys.closed, descsOf], by simp [Sys.closed, descsOf],
    by simp [Sys.closed, descsOf], ?_⟩
  intro a ha
  have hmem : a ∈ s0.descList := (hbooks.live a).mpr ha
  have hinit := (contigInit_ok h).1
  simp [hinit, initState] at hmem

theorem filesOk_run (h : contigInit p o = .ok s0)
    (hr : run fileStep (Sys.closed s0) calls = some sys) : FilesOk s0 sys :=
  run_invariant (fun _ _ _ hs hc => filesOk_step (small_init h) hs hc) (filesOk_init h) hr

theorem FilesOk.count_descList (hs : FilesOk s0 sys) (ha : sys.alloc.heap a ≠ none) :
    sys.alloc.descList.count a = 1 :=
  List.count_eq_one_of_mem hs.books.nodup ((hs.books.live a).mpr ha)

theorem FilesOk.exists_owner (hs : FilesOk s0 sys) (ha : sys.alloc.heap a ≠ none) :
    ∃ f l, sys.files f = some l ∧ l.count a = 1 ∧
      ∀ g k, sys.files g = some k → a ∈ k → g = f := by
  obtain ⟨f, hf⟩ := hs.owned a ha
  refine ⟨f, descsOf sys f, open_of_mem hf, List.count_eq_one_of_mem (hs.nodup f) hf, ?_⟩
  intro g k hg hk
  refine hs.one g f a ?_ hf
  rwa [descsOf_open hg]

def Freeable (s : State) (a : Addr) : Prop :=
  ∀ desc, s.heap a = some desc → desc.n * s.chunkSize < 2 ^ 32

theorem FilesOk.listed (hs : FilesOk s0 sys) (hf : sys.files f = some l) (ha : a ∈ l) :
    ∃ desc, sys.alloc.heap a = some desc :=
  Option.ne_none_iff_exists'.mp (hs.live f a (by rwa [descsOf_open hf]))

theorem FilesOk.free_listed (h0 : Small s0) (hs : FilesOk s0 sys) (hf : sys.files f = some l)
    (ha : a ∈ l) (hfree : Freeable sys.alloc a) : ∃ t, contigFreeIoctl sys f (some a) =
        .ok (⟨t, Function.update sys.files f (some (l.erase a))⟩, .ok ()) ∧
      ∀ b, t.heap b = if b = a then none else sys.alloc.heap b := by
  obtain ⟨desc, hdesc⟩ := hs.listed hf ha
  have hc := contigFree_eq hs.books h0 hdesc
  rw [if_pos (hfree desc hdesc)] at hc
  refine ⟨unpublish sys.alloc a desc, ?_, ?_⟩
  · rw [contigFreeIoctl_listed hf ha, hc]
    rfl
  · intro b
    rw [contigFree_heap h0 hs.books hc]
    by_cases hb : b = a <;> simp [hb]

theorem FilesOk.free_stops (h0 : Small s0) (hs : FilesOk s0 sys) (hf : sys.files f = some l)
    (ha : a ∈ l) (hfree : ¬Freeable sys.alloc a) :
    contigFreeIoctl sys f (some a) = .error .bug := by
  obtain ⟨desc, hdesc⟩ := hs.listed hf ha
  have hlarge : ¬desc.n * sys.alloc.chunkSize < 2 ^ 32 := by
    intro hsmall
    refine hfree ?_
    intro d hd
    rwa [← Option.some.inj (hdesc.symm.trans hd)]
  have hc := contigFree_eq hs.books h0 hdesc
  rw [if_neg hlarge] at hc
  rw [contigFreeIoctl_listed hf ha, hc]
  rfl

/-- The loop of contig_release ends exactly when every listed buffer can be freed. -/
theorem FilesOk.release_loop (h0 : Small s0) (hs : FilesOk s0 sys) (hf : sys.files f = some l) :
    (∃ t, freeAll l sys.alloc = .ok t) ↔ ∀ a ∈ l, Freeable sys.alloc a :=
  freeAll_completes h0 hs.books (descsOf_open hf ▸ hs.nodup f) fun b hb =>
    hs.live f b (by rwa [descsOf_open hf])

theorem FilesOk.release_frees (h0 : Small s0) (hs : FilesOk s0 sys) (hf : sys.files f = some l)
    (hfree : ∀ a ∈ l, Freeable sys.alloc a) :
    ∃ t, contigRelease sys f = .ok ⟨t, Function.update sys.files f none⟩ ∧
      ∀ b, t.heap b = if b ∈ l then none else sys.alloc.heap b := by
  obtain ⟨t, ht⟩ := (hs.release_loop h0 hf).mpr hfree
  refine ⟨t, ?_, (freeAll_ok h0 hs.books ht).2⟩
  simp only [contigRelease, hf, ht]
  rfl

theorem FilesOk.release_stops (h0 : Small s0) (hs : FilesOk s0 sys) (hf : sys.files f = some l)
    (hfree : ¬∀ a ∈ l, Freeable sys.alloc a) : contigRelease sys f = .error .bug := by
  have hstuck : ¬∃ t, freeAll l sys.alloc = .ok t := fun hends =>
    hfree ((hs.release_loop h0 hf).mp hends)
  have hlive := freeAll_live h0 hs.books (descsOf_open hf ▸ hs.nodup f) fun b hb =>
    hs.live f b (by rwa [descsOf_open hf])
  have hbug := hlive.resolve_right hstuck
  simp only [contigRelease, hf, hbug]
  rfl

theorem FilesOk.all_released (hs : FilesOk s0 sys) (h : ∀ f, sys.files f = none) :
    (∀ a, sys.alloc.heap a = none) ∧ ∀ i, sys.alloc.memAllocated i = 0 := by
  have hdead (a : Addr) : sys.alloc.heap a = none := by
    by_contra ha
    obtain ⟨f, hf⟩ := hs.owned a ha
    simp [descsOf, h] at hf
  refine ⟨hdead, ?_⟩
  intro i
  have hnil : sys.alloc.descList = [] := by
    refine List.eq_nil_iff_forall_not_mem.mpr ?_
    intro a ha
    exact (hs.books.live a).mp ha (hdead a)
  rw [hs.books.charged, heldOn, hnil]
  simp

/-- Files own their descriptors over every sequence of file operations: a live one is
listed by one open file, only that file can free it, and release frees the rest. Only
buffers of 4 GiB and more stop a free. -/
theorem descriptors_owned_by_files (h : contigInit p o = .ok s0)
    (hr : run fileStep (Sys.closed s0) calls = some sys) :
    (∀ a, sys.alloc.heap a ≠ none → sys.alloc.descList.count a = 1 ∧
      ∃ f l, sys.files f = some l ∧ l.count a = 1 ∧
        ∀ g k, sys.files g = some k → a ∈ k → g = f) ∧
    (∀ f l a, sys.files f = some l → a ∈ l → sys.alloc.heap a ≠ none) ∧
    (∀ f l a, sys.files f = some l → a ∉ l →
      contigFreeIoctl sys f (some a) = .ok (sys, .error .efault)) ∧
    (∀ f l a, sys.files f = some l → a ∈ l →
      (Freeable sys.alloc a → ∃ t, contigFreeIoctl sys f (some a) =
          .ok (⟨t, Function.update sys.files f (some (l.erase a))⟩, .ok ()) ∧
        ∀ b, t.heap b = if b = a then none else sys.alloc.heap b) ∧
      (¬Freeable sys.alloc a → contigFreeIoctl sys f (some a) = .error .bug)) ∧
    (∀ f l, sys.files f = some l →
      ((∀ a ∈ l, Freeable sys.alloc a) →
        ∃ t, contigRelease sys f = .ok ⟨t, Function.update sys.files f none⟩ ∧
          ∀ b, t.heap b = if b ∈ l then none else sys.alloc.heap b) ∧
      ((¬∀ a ∈ l, Freeable sys.alloc a) → contigRelease sys f = .error .bug)) ∧
    ((∀ f, sys.files f = none) →
      (∀ a, sys.alloc.heap a = none) ∧ ∀ i, sys.alloc.memAllocated i = 0) := by
  have h0 := small_init h
  have hs := filesOk_run h hr
  refine ⟨?_, ?_, ?_, ?_, ?_, hs.all_released⟩
  · intro a ha
    exact ⟨hs.count_descList ha, hs.exists_owner ha⟩
  · intro f l a hf ha
    exact hs.live f a (by rwa [descsOf_open hf])
  · intro f l a hf ha
    exact contigFreeIoctl_unlisted hf ha
  · intro f l a hf ha
    exact ⟨hs.free_listed h0 hf ha, hs.free_stops h0 hf ha⟩
  · intro f l hf
    exact ⟨hs.release_frees h0 hf, hs.release_stops h0 hf⟩

end Reachable

/-- Two open files; two buffers are allocated through the first and one through the second. -/
def twoFiles : List FileCall :=
  [.openFile 0 true, .openFile 1 true,
    .alloc 0 (some ⟨.preferred 0, 8192, false, 2⟩) (blockAt 64) ⟨true, true⟩,
    .alloc 0 (some ⟨.preferred 1, 4096, false, 1⟩) (blockAt 128) ⟨true, true⟩,
    .alloc 1 (some ⟨.preferred 0, 4096, false, 1⟩) (blockAt 192) ⟨true, true⟩]

def twoFilesClosed : List FileCall := twoFiles ++ [.free 0 (some 64), .release 0, .release 1]

/-- The second file cannot free the first buffer, the first file can; its release takes both of
its buffers, and after the releases nothing is left. -/
theorem descriptors_owned_by_files_two : ∃ sys t u closed,
    run fileStep (Sys.closed (initState smallInsmod)) twoFiles = some sys ∧
      contigFreeIoctl sys 1 (some 64) = .ok (sys, .error .efault) ∧
      contigFreeIoctl sys 0 (some 64) =
        .ok (⟨t, Function.update sys.files 0 (some [128])⟩, .ok ()) ∧
      (∀ b, t.heap b = if b = 64 then none else sys.alloc.heap b) ∧
      contigRelease sys 0 = .ok ⟨u, Function.update sys.files 0 none⟩ ∧
      (∀ b, u.heap b = if b ∈ [128, 64] then none else sys.alloc.heap b) ∧
      run fileStep (Sys.closed (initState smallInsmod)) twoFilesClosed = some closed ∧
      (∀ a, closed.alloc.heap a = none) ∧ ∀ i, closed.alloc.memAllocated i = 0 := by
  have h : ∃ sys desc desc', run fileStep (Sys.closed (initState smallInsmod)) twoFiles =
      some sys ∧ sys.files 0 = some [128, 64] ∧ sys.files 1 = some [192] ∧
        sys.alloc.heap 64 = some desc ∧ sys.alloc.heap 128 = some desc' ∧
        desc.n * sys.alloc.chunkSize < 2 ^ 32 ∧ desc'.n * sys.alloc.chunkSize < 2 ^ 32 :=
    ⟨_, _, _, rfl, rfl, rfl, rfl, rfl, by decide, by decide⟩
  obtain ⟨sys, desc, desc', hr, hf0, hf1, hd, hd', hsmall, hsmall'⟩ := h
  obtain ⟨-, -, hrefused, hfreed, hreleased, -⟩ := descriptors_owned_by_files contigInit_small hr
  have hfree : Freeable sys.alloc 64 := fun d hh => Option.some.inj (hd.symm.trans hh) ▸ hsmall
  have hfree' : Freeable sys.alloc 128 := fun d hh => Option.some.inj (hd'.symm.trans hh) ▸ hsmall'
  obtain ⟨t, ht, hheap⟩ := (hfreed 0 [128, 64] 64 hf0 (by simp)).1 hfree
  obtain ⟨u, hu, hheap'⟩ := (hreleased 0 [128, 64] hf0).1 (by
    intro a ha
    obtain rfl | rfl := List.mem_pair.mp ha
    · exact hfree'
    · exact hfree)
  have hend : ∃ closed, run fileStep (Sys.closed (initState smallInsmod)) twoFilesClosed =
      some closed ∧ closed.files 0 = none ∧ closed.files 1 = none ∧
        ∀ f, closed.files (f + 2) = none := ⟨_, rfl, rfl, rfl, fun _ => rfl⟩
  obtain ⟨closed, hrc, hzero, hone, hother⟩ := hend
  have hall (f : FileId) : closed.files f = none := by
    match f with
    | 0 => exact hzero
    | 1 => exact hone
    | f + 2 => exact hother f
  obtain ⟨-, -, -, -, -, hgone⟩ := descriptors_owned_by_files contigInit_small hrc
  obtain ⟨hdead, hcount⟩ := hgone hall
  exact ⟨sys, t, u, closed, hr, hrefused 1 [192] 64 hf1 (by simp), ht, hheap, hu, hheap', hrc,
    hdead, hcount⟩

end EspDrivers.ContigAlloc
