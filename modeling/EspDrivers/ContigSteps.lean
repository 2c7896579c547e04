import EspDrivers.ContigFiles

/-! The file operations of contig_alloc.c cut where contig_lock is free, so that those of
different files interleave. A descriptor that an ioctl has taken from contig_alloc, or out
of the list of its file, is in the hands of that ioctl until it is linked or freed. -/
namespace EspDrivers.ContigAlloc
open Trace

structure Desk where
  sys : Sys
  inHand : List (FileId × Addr)

inductive DeskEvent where
  | openFile (f : FileId)
  | alloc (f : FileId) (params : Params) (size : Nat) (m : Kmalloc)
  | link (f : FileId) (a : Addr)
  | unlink (f : FileId) (a : Addr)
  | free (f : FileId) (a : Addr)
  | close (f : FileId)

/-- contig_khandle_to_desc: when the loop comes to its end, `desc` is computed from the
head of desc_list, `listHead`. -/
def contigKhandleToDesc (s : State) (listHead khandle : Addr) : Option Addr :=
  let desc := (s.descList.find? (fun desc => desc = khandle)).getD listHead
  if desc = khandle then some desc else none

def deskStep (s : Desk) : DeskEvent → Option Desk
  | .openFile f =>
    if s.sys.files f = none then
      some { s with sys := { s.sys with files := Function.update s.sys.files f (some []) } }
    else none
  | .alloc f params size m =>
    match contigAlloc s.sys.alloc params size m with
    | .error _ => none
    | .ok (alloc, .error _) => some { s with sys := { s.sys with alloc := alloc } }
    | .ok (alloc, .ok a) => some ⟨{ s.sys with alloc := alloc }, (f, a) :: s.inHand⟩
  | .link f a =>
    match s.sys.files f with
    | none => none
    | some l =>
      if (f, a) ∈ s.inHand then
        some ⟨{ s.sys with files := Function.update s.sys.files f (some (a :: l)) },
          s.inHand.erase (f, a)⟩
      else none
  | .unlink f a =>
    match s.sys.files f with
    | none => none
    | some l =>
      if a ∈ l then
        some ⟨{ s.sys with files := Function.update s.sys.files f (some (l.erase a)) },
          (f, a) :: s.inHand⟩
      else none
  | .free f a =>
    if (f, a) ∈ s.inHand then
      match contigFree s.sys.alloc a with
      | .error _ => none
      | .ok alloc => some ⟨{ s.sys with alloc := alloc }, s.inHand.erase (f, a)⟩
    else none
  | .close f =>
    if s.sys.files f = some [] then
      some { s with sys := { s.sys with files := Function.update s.sys.files f none } }
    else none

section Steps
variable {s0 : State} {s t : Desk} {e : DeskEvent} {a : Addr} {f : FileId}

inductive AllocMove (s t : State) : DeskEvent → Prop where
  | same {e : DeskEvent} (he : ∀ f a, e ≠ .free f a) (h : t = s) : AllocMove s t e
  | alloc {f : FileId} {params : Params} {size : Nat} {m : Kmalloc} {a : Addr}
    (h : contigAlloc s params size m = .ok (t, .ok a)) : AllocMove s t (.alloc f params size m)
  | free {f : FileId} {a : Addr} (h : contigFree s a = .ok t) : AllocMove s t (.free f a)

theorem deskStep_move (h : deskStep s e = some t) : AllocMove s.sys.alloc t.sys.alloc e := by
  cases e with
  | openFile f =>
    simp only [deskStep] at h
    split at h
    · cases h
      exact .same (by simp) rfl
    · cases h
  | alloc f params size m =>
    simp only [deskStep] at h
    split at h
    · cases h
    · next alloc err hc =>
      cases h
      exact .same (by simp) (contigAlloc_error hc)
    · next alloc a hc =>
      cases h
      exact .alloc hc
  | link f a =>
    simp only [deskStep] at h
    split at h
    · cases h
    · split at h
      · cases h
        exact .same (by simp) rfl
      · cases h
  | unlink f a =>
    simp only [deskStep] at h
    split at h
    · cases h
    · split at h
      · cases h
        exact .same (by simp) rfl
      · cases h
  | free f a =>
    simp only [deskStep] at h
    split at h
    · split at h
      · cases h
      · next alloc hc =>
        cases h
        exact .free hc
    · cases h
  | close f =>
    simp only [deskStep] at h
    split at h
    · cases h
      exact .same (by simp) rfl
    · cases h

theorem deskStep_consistent (h0 : Small s0) (hs : Consistent s0 s.sys.alloc)
    (h : deskStep s e = some t) : Consistent s0 t.sys.alloc := by
  cases deskStep_move h with
  | same he hst =>
    rw [hst]
    exact hs
  | alloc hc =>
    obtain ⟨cs, u, d, _, ht, hf, ha, _, heq⟩ := contigAlloc_ok (hs.nodeOk h0) hc
    rw [heq]
    exact consistent_publish hs ht hf ha
  | free hc => exact consistent_free h0 hs hc

theorem deskStep_heap (h0 : Small s0) (hs : Consistent s0 s.sys.alloc)
    (h : deskStep s e = some t) {b : Addr} {desc : Desc} (hb : s.sys.alloc.heap b = some desc)
    (hne : ∀ f, e ≠ .free f b) : t.sys.alloc.heap b = some desc := by
  cases deskStep_move h with
  | same he hst => rw [hst, hb]
  | alloc hc =>
    obtain ⟨cs, u, d, _, ht, _, ha, _, heq⟩ := contigAlloc_ok (hs.nodeOk h0) hc
    rw [heq, publish_heap ht, if_neg, hb]
    intro hba
    rw [hba, ha] at hb
    cases hb
  | free hc =>
    rw [contigFree_heap h0 hs hc, Function.update_of_ne, hb]
    intro hba
    exact hne _ (by rw [hba])

theorem deskStep_free (h0 : Small s0) (hs : Consistent s0 s.sys.alloc)
    (h : deskStep s (.free f a) = some t) : t.sys.alloc.heap a = none := by
  cases deskStep_move h with
  | same he hst => exact absurd rfl (he f a)
  | free hc => rw [contigFree_heap h0 hs hc, Function.update_self]

theorem contigKhandleToDesc_some {s : State} {listHead khandle : Addr} :
    contigKhandleToDesc s listHead khandle = some a ↔
      a = khandle ∧ (khandle ∈ s.descList ∨ khandle = listHead) := by
  rw [contigKhandleToDesc]
  cases hf : s.descList.find? (fun desc => desc = khandle) with
  | none =>
    have hnot : khandle ∉ s.descList := by
      intro hmem
      have hne := List.find?_eq_none.mp hf khandle hmem
      simp at hne
    simp only [Option.getD_none]
    split
    · next heq =>
      simp only [Option.some.injEq, hnot, false_or]
      constructor
      · intro ha
        exact ⟨ha.symm.trans heq, heq.symm⟩
      · intro ha
        rw [ha.1, ha.2]
    · next hne =>
      refine iff_of_false (by simp) ?_
      intro ha
      cases ha.2 with
      | inl hmem => exact hnot hmem
      | inr heq => exact hne heq.symm
  | some d =>
    have hd : d = khandle := by simpa using List.find?_some hf
    have hmem : khandle ∈ s.descList := hd ▸ List.mem_of_find?_eq_some hf
    subst hd
    simp [hmem, eq_comm]

end Steps

section Calls
variable {s0 : State} {sys sys' : Sys} {f : FileId} {a : Addr}

def Splits (sys sys' : Sys) : Prop := Reaches deskStep ⟨sys, []⟩ ⟨sys', []⟩

theorem Splits.refl (sys : Sys) : Splits sys sys := Reaches.refl deskStep _

theorem contigAllocIoctl_splits {req : Option AllocReq} {m : Kmalloc} {c : UserCopies}
    {r : Except Errno AllocReply} (hf : sys.files f ≠ none)
    (h : contigAllocIoctl sys f req m c = .ok (sys', r)) : Splits sys sys' := by
  unfold contigAllocIoctl at h
  cases req with
  | none =>
    cases h
    exact Splits.refl sys
  | some req =>
    dsimp only at h
    split at h
    · cases h
      exact Splits.refl sys
    split at h
    · cases h
      exact Splits.refl sys
    obtain ⟨⟨s, r'⟩, hc, h⟩ := bind_ok.mp h
    cases r' with
    | error e =>
      cases h
      refine ⟨[.alloc f req.params req.size m], ?_⟩
      simp [run, deskStep, hc]
    | ok a =>
      have hfail : ∀ e, freeAndFail sys s a e = .ok (sys', r) → Splits sys sys' := by
        intro e hfree
        obtain ⟨t, ht, hfree⟩ := bind_ok.mp hfree
        cases hfree
        refine ⟨[.alloc f req.params req.size m, .free f a], ?_⟩
        simp [run, deskStep, hc, ht]
      simp only [replyAlloc] at h
      split at h
      · cases h
      · split at h
        · exact hfail _ h
        · split at h
          · exact hfail _ h
          · split at h
            · exact hfail _ h
            · cases h
              refine ⟨[.alloc f req.params req.size m, .link f a], ?_⟩
              cases hl : sys.files f with
              | none => exact absurd hl hf
              | some l => simp [run, deskStep, hc, hl]

theorem contigFreeIoctl_splits {del : Option Addr} {r : Except Errno Unit}
    (h : contigFreeIoctl sys f del = .ok (sys', r)) : Splits sys sys' := by
  unfold contigFreeIoctl at h
  split at h
  · cases h
    exact Splits.refl sys
  · cases h
  · next a l hl =>
    split at h
    · next hmem =>
      obtain ⟨t, ht, h⟩ := bind_ok.mp h
      cases h
      refine ⟨[.unlink f a, .free f a], ?_⟩
      simp [run, deskStep, hl, hmem, ht]
    · cases h
      exact Splits.refl sys

theorem contigRelease_splits (h : contigRelease sys f = .ok sys') : Splits sys sys' := by
  rw [contigRelease] at h
  cases hl : sys.files f with
  | none =>
    rw [hl] at h
    cases h
  | some l =>
    rw [hl] at h
    obtain ⟨t, ht, h⟩ := bind_ok.mp h
    cases h
    clear h
    induction l generalizing sys with
    | nil =>
      cases ht
      refine ⟨[.close f], ?_⟩
      simp [run, deskStep, hl]
    | cons a l ih =>
      obtain ⟨u, hu, ht⟩ := bind_ok.mp ht
      have hrest := @ih ⟨u, Function.update sys.files f (some l)⟩ (by simp) ht
      obtain ⟨es, hes⟩ := hrest
      refine ⟨.unlink f a :: .free f a :: es, ?_⟩
      simp only [Function.update_idem] at hes
      simp [run, deskStep, hl, hu, hes]

theorem contigOpen_splits {ok : Bool} (hf : sys.files f = none) :
    Splits sys (contigOpen sys f ok).1 := by
  cases ok with
  | false => exact Splits.refl sys
  | true =>
    refine ⟨[.openFile f], ?_⟩
    simp [run, deskStep, hf, contigOpen]

/-- A whole call is a run of its steps. -/
theorem fileStep_splits {call : FileCall} (h : fileStep sys call = some sys') :
    Splits sys sys' := by
  cases fileStep_run h with
  | openFile hf heq =>
    rw [← heq]
    exact contigOpen_splits hf
  | alloc hf hc => exact contigAllocIoctl_splits hf hc
  | free hc => exact contigFreeIoctl_splits hc
  | release hc => exact contigRelease_splits hc

end Calls

end EspDrivers.ContigAlloc
