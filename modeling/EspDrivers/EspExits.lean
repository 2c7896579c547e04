import EspDrivers.EspAccess
import EspDrivers.Trace

/-! The exits of esp_access_ioctl. Which of them give the accounting back, and which of
them release esp->lock, is decided by the outcomes alone. -/
namespace EspDrivers.Esp
open ContigAlloc (Desc Errno Fault bind_ok)
open Trace

variable {Arg : Type} {m : Module Arg} {arg : Arg} {o : Outcomes} {w : World}
  {contig : Desc} {rc : Except Errno Unit}

section Conditions

def Passes (m : Module Arg) (arg : Arg) (o : Outcomes) (w : World) : Prop :=
  o.kmalloc = true ∧ o.copied = true ∧ (m.driver.access arg).p2pNsrcs ≤ 4 ∧
    (∃ contig, o.contig = some contig ∧ espXferInputOk w.dev.iomem contig = true) ∧
    m.driver.inputOk arg = true ∧ o.lock = true

def Connects (m : Module Arg) (arg : Arg) : Prop :=
  ∀ i : Fin 4, i.val < (m.driver.access arg).p2pNsrcs → ∃ dev ∈ m.espDevices,
    strncmpEq ((m.driver.access arg).p2pSrcs i) dev.name dev.name.length = true

/-- The access is charged to esp_status, or lets go of a FULL request. -/
def Charged (s : Status) (access : Access) : Prop :=
  access.coherence = .auto ∨ (access.coherence = .full ∧ s.activeAccCntFull < 1)

/-- No LLC controller needs a flush in this mode, or the lock of each is obtained. -/
def Flushes (riscv : Bool) (mode : Coherence) (llc : List Bool) : Prop :=
  riscv = true ∨ Coherence.llc.value ≤ mode.value ∨ ∀ locked ∈ llc, locked = true

def Completes (m : Module Arg) (arg : Arg) (o : Outcomes) (s : Status) : Prop :=
  Flushes m.riscv (decision m.cache s (m.driver.access arg).fields) o.llc ∧
    ((m.driver.access arg).coherence.usesStatus = true → o.statusLock2 = true)

end Conditions

section Tests

theorem espP2pSetSrcs_ok (espDevices : List Peer) (access : Access) (is : List (Fin 4)) :
    (espP2pSetSrcs espDevices access is).2 = .ok () ↔ ∀ i ∈ is, ∃ dev ∈ espDevices,
      strncmpEq (access.p2pSrcs i) dev.name dev.name.length = true := by
  induction is with
  | nil => exact iff_of_true rfl (fun i hi => by cases hi)
  | cons i is ih =>
    rw [List.forall_mem_cons, ← ih, espP2pSetSrcs, espP2pSetSrc]
    cases hf : espDevices.find? (fun dev => strncmpEq (access.p2pSrcs i) dev.name dev.name.length) with
    | none =>
      have hnone := List.find?_eq_none.mp hf
      refine iff_of_false (fun h => by cases h) ?_
      intro h
      obtain ⟨dev, hdev, heq⟩ := h.1
      exact hnone dev hdev heq
    | some dev =>
      have hsame := List.find?_some hf
      have hfound : ∃ dev ∈ espDevices,
          strncmpEq (access.p2pSrcs i) dev.name dev.name.length = true :=
        ⟨dev, List.mem_of_find?_eq_some hf, hsame⟩
      exact (and_iff_right hfound).symm

theorem espP2pInit_ok : (espP2pInit m.espDevices (m.driver.access arg)).2 = .ok () ↔
    Connects m arg := by
  have hsrcs := espP2pSetSrcs_ok m.espDevices (m.driver.access arg)
    ((List.finRange 4).take (m.driver.access arg).p2pNsrcs)
  have hmem : ∀ i : Fin 4, i ∈ (List.finRange 4).take (m.driver.access arg).p2pNsrcs ↔
      i.val < (m.driver.access arg).p2pNsrcs := by
    intro i
    simp [List.mem_take_iff_getElem, Fin.ext_iff]
  simp only [hmem] at hsrcs
  rw [Connects, ← hsrcs]
  unfold espP2pInit
  dsimp only
  split
  · next e he => rw [he]
  · next he => rw [he]

theorem espCacheFlush_ok (llc : List Bool) :
    espCacheFlush llc = .ok () ↔ ∀ locked ∈ llc, locked = true := by
  induction llc with
  | nil => simp [espCacheFlush]
  | cons locked rest ih =>
    cases locked with
    | true => simpa [espCacheFlush] using ih
    | false => simp [espCacheFlush]

theorem espFlush_ok {riscv : Bool} {mode : Coherence} {llc : List Bool} :
    espFlush riscv mode llc = .ok () ↔ Flushes riscv mode llc := by
  unfold espFlush Flushes
  cases riscv with
  | true => simp
  | false =>
    by_cases hmode : mode.value < Coherence.llc.value
    · simp [hmode, espCacheFlush_ok]
    · simp [hmode, Nat.le_of_not_lt hmode]

end Tests

section Stages

theorem usesStatus_iff {c : Coherence} : c.usesStatus = true ↔ c = .auto ∨ c = .full := by
  simp [Coherence.usesStatus]

theorem decision_plain {c : CacheParams} {s : Status} {esp : Fields}
    (h : esp.coherence.usesStatus = false) : decision c s esp = esp.coherence := by
  have hmodes : esp.coherence ≠ .auto ∧ esp.coherence ≠ .full := by
    simpa [Coherence.usesStatus] using h
  rw [decision, if_neg hmodes.2, if_neg hmodes.1]

@[simp] theorem perform_fields (dev : Device) (ops : List RegOp) :
    (dev.perform ops).fields = dev.fields := rfl

@[simp] theorem espIrq_fields (status : BitVec 32) (dev : Device) :
    (espIrq status dev).fields = dev.fields := by
  rw [espIrq]
  split
  · rfl
  · split <;> rfl

@[simp] theorem espWait_fields (dev : Device) (wait : Wait) :
    (espWait dev wait).1.fields = dev.fields := by
  cases wait with
  | signal => rfl
  | irq error => simp [espWait]

theorem accessTransfer_end : ∃ dev rc, dev.fields = w.dev.fields ∧
    accessTransfer m arg contig o w =
      accessEnd m (m.driver.access arg) o rc { w with dev := dev } := by
  rw [accessTransfer]
  dsimp only
  split
  · refine ⟨_, _, ?_, rfl⟩
    simp
  · refine ⟨_, _, ?_, rfl⟩
    simp

theorem accessFlush_returns (hlock : (m.driver.access arg).coherence.usesStatus = true →
      w.statusLock = false ∧ ∃ t, espUpdateStatus m.cache w.status w.dev.fields
        ((m.driver.access arg).coherence = .auto) = .ok t) :
    ∃ w' rc, accessFlush m arg contig o w = .returns w' rc ∧ w'.statusLock = w.statusLock ∧
      if espFlush m.riscv w.dev.fields.coherence o.llc = .ok () ∧
          ((m.driver.access arg).coherence.usesStatus = true → o.statusLock2 = true) then
        w'.lock = false ∧ w'.status =
          if (m.driver.access arg).coherence.usesStatus then w.status -
            charge m.cache ((m.driver.access arg).coherence = .auto) w.dev.fields
          else w.status
      else w'.lock = w.lock ∧ w'.status = w.status := by
  rw [accessFlush]
  cases hflush : espFlush m.riscv w.dev.fields.coherence o.llc with
  | error e => exact ⟨w, .error e, rfl, rfl, by simp⟩
  | ok u =>
    obtain ⟨dev, rc, hfields, hend⟩ := @accessTransfer_end Arg m arg o w contig
    dsimp only
    rw [hend]
    rw [accessEnd]
    split
    · next huses =>
      obtain ⟨hfree, t, ht⟩ := hlock huses
      have htval := espUpdateStatus_ok ht
      unfold underStatusLock Module.updateStatus
      cases hlock2 : o.statusLock2 with
      | false => exact ⟨_, _, rfl, rfl, by simp [huses]⟩
      | true =>
        simp only [Bool.not_true, Bool.false_eq_true, if_false, hfree, hfields, ht]
        exact ⟨_, _, rfl, rfl, by simp [huses, htval]⟩
    · next huses => exact ⟨_, _, rfl, rfl, by simp [huses]⟩

theorem charge_eq_zero {c : CacheParams} {s : Status} {access : Access} {esp : Fields}
    (huses : access.coherence.usesStatus = true)
    (hdec : esp.coherence = decision c s access.fields) :
    charge c (access.coherence = .auto) esp = 0 ↔ ¬ Charged s access := by
  cases usesStatus_iff.mp huses with
  | inl hauto =>
    refine iff_of_false ?_ (fun h => h (Or.inl hauto))
    intro h
    have hcnt : Counter.cnt.hom (charge c (access.coherence = .auto) esp) = 0 := by
      rw [h, map_zero]
    simp [charge, hauto, Counter.read] at hcnt
  | inr hfull =>
    have hnot : access.coherence ≠ .auto := by simp [hfull]
    have hmode : esp.coherence = if 1 ≤ s.activeAccCntFull then .llc else .full := by
      rw [hdec, decision]
      exact if_pos hfull
    have hcharged : Charged s access ↔ s.activeAccCntFull < 1 := by simp [Charged, hfull]
    rw [hcharged, BitVec.not_lt]
    by_cases hle : 1 ≤ s.activeAccCntFull
    · rw [if_pos hle] at hmode
      refine iff_of_true ?_ hle
      apply status_ext
      intro i
      rw [map_zero]
      cases i <;> simp [charge, hnot, hmode, Counter.read]
    · rw [if_neg hle] at hmode
      refine iff_of_false ?_ hle
      intro h
      have hcnt : Counter.full.hom (charge c (access.coherence = .auto) esp) = 0 := by
        rw [h, map_zero]
      simp [charge, hmode, Counter.read] at hcnt

theorem accessConfig_interrupted (huses : (m.driver.access arg).coherence.usesStatus = true)
    (ho : o.statusLock = false) : ∃ w', accessConfig m arg contig o w = .returns w' (.error .eintr) ∧
      w'.status = w.status ∧ w'.lock = w.lock ∧ w'.statusLock = w.statusLock := by
  unfold accessConfig underStatusLock
  simp only [huses, ho, if_true, Bool.not_false]
  exact ⟨_, rfl, rfl, rfl, rfl⟩

theorem accessConfig_blocks (huses : (m.driver.access arg).coherence.usesStatus = true)
    (ho : o.statusLock = true) (hw : w.statusLock = true) :
    accessConfig m arg contig o w = .blocks := by
  unfold accessConfig underStatusLock
  simp [huses, ho, hw]

theorem runtimeConfig_eq (w : World) : m.runtimeConfig w =
    (espRuntimeConfig m.cache w.status w.dev.fields).map fun r =>
      { w with status := r.1, dev := { w.dev with fields := r.2 } } := by
  rw [Module.runtimeConfig]
  cases espRuntimeConfig m.cache w.status w.dev.fields <;> rfl

theorem accessConfig_faults (huses : (m.driver.access arg).coherence.usesStatus = true)
    (ho : o.statusLock = true) (hw : w.statusLock = false)
    (hb : ¬ InBounds m.cache w.status (m.driver.access arg).fields) :
    accessConfig m arg contig o w = .faults := by
  have hmode := usesStatus_iff.mp huses
  have herr : ∃ e, espRuntimeConfig m.cache w.status (m.driver.access arg).fields = .error e := by
    cases hrun : espRuntimeConfig m.cache w.status (m.driver.access arg).fields with
    | error e => exact ⟨e, rfl⟩
    | ok r => exact absurd (espRuntimeConfig_decision hmode hrun).2 hb
  obtain ⟨e, herr⟩ := herr
  unfold accessConfig underStatusLock
  simp [huses, ho, hw, runtimeConfig_eq, herr, Except.map]

theorem accessConfig_returns (hlock : (m.driver.access arg).coherence.usesStatus = true →
      o.statusLock = true ∧ w.statusLock = false ∧
        InBounds m.cache w.status (m.driver.access arg).fields) :
    ∃ w' rc, accessConfig m arg contig o w = .returns w' rc ∧ w'.statusLock = w.statusLock ∧
      (Completes m arg o w.status → w'.lock = false ∧ w'.status = w.status) ∧
      (¬ Completes m arg o w.status → w'.lock = w.lock ∧
        (w'.status = w.status ↔ ¬ Charged w.status (m.driver.access arg))) := by
  cases huses : (m.driver.access arg).coherence.usesStatus with
  | false =>
    obtain ⟨w', rc, hret, hstatus, hend⟩ := @accessFlush_returns Arg m arg o
      { w with dev := { w.dev with fields := (m.driver.access arg).fields } } contig
      (fun h => by rw [huses] at h; cases h)
    have hplain := @decision_plain m.cache w.status (m.driver.access arg).fields huses
    refine ⟨w', rc, ?_, hstatus, ?_, ?_⟩
    · rw [accessConfig]
      simpa [huses] using hret
    · intro hc
      rw [Completes, hplain, ← espFlush_ok] at hc
      rw [if_pos hc] at hend
      simpa [huses] using hend
    · intro hc
      rw [Completes, hplain, ← espFlush_ok] at hc
      rw [if_neg hc] at hend
      refine ⟨hend.1, iff_of_true hend.2 ?_⟩
      intro hch
      have hno := huses
      cases hch with
      | inl ha => simp [Coherence.usesStatus, ha] at hno
      | inr hf => simp [Coherence.usesStatus, hf.1] at hno
  | true =>
    obtain ⟨ho, hw, hb⟩ := hlock huses
    have hmode := usesStatus_iff.mp huses
    obtain ⟨⟨t, esp⟩, hrun⟩ := espRuntimeConfig_inBounds hmode hb
    obtain ⟨hcharge, hdecided, hfits⟩ := espRuntimeConfig_ok hmode hrun
    have hdec := (espRuntimeConfig_decision hmode hrun).1
    have hupd : ∃ t', espUpdateStatus m.cache t esp
        ((m.driver.access arg).coherence = .auto) = .ok t' := by
      apply espUpdateStatus_total
      intro hauto hnone
      exact hfits (of_decide_eq_true hauto) hnone
    obtain ⟨w', rc, hret, hstatus, hend⟩ := @accessFlush_returns Arg m arg o
      { w with status := t, statusLock := false, dev := { w.dev with fields := esp } } contig
      (fun _ => ⟨rfl, hupd⟩)
    refine ⟨w', rc, ?_, hstatus.trans hw.symm, ?_, ?_⟩
    · unfold accessConfig underStatusLock
      simpa [huses, ho, hw, runtimeConfig_eq, hrun, Except.map] using hret
    · intro hc
      rw [Completes, ← hdec, ← espFlush_ok] at hc
      rw [if_pos hc, if_pos huses] at hend
      refine ⟨hend.1, ?_⟩
      rw [hend.2, hcharge]
      exact add_sub_cancel_right _ _
    · intro hc
      rw [Completes, ← hdec, ← espFlush_ok] at hc
      rw [if_neg hc] at hend
      refine ⟨hend.1, ?_⟩
      rw [hend.2, ← charge_eq_zero huses hdec]
      dsimp only
      rw [hcharge]
      exact add_eq_left

end Stages

section Exits

theorem espAccessIoctl_early (h : ¬ Passes m arg o w) :
    ∃ rc, espAccessIoctl m arg o w = .returns w rc := by
  rw [espAccessIoctl]
  by_cases hk : o.kmalloc = true
  · by_cases hc : o.copied = true
    · simp only [hk, hc, Bool.not_true, Bool.false_eq_true, if_false]
      cases hd : o.contig with
      | none => exact ⟨_, rfl⟩
      | some contig =>
        by_cases hn : 4 < (m.driver.access arg).p2pNsrcs
        · exact ⟨.error .einval, by simp [hn]⟩
        · by_cases hx : espXferInputOk w.dev.iomem contig = true
          · by_cases hi : m.driver.inputOk arg = true
            · have hlock : o.lock = false := by
                by_contra hl
                exact h ⟨hk, hc, by omega, ⟨contig, hd, hx⟩, hi, by simpa using hl⟩
              exact ⟨.error .eintr, by simp [hn, hx, hi, accessLock, hlock]⟩
            · exact ⟨.error .einval, by simp [hn, hx, hi]⟩
          · exact ⟨.error .einval, by simp [hn, hx]⟩
    · exact ⟨.error .efault, by simp [hk, hc]⟩
  · exact ⟨.error .enomem, by simp [hk]⟩

theorem espAccessIoctl_passes (h : Passes m arg o w) :
    ∃ contig, espAccessIoctl m arg o w = accessLock m arg contig o w := by
  obtain ⟨hk, hc, hn, ⟨contig, hd, hx⟩, hi, _⟩ := h
  have hn' : ¬ 4 < (m.driver.access arg).p2pNsrcs := by omega
  exact ⟨contig, by simp [espAccessIoctl, hk, hc, hd, hn', hx, hi]⟩

theorem espAccessIoctl_blocks (h : Passes m arg o w) (hw : w.lock = true) :
    espAccessIoctl m arg o w = .blocks := by
  obtain ⟨contig, heq⟩ := espAccessIoctl_passes h
  have hl : o.lock = true := h.2.2.2.2.2
  rw [heq, accessLock]
  simp [hl, hw]

theorem espAccessIoctl_unconnected (h : Passes m arg o w) (hw : w.lock = false)
    (hp : ¬ Connects m arg) : ∃ w' rc, espAccessIoctl m arg o w = .returns w' rc ∧
      w'.status = w.status ∧ w'.lock = true := by
  obtain ⟨contig, heq⟩ := espAccessIoctl_passes h
  have hl : o.lock = true := h.2.2.2.2.2
  rw [heq, accessLock]
  simp only [hl, hw, Bool.not_true, Bool.false_eq_true, if_false]
  cases hr : (espP2pInit m.espDevices (m.driver.access arg)).2 with
  | error e => exact ⟨_, _, rfl, rfl, rfl⟩
  | ok u => exact absurd (espP2pInit_ok.mp hr) hp

theorem espAccessIoctl_connected (h : Passes m arg o w) (hw : w.lock = false)
    (hp : Connects m arg) : ∃ contig w₁, espAccessIoctl m arg o w = accessConfig m arg contig o w₁ ∧
      w₁.status = w.status ∧ w₁.lock = true ∧ w₁.statusLock = w.statusLock := by
  obtain ⟨contig, heq⟩ := espAccessIoctl_passes h
  have hl : o.lock = true := h.2.2.2.2.2
  have hr := espP2pInit_ok.mpr hp
  rw [heq, accessLock]
  simp only [hl, hw, hr, Bool.not_true, Bool.false_eq_true, if_false]
  exact ⟨contig, _, rfl, rfl, rfl, rfl⟩

end Exits

section GivesBack

/-- When the call has returned, esp_status is `s`. -/
def GivesBack (s : Status) : Result → Prop
  | .returns w _ => w.status = s
  | .blocks => True
  | .faults => False

/-- An access gives the accounting back exactly when, once it can charge esp_status, its
indices are inside the arrays and, if it is charged, the flush and the second wait for
esp_status.lock succeed. -/
theorem espAccessIoctl_givesBack (m : Module Arg) (arg : Arg) (o : Outcomes) (w : World) :
    GivesBack w.status (espAccessIoctl m arg o w) ↔
      (Passes m arg o w → w.lock = false → Connects m arg →
        (m.driver.access arg).coherence.usesStatus = true → o.statusLock = true →
        w.statusLock = false → InBounds m.cache w.status (m.driver.access arg).fields ∧
          (Charged w.status (m.driver.access arg) → Completes m arg o w.status)) := by
  by_cases hpass : Passes m arg o w
  case neg =>
    obtain ⟨rc, hret⟩ := espAccessIoctl_early hpass
    rw [hret]
    exact iff_of_true rfl (fun h => absurd h hpass)
  cases hl : w.lock with
  | true =>
    rw [espAccessIoctl_blocks hpass hl]
    exact iff_of_true trivial (fun _ h => by cases h)
  | false =>
    by_cases hcon : Connects m arg
    case neg =>
      obtain ⟨w', rc, hret, hstatus, _⟩ := espAccessIoctl_unconnected hpass hl hcon
      rw [hret]
      exact iff_of_true hstatus (fun _ _ h => absurd h hcon)
    obtain ⟨contig, w₁, hconfig, hst, _, hsl⟩ := espAccessIoctl_connected hpass hl hcon
    rw [hconfig]
    simp only [hpass, hcon, forall_const, ← hst, ← hsl]
    by_cases huses : (m.driver.access arg).coherence.usesStatus = true
    case neg =>
      obtain ⟨w', rc, hret, _, hdone, hkept⟩ := @accessConfig_returns Arg m arg o w₁ contig
        (fun h => absurd h huses)
      rw [hret]
      refine iff_of_true ?_ (fun h => absurd h huses)
      by_cases hc : Completes m arg o w₁.status
      · exact (hdone hc).2
      · refine (hkept hc).2.mpr ?_
        intro hch
        apply huses
        rw [usesStatus_iff]
        exact hch.imp_right And.left
    by_cases ho : o.statusLock = true
    case neg =>
      obtain ⟨w', hret, hstatus, _⟩ := @accessConfig_interrupted Arg m arg o w₁ contig huses
        (by simpa using ho)
      rw [hret]
      exact iff_of_true hstatus (fun _ h => absurd h ho)
    by_cases hs : w₁.statusLock = false
    case neg =>
      rw [accessConfig_blocks huses ho (by simpa using hs)]
      exact iff_of_true trivial (fun _ _ h => absurd h hs)
    by_cases hb : InBounds m.cache w₁.status (m.driver.access arg).fields
    case neg =>
      rw [accessConfig_faults huses ho hs hb]
      exact iff_of_false id (fun h => hb (h huses ho hs).1)
    obtain ⟨w', rc, hret, _, hdone, hkept⟩ := @accessConfig_returns Arg m arg o w₁ contig
      (fun _ => ⟨ho, hs, hb⟩)
    rw [hret]
    simp only [huses, ho, hs, hb, forall_const, true_and]
    by_cases hc : Completes m arg o w₁.status
    · exact iff_of_true (hdone hc).2 (fun _ => hc)
    · have hiff : GivesBack w₁.status (.returns w' rc) ↔
          ¬ Charged w₁.status (m.driver.access arg) := (hkept hc).2
      rw [hiff]
      exact ⟨fun h h' => absurd h' h, fun h h' => hc (h h')⟩

def plainModule : Module Access := ⟨.default, false, 20, [], ⟨id, none, none⟩⟩

def quiet : World :=
  ⟨⟨fun _ => 0, ⟨.none, 0, .preferred, 0, 0, 0⟩, false, false⟩, Status.zero, false, false⟩

def request (nsrcs : Nat) (coherence : Coherence) (footprint : BitVec 32) : Access :=
  ⟨0, true, false, nsrcs, fun _ => ['s', '.', '9'], coherence, footprint, .preferred, 0, 0, 0⟩

def oneChunk : Desc :=
  ⟨[0], 0, 1, ContigAlloc.firstNode, [⟨0, ContigAlloc.firstNode, 0⟩]⟩

def success : Outcomes := ⟨true, true, some oneChunk, true, true, [true], .irq false, true⟩

theorem interrupted_flush_keeps : ¬ GivesBack quiet.status
    (espAccessIoctl plainModule (request 0 .auto 300000) { success with llc := [false] } quiet) := by
  intro h
  have hcnt : (1 : BitVec 32) = 0 := congrArg Status.activeAccCnt h
  exact absurd hcnt (by decide)

end GivesBack

section Releases

def Free (w : World) : Prop := w.lock = false ∧ w.statusLock = false

/-- No step between mutex_lock_interruptible(&esp->lock) and its mutex_unlock fails. -/
def Releases (m : Module Arg) (arg : Arg) (o : Outcomes) (w : World) : Prop :=
  Passes m arg o w → Connects m arg ∧
    ((m.driver.access arg).coherence.usesStatus = true →
      o.statusLock = true ∧ InBounds m.cache w.status (m.driver.access arg).fields) ∧
    Completes m arg o w.status

theorem returns_free_iff (hw : Free w) :
    (∃ w' rc, espAccessIoctl m arg o w = .returns w' rc ∧ Free w') ↔ Releases m arg o w := by
  by_cases hpass : Passes m arg o w
  case neg =>
    obtain ⟨rc, hret⟩ := espAccessIoctl_early hpass
    exact iff_of_true ⟨w, rc, hret, hw⟩ (fun h => absurd h hpass)
  by_cases hcon : Connects m arg
  case neg =>
    obtain ⟨w', rc, hret, _, hlock⟩ := espAccessIoctl_unconnected hpass hw.1 hcon
    refine iff_of_false ?_ (fun h => hcon (h hpass).1)
    rw [hret]
    intro hex
    obtain ⟨_, _, heq, hfree⟩ := hex
    cases heq
    rw [hfree.1] at hlock
    cases hlock
  obtain ⟨contig, w₁, hconfig, hst, hlock, hsl⟩ := espAccessIoctl_connected hpass hw.1 hcon
  have hfree₁ : w₁.statusLock = false := hsl.trans hw.2
  rw [hconfig, Releases]
  simp only [hpass, hcon, forall_const, true_and, ← hst]
  by_cases huses : (m.driver.access arg).coherence.usesStatus = true →
      o.statusLock = true ∧ InBounds m.cache w₁.status (m.driver.access arg).fields
  · obtain ⟨w', rc, hret, hstatus, hdone, hkept⟩ := @accessConfig_returns Arg m arg o w₁ contig
      (fun h => ⟨(huses h).1, hfree₁, (huses h).2⟩)
    rw [hret, and_iff_right huses]
    constructor
    · intro hex
      obtain ⟨_, _, heq, hfree⟩ := hex
      cases heq
      by_contra hc
      have hkeep := (hkept hc).1
      rw [hfree.1, hlock] at hkeep
      cases hkeep
    · exact fun hc => ⟨w', rc, rfl, (hdone hc).1, hstatus.trans hfree₁⟩
  · refine iff_of_false ?_ (fun h => huses h.1)
    intro hex
    obtain ⟨w', rc, heq, hfree⟩ := hex
    have hu : (m.driver.access arg).coherence.usesStatus = true := by
      by_contra hn
      exact huses (fun h => absurd h hn)
    by_cases ho : o.statusLock = true
    · have hb : ¬ InBounds m.cache w₁.status (m.driver.access arg).fields :=
        fun hb => huses (fun _ => ⟨ho, hb⟩)
      rw [accessConfig_faults hu ho hfree₁ hb] at heq
      cases heq
    · obtain ⟨w₂, hret, _, hkeep, _⟩ := @accessConfig_interrupted Arg m arg o w₁ contig hu
        (by simpa using ho)
      rw [hret] at heq
      cases heq
      rw [hfree.1, hlock] at hkeep
      cases hkeep

def afterAccess (m : Module Arg) (w : World) (call : Arg × Outcomes) : Option World :=
  match espAccessIoctl m call.1 call.2 w with
  | .returns w' _ => some w'
  | _ => none

/-- Every access of the sequence returns, and with both mutexes free. -/
def Serves (m : Module Arg) : World → List (Arg × Outcomes) → Prop
  | _, [] => True
  | w, call :: calls => ∃ w' rc, espAccessIoctl m call.1 call.2 w = .returns w' rc ∧ Free w' ∧
      Serves m w' calls

/-- A device serves a sequence of accesses exactly when each of them releases. -/
theorem serves_iff (hw : Free w) (calls : List (Arg × Outcomes)) :
    Serves m w calls ↔
      Along (afterAccess m) (fun w call => Releases m call.1 call.2 w) w calls := by
  induction calls generalizing w with
  | nil => exact iff_of_true trivial trivial
  | cons call calls ih =>
    have hone := @returns_free_iff Arg m call.1 call.2 w hw
    constructor
    · intro h
      obtain ⟨w', rc, hret, hfree, hrest⟩ := h
      refine ⟨hone.mp ⟨w', rc, hret, hfree⟩, ?_⟩
      intro t ht
      rw [afterAccess, hret] at ht
      cases ht
      exact (ih hfree).mp hrest
    · intro h
      obtain ⟨w', rc, hret, hfree⟩ := hone.mpr h.1
      refine ⟨w', rc, hret, hfree, (ih hfree).mpr (h.2 w' ?_)⟩
      rw [afterAccess, hret]

/-- A source that is not registered: the access fails, and the next one waits for ever. -/
theorem unknown_source_blocks : Free quiet ∧ ∃ w,
    espAccessIoctl plainModule (request 1 .none 0) success quiet = .returns w (.error .enodev) ∧
      w.lock = true ∧ espAccessIoctl plainModule (request 0 .none 0) success w = .blocks :=
  ⟨⟨rfl, rfl⟩, _, rfl, rfl, rfl⟩

def failThenRun : List (Access × Outcomes) :=
  [(request 5 .none 0, success), (request 0 .auto 300000, success)]

theorem failThenRun_served : Serves plainModule quiet failThenRun ∧
    Along (afterAccess plainModule) (fun w call => Releases plainModule call.1 call.2 w) quiet
      failThenRun := by
  have h : Serves plainModule quiet failThenRun :=
    ⟨_, _, rfl, ⟨rfl, rfl⟩, _, _, rfl, ⟨rfl, rfl⟩, trivial⟩
  exact ⟨h, (serves_iff ⟨rfl, rfl⟩ failThenRun).mp h⟩

end Releases

end EspDrivers.Esp
