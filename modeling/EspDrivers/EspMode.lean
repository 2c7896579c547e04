import EspDrivers.EspRuns

/-! The mode of an access in flight. esp->coherence is read in front of the flush of the
private caches, after it, when COHERENCE is written and when the charge is taken back;
ESP_IOC_FLUSH writes it without esp->lock. -/
namespace EspDrivers.Esp
open ContigAlloc (Desc Errno Fault bind_ok)
open Trace

variable {Arg : Type} {m : Module Arg} {s s' : Machine Arg} {t : Tid} {e : DeviceEvent Arg}

section Uses

/-- The events of one access and of any calls of ESP_IOC_FLUSH. -/
def OneAccess (t : Tid) : DeviceEvent Arg → Prop
  | .access u _ => u = t
  | .espIocFlush .. | .raise .. | .irq => True
  | .enter .. | .espIocRun _ | .others _ => False

/-- The mode that the step uses: for one of the tests of esp_flush, which are not compiled on
RISC-V, for COHERENCE or for the end of the charge. -/
def modeUsed (m : Module Arg) (t : Tid) (s : Machine Arg) : DeviceEvent Arg → Option Coherence
  | .access u ok =>
    if u = t then
      match s.pc t with
      | .flush .. | .flushLlc .. => if m.riscv then none else some s.fields.coherence
      | .transfer _ [] => some s.fields.coherence
      | .update arg _ _ =>
        if (m.driver.access arg).coherence.usesStatus && ok then some s.fields.coherence else none
      | _ => none
    else none
  | _ => none

def modesUsed (m : Module Arg) (t : Tid) : Machine Arg → List (DeviceEvent Arg) → List Coherence
  | _, [] => []
  | s, e :: es =>
    (modeUsed m t s e).toList ++
      match deviceStep m s e with
      | none => []
      | some s' => modesUsed m t s' es

/-- The mode in the device is going to be used again, as what it was used for before: from
the charge to the end of an access that is charged, from the first test of esp_flush to the
write of COHERENCE otherwise. -/
def Pc.keepsMode (m : Module Arg) : Pc Arg → Bool
  | .flushLlc arg _ _ | .clearErr arg _ | .reinit arg _ | .transfer arg _ =>
    !m.riscv || (m.driver.access arg).coherence.usesStatus
  | .flush arg _ | .write arg _ | .start arg | .wait arg _ | .readErr arg _ | .update arg _ _ =>
    (m.driver.access arg).coherence.usesStatus
  | _ => false

def Pc.discharges (m : Module Arg) : Pc Arg → Bool
  | .update arg _ _ => (m.driver.access arg).coherence.usesStatus
  | _ => false

/-- ESP_IOC_FLUSH does not change a mode that the access uses again, and an access charged
as FULL obtains esp_status.lock in the end. -/
def Undisturbed (m : Module Arg) (t : Tid) (s : Machine Arg) : DeviceEvent Arg → Prop
  | .espIocFlush _ coherence => (s.pc t).keepsMode m = true → coherence = s.fields.coherence
  | .access _ ok => (s.pc t).discharges m = true → s.fields.coherence = .full → ok = true
  | _ => True

instance (m : Module Arg) (t : Tid) (s : Machine Arg) : DecidablePred (Undisturbed m t s)
  | .espIocFlush _ coherence =>
    inferInstanceAs (Decidable ((s.pc t).keepsMode m = true → coherence = s.fields.coherence))
  | .access _ ok =>
    inferInstanceAs (Decidable ((s.pc t).discharges m = true → s.fields.coherence = .full → ok = true))
  | .enter .. | .espIocRun _ | .raise .. | .irq | .others _ => isTrue trivial

def Single (used : List Coherence) : Prop := ∃ mode, ∀ c ∈ used, c = mode

end Uses

section Charges
variable {c : CacheParams} {st st' : Status} {esp esp' : Fields}

def FullWith (full : BitVec 32) (coherence : Coherence) (now : BitVec 32) : Prop :=
  (coherence = .full ∧ full = 0 ∧ now = 1) ∨ (coherence ≠ .full ∧ now = full)

theorem espRuntimeConfig_full (h : espRuntimeConfig c st esp = .ok (st', esp')) :
    FullWith st.activeAccCntFull esp'.coherence st'.activeAccCntFull := by
  have hzero : ∀ n : BitVec 32, n < 1 → n = 0 ∧ n + 1 = 1 := by
    intro n hn
    have hnat : n.toNat < 1 := hn
    have heq : n = 0 := BitVec.eq_of_toNat_eq (Nat.lt_one_iff.mp hnat)
    subst heq
    exact ⟨rfl, rfl⟩
  rw [espRuntimeConfig] at h
  split at h
  · next hfull =>
    split at h
    · cases h
      exact Or.inr ⟨by simp, rfl⟩
    · next hcnt =>
      cases h
      have hlt := hzero _ (BitVec.not_le.mp hcnt)
      exact Or.inl ⟨hfull, hlt.1, hlt.2⟩
  · obtain ⟨⟨footprint, threshold⟩, _, h⟩ := bind_ok.mp h
    have hmode := @chooseCoherence_cases c { st with activeAccCnt := st.activeAccCnt + 1 } esp
      footprint threshold
    dsimp only at h
    generalize chooseCoherence c { st with activeAccCnt := st.activeAccCnt + 1 } esp footprint
      threshold = mode at h hmode
    split at h
    · next hnone =>
      cases h
      subst hnone
      exact Or.inr ⟨by simp, by simp⟩
    · obtain ⟨split, _, h⟩ := bind_ok.mp h
      cases h
      by_cases hfull : mode = .full
      · have hlt : st.activeAccCntFull < 1 := by
          cases hmode with
          | inl hf => exact hf.2
          | inr ho => simp [hfull] at ho
        refine Or.inl ⟨hfull, (hzero _ hlt).1, ?_⟩
        simpa [hfull] using (hzero _ hlt).2
      · exact Or.inr ⟨hfull, by simp [hfull]⟩

theorem espUpdateStatus_full {auto : Bool} {full : BitVec 32}
    (hf : FullWith full esp.coherence st.activeAccCntFull)
    (h : espUpdateStatus c st esp auto = .ok st') : st'.activeAccCntFull = full := by
  have hsub : (st - charge c auto esp).activeAccCntFull =
      st.activeAccCntFull - (charge c auto esp).activeAccCntFull :=
    map_sub (Counter.hom .full) _ _
  rw [espUpdateStatus_ok h, hsub]
  cases hf with
  | inl hf =>
    rw [hf.2.2, hf.2.1]
    simp [charge, hf.1]
  | inr hf =>
    rw [hf.2]
    simp [charge, hf.1]

end Charges

section Invariant

/-- What active_acc_cnt_full is while the access is charged, if it is at all. -/
def CountedAs (m : Module Arg) (full : BitVec 32) (arg : Arg) (coherence : Coherence)
    (now : BitVec 32) : Prop :=
  if (m.driver.access arg).coherence.usesStatus then FullWith full coherence now else now = full

/-- Up to the write of COHERENCE the modes used are the one in the device; on RISC-V there
are none. -/
def UsedHere (m : Module Arg) (used : List Coherence) (coherence : Coherence) : Prop :=
  (m.riscv = true → used = []) ∧ ∀ c ∈ used, c = coherence

/-- The caches were flushed and COHERENCE was written in one mode, which is still there in
an access that is charged. -/
def UsedOnce (m : Module Arg) (used : List Coherence) (arg : Arg) (coherence : Coherence) : Prop :=
  ∃ mode, (∀ c ∈ used, c = mode) ∧
    ((m.driver.access arg).coherence.usesStatus = true → mode = coherence)

def ModePlace (m : Module Arg) (full : BitVec 32) (used : List Coherence) (coherence : Coherence)
    (now : BitVec 32) : Pc Arg → Prop
  | .lock .. | .p2p .. => used = [] ∧ now = full
  | .config arg _ => used = [] ∧ now = full ∧ (m.driver.access arg).coherence.usesStatus = true
  | .flush arg _ => used = [] ∧ CountedAs m full arg coherence now
  | .flushLlc arg _ _ | .clearErr arg _ | .reinit arg _ | .transfer arg _ =>
    UsedHere m used coherence ∧ CountedAs m full arg coherence now
  | .write arg _ | .start arg | .wait arg _ | .readErr arg _ | .update arg _ _ =>
    UsedOnce m used arg coherence ∧ CountedAs m full arg coherence now
  | .unlock .. | .returned .. | .idle => Single used ∧ now = full

def ModeInv (m : Module Arg) (t : Tid) (full : BitVec 32) (used : List Coherence)
    (s : Machine Arg) : Prop :=
  ModePlace m full used s.fields.coherence s.espStatus.activeAccCntFull (s.pc t)

variable {full : BitVec 32} {used : List Coherence} {arg : Arg} {coherence coherence' : Coherence}
  {now : BitVec 32} {p : Pc Arg}

theorem CountedAs.plain (hu : (m.driver.access arg).coherence.usesStatus = false)
    (h : CountedAs m full arg coherence now) : CountedAs m full arg coherence' now := by
  rw [CountedAs, hu] at h ⊢
  exact h

theorem CountedAs.notFull (h : CountedAs m full arg coherence now) (hmode : coherence ≠ .full) :
    now = full := by
  rw [CountedAs] at h
  split at h
  · cases h with
    | inl hf => exact absurd hf.1 hmode
    | inr ho => exact ho.2
  · exact h

theorem UsedOnce.plain (hu : (m.driver.access arg).coherence.usesStatus = false)
    (h : UsedOnce m used arg coherence) : UsedOnce m used arg coherence' := by
  obtain ⟨mode, hused, _⟩ := h
  exact ⟨mode, hused, fun hyes => absurd hyes (Bool.eq_false_iff.mp hu)⟩

theorem UsedHere.plain (hriscv : m.riscv = true) (h : UsedHere m used coherence) :
    UsedHere m used coherence' := by
  have hnil := h.1 hriscv
  refine ⟨h.1, ?_⟩
  intro c hc
  rw [hnil] at hc
  cases hc

theorem ModePlace.flush (h : ModePlace m full used coherence now p)
    (hkeep : p.keepsMode m = true → coherence' = coherence) :
    ModePlace m full used coherence' now p := by
  cases hk : p.keepsMode m with
  | true =>
    rw [hkeep hk]
    exact h
  | false =>
    have hfree (arg : Arg) (hp : p.keepsMode m =
        (!m.riscv || (m.driver.access arg).coherence.usesStatus)) :
        m.riscv = true ∧ (m.driver.access arg).coherence.usesStatus = false := by
      rw [hk] at hp
      simpa using hp.symm
    cases p with
    | flush arg contig => exact ⟨h.1, h.2.plain hk⟩
    | flushLlc arg contig pf => exact ⟨h.1.plain (hfree arg rfl).1, h.2.plain (hfree arg rfl).2⟩
    | clearErr arg contig => exact ⟨h.1.plain (hfree arg rfl).1, h.2.plain (hfree arg rfl).2⟩
    | reinit arg contig => exact ⟨h.1.plain (hfree arg rfl).1, h.2.plain (hfree arg rfl).2⟩
    | transfer arg ops => exact ⟨h.1.plain (hfree arg rfl).1, h.2.plain (hfree arg rfl).2⟩
    | write arg ops => exact ⟨h.1.plain hk, h.2.plain hk⟩
    | start arg => exact ⟨h.1.plain hk, h.2.plain hk⟩
    | wait arg r => exact ⟨h.1.plain hk, h.2.plain hk⟩
    | readErr arg r => exact ⟨h.1.plain hk, h.2.plain hk⟩
    | update arg run rc => exact ⟨h.1.plain hk, h.2.plain hk⟩
    | _ => exact h

theorem Single.nil : Single [] := ⟨.none, fun c hc => by cases hc⟩

theorem UsedHere.nil : UsedHere m [] coherence := ⟨fun _ => rfl, fun c hc => by cases hc⟩

theorem UsedHere.single (h : UsedHere m used coherence) : Single used := ⟨coherence, h.2⟩

theorem UsedOnce.single (h : UsedOnce m used arg coherence) : Single used := by
  obtain ⟨mode, hused, _⟩ := h
  exact ⟨mode, hused⟩

theorem same_append (h : ∀ c ∈ used, c = coherence) : ∀ c ∈ used ++ [coherence], c = coherence := by
  intro c hc
  cases List.mem_append.mp hc with
  | inl hold => exact h c hold
  | inr hnew => exact List.mem_singleton.mp hnew

theorem UsedHere.tested (h : UsedHere m used coherence) :
    UsedHere m (used ++ (if m.riscv then none else some coherence).toList) coherence := by
  cases hriscv : m.riscv with
  | true =>
    rw [if_pos rfl, Option.toList_none, List.append_nil]
    exact h
  | false =>
    refine ⟨fun hyes => absurd hyes (by simp [hriscv]), ?_⟩
    simpa using same_append h.2

theorem UsedHere.written (h : UsedHere m used coherence) :
    UsedOnce m (used ++ [coherence]) arg coherence :=
  ⟨coherence, same_append h.2, fun _ => rfl⟩

theorem UsedOnce.discharged (h : UsedOnce m used arg coherence)
    (hu : (m.driver.access arg).coherence.usesStatus = true) : Single (used ++ [coherence]) := by
  obtain ⟨mode, hused, hsame⟩ := h
  obtain rfl := hsame hu
  exact ⟨mode, same_append hused⟩

section Access
variable {ok : Bool} {q : Pc Arg}

theorem ModeInv.using {u : Option Coherence} (hpc : s'.pc = Function.update s.pc t p)
    (hu : modeUsed m t s (.access t ok) = u)
    (h : ModePlace m full (used ++ u.toList) s'.fields.coherence
      s'.espStatus.activeAccCntFull p) :
    ModeInv m t full (used ++ (modeUsed m t s (.access t ok)).toList) s' := by
  rw [ModeInv, hpc, Function.update_self, hu]
  exact h

theorem ModeInv.going (hs : ModeInv m t full used s) (hq : s.pc t = q)
    (hpc : s'.pc = Function.update s.pc t p) (hu : modeUsed m t s (.access t ok) = none)
    (h : ModePlace m full used s.fields.coherence s.espStatus.activeAccCntFull q →
      ModePlace m full used s'.fields.coherence s'.espStatus.activeAccCntFull p) :
    ModeInv m t full (used ++ (modeUsed m t s (.access t ok)).toList) s' := by
  rw [ModeInv, hq] at hs
  rw [ModeInv, hpc, Function.update_self, hu, Option.toList_none, List.append_nil]
  exact h hs

theorem ModeInv.accepted {arg : Arg} {contig : Desc} (hs : ModeInv m t full used s)
    (hpc : s.pc t = .p2p arg contig [] (.ok ())) :
    ModeInv m t full (used ++ (modeUsed m t s (.access t ok)).toList)
      ({ s with fields := (m.driver.access arg).fields }.goto t
        (if (m.driver.access arg).coherence.usesStatus then .config arg contig
          else .flush arg contig)) := by
  refine hs.going hpc rfl (by simp [modeUsed, hpc]) ?_
  intro h
  split
  · next huses => exact ⟨h.1, h.2, huses⟩
  · next huses =>
    refine ⟨h.1, ?_⟩
    rw [CountedAs, if_neg huses]
    exact h.2

theorem ModeInv.configured {arg : Arg} {contig : Desc} {status : Status} {fields : Fields}
    (hs : ModeInv m t full used s) (hpc : s.pc t = .config arg contig)
    (hrun : espRuntimeConfig m.cache s.espStatus s.fields = .ok (status, fields)) :
    ModeInv m t full (used ++ (modeUsed m t s (.access t ok)).toList)
      ({ s with espStatus := status, fields := fields }.goto t (.flush arg contig)) := by
  refine hs.going hpc rfl (by simp [modeUsed, hpc]) ?_
  intro h
  have hfull := espRuntimeConfig_full hrun
  rw [h.2.1] at hfull
  refine ⟨h.1, ?_⟩
  rw [CountedAs, if_pos h.2.2]
  exact hfull

theorem ModeInv.privateFlushed {arg : Arg} {contig : Desc} {pf : Bool}
    (hs : ModeInv m t full used s) (hpc : s.pc t = .flush arg contig) :
    ModeInv m t full (used ++ (modeUsed m t s (.access t ok)).toList)
      (s.goto t (.flushLlc arg contig pf)) := by
  rw [ModeInv, hpc] at hs
  have hu : modeUsed m t s (.access t ok) = if m.riscv then none else some s.fields.coherence := by
    simp [modeUsed, hpc]
  refine ModeInv.using rfl hu ⟨?_, hs.2⟩
  rw [hs.1]
  exact UsedHere.nil.tested

theorem ModeInv.llcFlushed {arg : Arg} {contig : Desc} {pf : Bool} (hs : ModeInv m t full used s)
    (hpc : s.pc t = .flushLlc arg contig pf)
    (h : UsedHere m (used ++ (if m.riscv then none else some s.fields.coherence).toList)
        s.fields.coherence → CountedAs m full arg s.fields.coherence s.espStatus.activeAccCntFull →
      ModePlace m full (used ++ (if m.riscv then none else some s.fields.coherence).toList)
        s.fields.coherence s.espStatus.activeAccCntFull p) :
    ModeInv m t full (used ++ (modeUsed m t s (.access t ok)).toList) (s.goto t p) := by
  rw [ModeInv, hpc] at hs
  have hu : modeUsed m t s (.access t ok) = if m.riscv then none else some s.fields.coherence := by
    simp [modeUsed, hpc]
  exact ModeInv.using rfl hu (h hs.1.tested hs.2)

theorem ModeInv.flushFailed {arg : Arg} {contig : Desc} {pf : Bool} {e : Errno}
    (hs : ModeInv m t full used s) (hpc : s.pc t = .flushLlc arg contig pf)
    (hflush : espFlush m.riscv s.fields.coherence [ok] = .error e) :
    ModeInv m t full (used ++ (modeUsed m t s (.access t ok)).toList)
      (s.goto t (.returned none (.error e))) := by
  refine hs.llcFlushed hpc ?_
  intro hused hcounted
  refine ⟨hused.single, hcounted.notFull ?_⟩
  intro hmode
  rw [hmode] at hflush
  simp [espFlush, Coherence.value] at hflush

theorem ModeInv.modeWritten {arg : Arg} {ops : List RegOp} (hs : ModeInv m t full used s)
    (hpc : s.pc t = .transfer arg []) :
    ModeInv m t full (used ++ (modeUsed m t s (.access t ok)).toList)
      ((s.write (espTransferCoherence s.fields.coherence)).goto t (.write arg ops)) := by
  rw [ModeInv, hpc] at hs
  have hu : modeUsed m t s (.access t ok) = some s.fields.coherence := by simp [modeUsed, hpc]
  exact ModeInv.using rfl hu ⟨hs.1.written, hs.2⟩

theorem ModeInv.notCharged {arg : Arg} {run : Option RunId} {rc : Except Errno Unit}
    (hs : ModeInv m t full used s) (hpc : s.pc t = .update arg run rc)
    (huses : (m.driver.access arg).coherence.usesStatus = false) :
    ModeInv m t full (used ++ (modeUsed m t s (.access t ok)).toList)
      (s.goto t (.unlock run rc)) := by
  refine hs.going hpc rfl (by simp [modeUsed, hpc, huses]) ?_
  intro h
  refine ⟨h.1.single, ?_⟩
  have hnow := h.2
  rw [CountedAs, huses] at hnow
  exact hnow

theorem ModeInv.updateFailed {arg : Arg} {run : Option RunId} {rc rc' : Except Errno Unit}
    (hs : ModeInv m t full used s) (hpc : s.pc t = .update arg run rc)
    (hc : s.fields.coherence ≠ .full) :
    ModeInv m t full (used ++ (modeUsed m t s (.access t false)).toList)
      (s.goto t (.returned run rc')) := by
  refine hs.going hpc rfl (by simp [modeUsed, hpc]) ?_
  intro h
  exact ⟨h.1.single, h.2.notFull hc⟩

theorem ModeInv.updated {arg : Arg} {run : Option RunId} {rc : Except Errno Unit} {status : Status}
    (hs : ModeInv m t full used s) (hpc : s.pc t = .update arg run rc)
    (huses : (m.driver.access arg).coherence.usesStatus = true)
    (hupd : espUpdateStatus m.cache s.espStatus s.fields
      ((m.driver.access arg).coherence = .auto) = .ok status) :
    ModeInv m t full (used ++ (modeUsed m t s (.access t true)).toList)
      ({ s with espStatus := status }.goto t (.unlock run rc)) := by
  rw [ModeInv, hpc] at hs
  have hu : modeUsed m t s (.access t true) = some s.fields.coherence := by
    simp [modeUsed, hpc, huses]
  refine ModeInv.using rfl hu ⟨hs.1.discharged huses, ?_⟩
  have hcounted := hs.2
  rw [CountedAs, if_pos huses] at hcounted
  exact espUpdateStatus_full hcounted hupd

theorem ModeInv.access (hs : ModeInv m t full used s)
    (hc : Undisturbed m t s (.access t ok)) (h : accessStep m s t ok = some s') :
    ModeInv m t full (used ++ (modeUsed m t s (.access t ok)).toList) s' := by
  cases accessStep_move h with
  | accepted hpc => exact hs.accepted hpc
  | configured hpc hrun => exact hs.configured hpc hrun
  | privateFlushed hpc => exact hs.privateFlushed hpc
  | flushFailed hpc hflush => exact hs.flushFailed hpc hflush
  | flushed hpc hflush => exact hs.llcFlushed hpc fun hused hcounted => ⟨hused, hcounted⟩
  | modeWritten hpc => exact hs.modeWritten hpc
  | notCharged hpc huses => exact hs.notCharged hpc huses
  | updateFailed hpc huses =>
    refine hs.updateFailed hpc ?_
    intro hmode
    rw [Undisturbed, hpc] at hc
    cases hc huses hmode
  | updated hpc huses hupd => exact hs.updated hpc huses hupd
  | prepared hpc =>
    refine hs.going hpc rfl (by simp [modeUsed, hpc]) ?_
    intro h
    split
    · exact h
    · exact h
  | lockFailed hpc =>
    exact hs.going hpc rfl (by simp [modeUsed, hpc]) fun h => ⟨h.1 ▸ Single.nil, h.2⟩
  | p2pFailed hpc =>
    exact hs.going hpc rfl (by simp [modeUsed, hpc]) fun h => ⟨h.1 ▸ Single.nil, h.2⟩
  | configFailed hpc =>
    exact hs.going hpc rfl (by simp [modeUsed, hpc]) fun h => ⟨h.1 ▸ Single.nil, h.2.1⟩
  | locked hpc hfree => exact hs.going hpc rfl (by simp [modeUsed, hpc]) id
  | p2pWrites hpc => exact hs.going hpc rfl (by simp [modeUsed, hpc]) id
  | errCleared hpc => exact hs.going hpc rfl (by simp [modeUsed, hpc]) id
  | reinited hpc => exact hs.going hpc rfl (by simp [modeUsed, hpc]) id
  | transfers hpc => exact hs.going hpc rfl (by simp [modeUsed, hpc]) id
  | writes hpc => exact hs.going hpc rfl (by simp [modeUsed, hpc]) id
  | started hpc => exact hs.going hpc rfl (by simp [modeUsed, hpc]) id
  | completed hpc hdone => exact hs.going hpc rfl (by simp [modeUsed, hpc]) id
  | interrupted hpc => exact hs.going hpc rfl (by simp [modeUsed, hpc]) id
  | errRead hpc => exact hs.going hpc rfl (by simp [modeUsed, hpc]) id
  | unlocked hpc => exact hs.going hpc rfl (by simp [modeUsed, hpc]) id
  | left hpc => exact hs.going hpc rfl (by simp [modeUsed, hpc]) id

end Access

theorem ModeInv.step (hs : ModeInv m t full used s) (hone : OneAccess t e)
    (hc : Undisturbed m t s e) (h : deviceStep m s e = some s') :
    ModeInv m t full (used ++ (modeUsed m t s e).toList) s' := by
  have hunused : modeUsed m t s e = none → used ++ (modeUsed m t s e).toList = used := by
    intro hnone
    rw [hnone, Option.toList_none, List.append_nil]
  cases e with
  | access u ok =>
    cases hone
    exact hs.access hc h
  | espIocFlush u coherence =>
    rw [hunused rfl]
    simp only [deviceStep] at h
    split at h
    · cases h
      exact ModePlace.flush hs hc
    · cases h
  | raise r error =>
    rw [hunused rfl]
    simp only [deviceStep] at h
    split at h
    · cases h
      exact hs
    · cases h
  | irq =>
    rw [hunused rfl]
    simp only [deviceStep] at h
    cases h
    split
    · exact hs
    · exact hs
  | enter u arg contig => cases hone
  | espIocRun u => cases hone
  | others status => cases hone

theorem ModeInv.run {es : List (DeviceEvent Arg)} (hs : ModeInv m t full used s)
    (hone : ∀ e ∈ es, OneAccess t e) (hc : Along (deviceStep m) (Undisturbed m t) s es)
    (h : run (deviceStep m) s es = some s') :
    ModeInv m t full (used ++ modesUsed m t s es) s' := by
  induction es generalizing s used with
  | nil =>
    cases h
    rw [modesUsed, List.append_nil]
    exact hs
  | cons e es ih =>
    obtain ⟨u, hu, hrest⟩ := run_cons.mp h
    have hstep := hs.step (hone e (List.mem_cons_self ..)) hc.1 hu
    have hall := ih hstep (fun e he => hone e (List.mem_cons_of_mem _ he)) (hc.2 u hu) hrest
    rw [List.append_assoc] at hall
    rw [modesUsed, hu]
    exact hall

theorem ModePlace.single (h : ModePlace m full used coherence now p) : Single used := by
  have hnil : used = [] → Single used := fun hused => hused ▸ Single.nil
  cases p with
  | lock arg contig => exact hnil h.1
  | p2p arg contig ops rc => exact hnil h.1
  | config arg contig => exact hnil h.1
  | flush arg contig => exact hnil h.1
  | flushLlc arg contig pf => exact h.1.single
  | clearErr arg contig => exact h.1.single
  | reinit arg contig => exact h.1.single
  | transfer arg ops => exact h.1.single
  | write arg ops => exact h.1.single
  | start arg => exact h.1.single
  | wait arg r => exact h.1.single
  | readErr arg r => exact h.1.single
  | update arg run rc => exact h.1.single
  | _ => exact h.1

theorem CountedAs.near (h : CountedAs m full arg coherence now) :
    now = full ∨ (full = 0 ∧ now = 1) := by
  rw [CountedAs] at h
  split at h
  · cases h with
    | inl hf => exact Or.inr hf.2
    | inr ho => exact Or.inl ho.2
  · exact Or.inl h

theorem ModePlace.near (h : ModePlace m full used coherence now p) :
    now = full ∨ (full = 0 ∧ now = 1) := by
  cases p with
  | lock arg contig => exact Or.inl h.2
  | p2p arg contig ops rc => exact Or.inl h.2
  | config arg contig => exact Or.inl h.2.1
  | unlock run rc => exact Or.inl h.2
  | returned run rc => exact Or.inl h.2
  | idle => exact Or.inl h.2
  | _ => exact h.2.near

/-- Undisturbed by ESP_IOC_FLUSH the access uses one mode, and active_acc_cnt_full counts it
until it returns and is then what it was before. -/
theorem flush_keeps_mode {arg : Arg} {contig : Desc} {es : List (DeviceEvent Arg)}
    (hpc : s.pc t = .lock arg contig) (hone : ∀ e ∈ es, OneAccess t e)
    (hc : Along (deviceStep m) (Undisturbed m t) s es) (h : run (deviceStep m) s es = some s') :
    Single (modesUsed m t s es) ∧
      (s'.espStatus.activeAccCntFull = s.espStatus.activeAccCntFull ∨
        (s.espStatus.activeAccCntFull = 0 ∧ s'.espStatus.activeAccCntFull = 1)) ∧
      ∀ run rc, s'.pc t = .returned run rc →
        s'.espStatus.activeAccCntFull = s.espStatus.activeAccCntFull := by
  have hstart : ModeInv m t s.espStatus.activeAccCntFull [] s := by
    rw [ModeInv, hpc]
    exact ⟨rfl, rfl⟩
  have hend : ModePlace m s.espStatus.activeAccCntFull (modesUsed m t s es) s'.fields.coherence
      s'.espStatus.activeAccCntFull (s'.pc t) := hstart.run hone hc h
  refine ⟨hend.single, hend.near, ?_⟩
  intro run rc hret
  rw [hret] at hend
  exact hend.2

end Invariant

section Runs

def fullAccess : Machine Access := idleDevice.goto 1 (.lock (request 0 .full 0) oneChunk)

/-- The access in full, with a call of ESP_IOC_FLUSH while its run goes on. -/
def flushedRun (coherence : Coherence) : List (DeviceEvent Access) :=
  List.replicate 16 (.access 1 true) ++ .espIocFlush 2 coherence :: finish 0 ++
    List.replicate 4 (.access 1 true)

theorem flushedRun_one (coherence : Coherence) : ∀ e ∈ flushedRun coherence, OneAccess 1 e := by
  intro e he
  simp only [flushedRun, finish, List.mem_append, List.mem_cons, List.mem_replicate,
    List.not_mem_nil, or_false] at he
  rcases he with (he | he | he | he | he | he) | he
  · rw [he.2]
    rfl
  · rw [he]
    trivial
  · rw [he]
    trivial
  · rw [he]
    trivial
  · rw [he]
    trivial
  · rw [he]
    trivial
  · rw [he.2]
    rfl

theorem flush_keeps_mode_full : ∃ s, run (deviceStep plainModule) fullAccess (flushedRun .full) =
    some s ∧ Single (modesUsed plainModule 1 fullAccess (flushedRun .full)) ∧
      s.espStatus.activeAccCntFull = 0 := by
  have hret : (run (deviceStep plainModule) fullAccess (flushedRun .full)).map (fun s => s.pc 1) =
      some (.returned (some 0) (.ok ())) := by rfl
  obtain ⟨s, hrun, hpc⟩ := Option.map_eq_some_iff.mp hret
  have hkeep := flush_keeps_mode (t := 1) rfl (flushedRun_one .full) (by decide +kernel) hrun
  exact ⟨s, hrun, hkeep.1, hkeep.2.2 _ _ hpc⟩

/-- The flush of another file sets NONE: the charge of the FULL access is not taken back. -/
theorem flush_in_flight_keeps_charge : ∃ s,
    run (deviceStep plainModule) fullAccess (flushedRun .none) = some s ∧
      (∀ e ∈ flushedRun .none, OneAccess 1 e) ∧
      ¬ Single (modesUsed plainModule 1 fullAccess (flushedRun .none)) ∧
      s.pc 1 = .returned (some 0) (.ok ()) ∧ fullAccess.espStatus.activeAccCntFull = 0 ∧
      s.espStatus.activeAccCntFull = 1 := by
  have hret : (run (deviceStep plainModule) fullAccess (flushedRun .none)).map
      (fun s => (s.pc 1, s.espStatus.activeAccCntFull)) =
        some (.returned (some 0) (.ok ()), 1) := by rfl
  obtain ⟨s, hrun, hpc⟩ := Option.map_eq_some_iff.mp hret
  have hused : modesUsed plainModule 1 fullAccess (flushedRun .none) = [.full, .full, .full, .none] := by
    rfl
  refine ⟨s, hrun, flushedRun_one .none, ?_, (Prod.mk.inj hpc).1, rfl, (Prod.mk.inj hpc).2⟩
  rw [hused]
  intro hsingle
  obtain ⟨mode, hall⟩ := hsingle
  have hfull := hall .full (by simp)
  have hnone := hall .none (by simp)
  rw [← hfull] at hnone
  cases hnone

end Runs

end EspDrivers.Esp
