import EspDrivers.EspExits

/-! The indices into active_footprint_split, and the division of a footprint by the number
of banks. The number of banks is a module parameter and ddr_node comes from the request. -/
namespace EspDrivers.Esp
open ContigAlloc (Fault bind_ok)

/-- The three functions use the array and divide without a fault: at the start, and for an
access that is charged in any state of the counters. When its charge is taken back the
device may have got another mode. -/
def StaysInside (c : CacheParams) (access : Access) : Prop :=
  (∀ s, ∃ t, espStatusInit c s = .ok t) ∧
    (access.coherence.usesStatus = true → ∀ s, ∃ t esp,
      espRuntimeConfig c s access.fields = .ok (t, esp) ∧
        ∀ s' mode, ∃ t', espUpdateStatus c s' { esp with coherence := mode }
          (access.coherence = .auto) = .ok t')

def Indexed (c : CacheParams) (access : Access) : Prop :=
  c.llcBanks ≤ nMem ∧
    (access.coherence = .auto → access.allocPolicy.onOneNode = true → access.ddrNode < nMem)

variable {c : CacheParams} {access : Access} {s : Status} {esp : Fields}

theorem Indexed.fits (hi : Indexed c access) (ha : access.coherence = .auto) (mode : Coherence) :
    Fits c { access.fields with coherence := mode } :=
  ⟨hi.2 ha, fun _ => hi.1⟩

theorem Indexed.inBounds (hi : Indexed c access) : InBounds c s access.fields := by
  intro ha
  exact ⟨hi.2 ha, fun _ _ => hi.1⟩

theorem StaysInside.indexed (h : StaysInside c access) : Indexed c access := by
  have hbanks : c.llcBanks ≤ nMem := espStatusInit_ok.mp (h.1 Status.zero)
  refine ⟨hbanks, ?_⟩
  intro ha hone
  have huses : access.coherence.usesStatus = true := usesStatus_iff.mpr (Or.inl ha)
  obtain ⟨t, esp, hrun, _⟩ := h.2 huses Status.zero
  have hbounds := (espRuntimeConfig_decision (Or.inl ha) hrun).2
  exact (hbounds ha).1 hone

theorem Indexed.staysInside (hi : Indexed c access) : StaysInside c access := by
  refine ⟨fun s => espStatusInit_ok.mpr hi.1, ?_⟩
  intro huses s
  have hmode := usesStatus_iff.mp huses
  obtain ⟨⟨t, esp⟩, hrun⟩ := espRuntimeConfig_inBounds hmode (hi.inBounds (s := s))
  have hsame := (espRuntimeConfig_ok hmode hrun).2.1.same
  refine ⟨t, esp, hrun, ?_⟩
  intro s' mode
  apply espUpdateStatus_total
  intro hauto _
  rw [hsame]
  exact hi.fits (of_decide_eq_true hauto) mode

theorem status_indices_in_bounds (c : CacheParams) (access : Access) :
    StaysInside c access ↔ Indexed c access :=
  ⟨StaysInside.indexed, Indexed.staysInside⟩

theorem ddr_node_unchecked : ¬ ∀ (m : Module Access) (arg : Access) (o : Outcomes) (w : World),
    (∃ t, espStatusInit m.cache Status.zero = .ok t) → Passes m arg o w →
      StaysInside m.cache (m.driver.access arg) := by
  intro h
  have hinside := h plainModule { request 0 .auto 300000 with ddrNode := 2 } success quiet
    (espStatusInit_ok.mpr (by decide)) ⟨rfl, rfl, by decide, ⟨oneChunk, rfl, rfl⟩, rfl, rfl⟩
  have hnode := hinside.indexed.2 rfl rfl
  exact absurd hnode (by decide)

section Calls
variable {Arg : Type} {m : Module Arg} {arg : Arg} {o : Outcomes} {w : World}

theorem Indexed.config_never_faults {contig : ContigAlloc.Desc}
    (hi : Indexed m.cache (m.driver.access arg)) : accessConfig m arg contig o w ≠ .faults := by
  intro hf
  by_cases hgo : (m.driver.access arg).coherence.usesStatus = true →
      o.statusLock = true ∧ w.statusLock = false
  · obtain ⟨w', rc, hret, _⟩ := @accessConfig_returns Arg m arg o w contig
      (fun huses => ⟨(hgo huses).1, (hgo huses).2, hi.inBounds⟩)
    rw [hret] at hf
    cases hf
  · obtain ⟨huses, hstop⟩ := Classical.not_imp.mp hgo
    cases ho : o.statusLock with
    | false =>
      obtain ⟨w', hret, _⟩ := @accessConfig_interrupted Arg m arg o w contig huses ho
      rw [hret] at hf
      cases hf
    | true =>
      have hheld : w.statusLock = true := by
        cases hw : w.statusLock with
        | true => rfl
        | false => exact absurd ⟨ho, hw⟩ hstop
      rw [accessConfig_blocks huses ho hheld] at hf
      cases hf

theorem Indexed.never_faults (hi : Indexed m.cache (m.driver.access arg)) :
    espAccessIoctl m arg o w ≠ .faults := by
  intro hf
  by_cases hp : Passes m arg o w
  · cases hlock : w.lock with
    | true =>
      rw [espAccessIoctl_blocks hp hlock] at hf
      cases hf
    | false =>
      by_cases hc : Connects m arg
      · obtain ⟨contig, w₁, heq, _⟩ := espAccessIoctl_connected hp hlock hc
        rw [heq] at hf
        exact hi.config_never_faults hf
      · obtain ⟨w', rc, hret, _⟩ := espAccessIoctl_unconnected hp hlock hc
        rw [hret] at hf
        cases hf
  · obtain ⟨rc, hret⟩ := espAccessIoctl_early hp
    rw [hret] at hf
    cases hf

theorem never_faults_plain : Indexed plainModule.cache (request 0 .auto 300000) ∧
    espAccessIoctl plainModule (request 0 .auto 300000) success quiet ≠ .faults := by
  have hi : Indexed plainModule.cache (plainModule.driver.access (request 0 .auto 300000)) :=
    ⟨by decide, fun _ _ => by decide⟩
  exact ⟨hi, hi.never_faults⟩

end Calls

end EspDrivers.Esp
