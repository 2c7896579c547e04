import EspDrivers.EspRuns

/-! An access that nobody disturbs: the steps of its thread, of the accelerator and of the
handler lead to what esp_access_ioctl returns in one go. -/
namespace EspDrivers.Esp
open ContigAlloc (Desc Errno)
open Trace

variable {Arg : Type} {m : Module Arg} {arg : Arg} {contig : Desc} {o : Outcomes}
  {s u : Machine Arg} {t : Tid} {w : World} {rc : Except Errno Unit}

/-- The device and esp_status as the access of thread `t` sees them. -/
def Machine.world (s : Machine Arg) (t : Tid) : World where
  dev := ⟨s.iomem, s.fields, s.line.err, s.line.completion⟩
  status := s.espStatus
  lock := s.owner = some t
  statusLock := false

/-- Some steps take the access of thread `t` to its end, with this result. -/
def EndsIn (m : Module Arg) (t : Tid) (s : Machine Arg) (w : World) (rc : Except Errno Unit) :
    Prop :=
  ∃ s' run, Reaches (deviceStep m) s s' ∧ s'.world t = w ∧ s'.pc t = .returned run rc

theorem EndsIn.after (h : Reaches (deviceStep m) s u) (h' : EndsIn m t u w rc) :
    EndsIn m t s w rc := by
  obtain ⟨s', run, hr, hw, hpc⟩ := h'
  exact ⟨s', run, h.trans hr, hw, hpc⟩

theorem EndsIn.access (ok : Bool) (h : accessStep m s t ok = some u) (h' : EndsIn m t u w rc) :
    EndsIn m t s w rc := by
  have hstep : deviceStep m s (.access t ok) = some u := h
  exact h'.after (Reaches.head hstep (Reaches.refl _ _))

theorem EndsIn.now {run : Option RunId} (hpc : s.pc t = .returned run rc)
    (hw : s.world t = w) : EndsIn m t s w rc :=
  ⟨s, run, Reaches.refl _ _, hw, hpc⟩

section Writes

end Writes

section Stages

end Stages

end EspDrivers.Esp
