import EspDrivers.EspAccess
import EspDrivers.Trace

/-! One device with any number of threads in its ioctls, the accelerator and the interrupt
handler, each taking one step at a time. -/
namespace EspDrivers.Esp
open ContigAlloc (Desc Errno)

section Line

abbrev Tid := Nat
abbrev RunId := Nat

inductive Irq where
  | idle
  | clearCmd (error : Bool)
  | setErr
  | complete
  deriving DecidableEq

/-- What the runs of the accelerator and the waits for them go through: err and completion
of the device, the handler, STATUS, the runs that have raised nothing yet, those that have
raised done, the name of the next one. -/
structure Line where
  err : Bool
  completion : Bool
  irq : Irq
  status : BitVec 32
  running : List RunId
  raisedDone : List RunId
  next : RunId
  deriving DecidableEq

/-- No run is going on, and no interrupt is on its way. -/
def Line.Quiet (l : Line) : Prop := l.running = [] ∧ l.status = 0 ∧ l.irq = .idle

instance : DecidablePred Line.Quiet :=
  fun l => inferInstanceAs (Decidable (l.running = [] ∧ l.status = 0 ∧ l.irq = .idle))

def Line.launch (l : Line) : Line :=
  { l with running := l.next :: l.running, next := l.next + 1 }

def Line.raise (l : Line) (r : RunId) (error : Bool) : Line :=
  { l with
    status := l.status ||| endStatus error
    running := l.running.erase r
    raisedDone := if error then l.raisedDone else r :: l.raisedDone }

/-- The next step of esp_irq. Writing 0 to CMD clears STATUS. -/
def Line.handle (l : Line) : Line :=
  match l.irq with
  | .idle =>
    if l.status &&& 4 ≠ 0 then { l with irq := .clearCmd true }
    else if l.status &&& 2 ≠ 0 then { l with irq := .clearCmd false }
    else l
  | .clearCmd error => { l with status := 0, irq := if error then .setErr else .complete }
  | .setErr => { l with err := true, irq := .complete }
  | .complete => { l with completion := true, irq := .idle }

end Line

/-- Where a thread is in esp_access_ioctl; the list holds the writes that are left, in
esp_transfer those in front of the write to COHERENCE. esp_flush has two places: in front of
its first test, and behind the flush of the private caches, if there was one. -/
inductive Pc (Arg : Type) where
  | idle
  | lock (arg : Arg) (contig : Desc)
  | p2p (arg : Arg) (contig : Desc) (ops : List RegOp) (rc : Except Errno Unit)
  | config (arg : Arg) (contig : Desc)
  | flush (arg : Arg) (contig : Desc)
  | flushLlc (arg : Arg) (contig : Desc) (privateFlushed : Bool)
  | clearErr (arg : Arg) (contig : Desc)
  | reinit (arg : Arg) (contig : Desc)
  | transfer (arg : Arg) (ops : List RegOp)
  | write (arg : Arg) (ops : List RegOp)
  | start (arg : Arg)
  | wait (arg : Arg) (r : RunId)
  | readErr (arg : Arg) (r : RunId)
  | update (arg : Arg) (run : Option RunId) (rc : Except Errno Unit)
  | unlock (run : Option RunId) (rc : Except Errno Unit)
  | returned (run : Option RunId) (rc : Except Errno Unit)

structure Machine (Arg : Type) where
  iomem : Iomem
  fields : Fields
  line : Line
  espStatus : Status
  owner : Option Tid
  pc : Tid → Pc Arg

variable {Arg : Type}

def Machine.goto (s : Machine Arg) (t : Tid) (pc : Pc Arg) : Machine Arg :=
  { s with pc := Function.update s.pc t pc }

def Machine.write (s : Machine Arg) (op : RegOp) : Machine Arg := { s with iomem := op.apply s.iomem }

/-- The tests of esp_access_ioctl in front of esp->lock. -/
def Module.admits (m : Module Arg) (iomem : Iomem) (arg : Arg) (contig : Desc) : Bool :=
  !(4 < (m.driver.access arg).p2pNsrcs) && espXferInputOk iomem contig && m.driver.inputOk arg

/-- The next step of thread `t` in esp_access_ioctl; `ok` tells whether a call that can
fail succeeds. -/
def accessStep (m : Module Arg) (s : Machine Arg) (t : Tid) (ok : Bool) : Option (Machine Arg) :=
  match s.pc t with
  | .idle => none
  | .lock arg contig =>
    if !ok then some (s.goto t (.returned none (.error .eintr)))
    else if s.owner ≠ none then none
    else
      let r := espP2pInit m.espDevices (m.driver.access arg)
      some ({ s with owner := some t }.goto t (.p2p arg contig r.1 r.2))
  | .p2p arg contig (op :: ops) rc => some ((s.write op).goto t (.p2p arg contig ops rc))
  | .p2p _ _ [] (.error e) => some (s.goto t (.returned none (.error e)))
  | .p2p arg contig [] (.ok ()) =>
    let access := m.driver.access arg
    some ({ s with fields := access.fields }.goto t
      (if access.coherence.usesStatus then .config arg contig else .flush arg contig))
  | .config arg contig =>
    if !ok then some (s.goto t (.returned none (.error .eintr)))
    else
      match espRuntimeConfig m.cache s.espStatus s.fields with
      | .error _ => none
      | .ok (status, fields) =>
        some ({ s with espStatus := status, fields := fields }.goto t (.flush arg contig))
  | .flush arg contig =>
    some (s.goto t (.flushLlc arg contig (espFlushesPrivate m.riscv s.fields.coherence)))
  | .flushLlc arg contig _ =>
    match espFlush m.riscv s.fields.coherence [ok] with
    | .error e => some (s.goto t (.returned none (.error e)))
    | .ok () => some (s.goto t (.clearErr arg contig))
  | .clearErr arg contig =>
    some ({ s with line := { s.line with err := false } }.goto t (.reinit arg contig))
  | .reinit arg contig =>
    some ({ s with line := { s.line with completion := false } }.goto t
      (.transfer arg (espTransferPages m.contigChunkSizeLog contig)))
  | .transfer arg (op :: ops) => some ((s.write op).goto t (.transfer arg ops))
  | .transfer arg [] =>
    some ((s.write (espTransferCoherence s.fields.coherence)).goto t
      (.write arg (espTransferOffsets ++ m.driver.prepare arg)))
  | .write arg (op :: ops) => some ((s.write op).goto t (.write arg ops))
  | .write arg [] =>
    some (s.goto t (if (m.driver.access arg).run then .start arg else .update arg none (.ok ())))
  | .start arg =>
    some ({ s.write espRun with line := s.line.launch }.goto t (.wait arg s.line.next))
  | .wait arg r =>
    if s.line.completion then some (s.goto t (.readErr arg r))
    else if ok then none
    else some (s.goto t (.update arg (some r) (.error .eintr)))
  | .readErr arg r =>
    some (s.goto t (.update arg (some r) (if s.line.err then .error .eperm else .ok ())))
  | .update arg run rc =>
    let access := m.driver.access arg
    if !access.coherence.usesStatus then some (s.goto t (.unlock run rc))
    else if !ok then some (s.goto t (.returned run (.error .eintr)))
    else
      match espUpdateStatus m.cache s.espStatus s.fields (access.coherence = .auto) with
      | .error _ => none
      | .ok status => some ({ s with espStatus := status }.goto t (.unlock run rc))
  | .unlock run rc => some ({ s with owner := none }.goto t (.returned run rc))
  | .returned _ _ => some (s.goto t .idle)

inductive AccessMove (m : Module Arg) (s : Machine Arg) (t : Tid) : Bool → Machine Arg → Prop where
  | lockFailed {arg : Arg} {contig : Desc} (hpc : s.pc t = .lock arg contig) :
    AccessMove m s t false (s.goto t (.returned none (.error .eintr)))
  | locked {arg : Arg} {contig : Desc} (hpc : s.pc t = .lock arg contig) (hfree : s.owner = none) :
    AccessMove m s t true ({ s with owner := some t }.goto t (.p2p arg contig
      (espP2pInit m.espDevices (m.driver.access arg)).1
      (espP2pInit m.espDevices (m.driver.access arg)).2))
  | p2pWrites {arg : Arg} {contig : Desc} {op : RegOp} {ops : List RegOp} {rc : Except Errno Unit}
    {ok : Bool} (hpc : s.pc t = .p2p arg contig (op :: ops) rc) :
    AccessMove m s t ok ((s.write op).goto t (.p2p arg contig ops rc))
  | p2pFailed {arg : Arg} {contig : Desc} {e : Errno} {ok : Bool}
    (hpc : s.pc t = .p2p arg contig [] (.error e)) :
    AccessMove m s t ok (s.goto t (.returned none (.error e)))
  | accepted {arg : Arg} {contig : Desc} {ok : Bool} (hpc : s.pc t = .p2p arg contig [] (.ok ())) :
    AccessMove m s t ok ({ s with fields := (m.driver.access arg).fields }.goto t
      (if (m.driver.access arg).coherence.usesStatus then .config arg contig else .flush arg contig))
  | configFailed {arg : Arg} {contig : Desc} (hpc : s.pc t = .config arg contig) :
    AccessMove m s t false (s.goto t (.returned none (.error .eintr)))
  | configured {arg : Arg} {contig : Desc} {status : Status} {fields : Fields}
    (hpc : s.pc t = .config arg contig)
    (hrun : espRuntimeConfig m.cache s.espStatus s.fields = .ok (status, fields)) :
    AccessMove m s t true
      ({ s with espStatus := status, fields := fields }.goto t (.flush arg contig))
  | privateFlushed {arg : Arg} {contig : Desc} {ok : Bool} (hpc : s.pc t = .flush arg contig) :
    AccessMove m s t ok
      (s.goto t (.flushLlc arg contig (espFlushesPrivate m.riscv s.fields.coherence)))
  | flushFailed {arg : Arg} {contig : Desc} {pf : Bool} {e : Errno} {ok : Bool}
    (hpc : s.pc t = .flushLlc arg contig pf)
    (hflush : espFlush m.riscv s.fields.coherence [ok] = .error e) :
    AccessMove m s t ok (s.goto t (.returned none (.error e)))
  | flushed {arg : Arg} {contig : Desc} {pf ok : Bool} (hpc : s.pc t = .flushLlc arg contig pf)
    (hflush : espFlush m.riscv s.fields.coherence [ok] = .ok ()) :
    AccessMove m s t ok (s.goto t (.clearErr arg contig))
  | errCleared {arg : Arg} {contig : Desc} {ok : Bool} (hpc : s.pc t = .clearErr arg contig) :
    AccessMove m s t ok
      ({ s with line := { s.line with err := false } }.goto t (.reinit arg contig))
  | reinited {arg : Arg} {contig : Desc} {ok : Bool} (hpc : s.pc t = .reinit arg contig) :
    AccessMove m s t ok ({ s with line := { s.line with completion := false } }.goto t
      (.transfer arg (espTransferPages m.contigChunkSizeLog contig)))
  | transfers {arg : Arg} {op : RegOp} {ops : List RegOp} {ok : Bool}
    (hpc : s.pc t = .transfer arg (op :: ops)) :
    AccessMove m s t ok ((s.write op).goto t (.transfer arg ops))
  | modeWritten {arg : Arg} {ok : Bool} (hpc : s.pc t = .transfer arg []) :
    AccessMove m s t ok ((s.write (espTransferCoherence s.fields.coherence)).goto t
      (.write arg (espTransferOffsets ++ m.driver.prepare arg)))
  | writes {arg : Arg} {op : RegOp} {ops : List RegOp} {ok : Bool}
    (hpc : s.pc t = .write arg (op :: ops)) :
    AccessMove m s t ok ((s.write op).goto t (.write arg ops))
  | prepared {arg : Arg} {ok : Bool} (hpc : s.pc t = .write arg []) :
    AccessMove m s t ok
      (s.goto t (if (m.driver.access arg).run then .start arg else .update arg none (.ok ())))
  | started {arg : Arg} {ok : Bool} (hpc : s.pc t = .start arg) :
    AccessMove m s t ok
      ({ s.write espRun with line := s.line.launch }.goto t (.wait arg s.line.next))
  | completed {arg : Arg} {r : RunId} {ok : Bool} (hpc : s.pc t = .wait arg r)
    (hdone : s.line.completion = true) : AccessMove m s t ok (s.goto t (.readErr arg r))
  | interrupted {arg : Arg} {r : RunId} (hpc : s.pc t = .wait arg r) :
    AccessMove m s t false (s.goto t (.update arg (some r) (.error .eintr)))
  | errRead {arg : Arg} {r : RunId} {ok : Bool} (hpc : s.pc t = .readErr arg r) :
    AccessMove m s t ok
      (s.goto t (.update arg (some r) (if s.line.err then .error .eperm else .ok ())))
  | notCharged {arg : Arg} {run : Option RunId} {rc : Except Errno Unit} {ok : Bool}
    (hpc : s.pc t = .update arg run rc)
    (huses : (m.driver.access arg).coherence.usesStatus = false) :
    AccessMove m s t ok (s.goto t (.unlock run rc))
  | updateFailed {arg : Arg} {run : Option RunId} {rc : Except Errno Unit}
    (hpc : s.pc t = .update arg run rc)
    (huses : (m.driver.access arg).coherence.usesStatus = true) :
    AccessMove m s t false (s.goto t (.returned run (.error .eintr)))
  | updated {arg : Arg} {run : Option RunId} {rc : Except Errno Unit} {status : Status}
    (hpc : s.pc t = .update arg run rc)
    (huses : (m.driver.access arg).coherence.usesStatus = true)
    (hupd : espUpdateStatus m.cache s.espStatus s.fields
      ((m.driver.access arg).coherence = .auto) = .ok status) :
    AccessMove m s t true ({ s with espStatus := status }.goto t (.unlock run rc))
  | unlocked {run : Option RunId} {rc : Except Errno Unit} {ok : Bool}
    (hpc : s.pc t = .unlock run rc) :
    AccessMove m s t ok ({ s with owner := none }.goto t (.returned run rc))
  | left {run : Option RunId} {rc : Except Errno Unit} {ok : Bool}
    (hpc : s.pc t = .returned run rc) : AccessMove m s t ok (s.goto t .idle)

section Moves
variable {m : Module Arg} {s s' : Machine Arg} {t : Tid} {ok : Bool} {arg : Arg} {contig : Desc}

theorem AccessMove.ofLock (hpc : s.pc t = .lock arg contig) (h : accessStep m s t ok = some s') :
    AccessMove m s t ok s' := by
  simp only [accessStep, hpc] at h
  cases ok with
  | false =>
    cases h
    exact .lockFailed hpc
  | true =>
    simp only [Bool.not_true, Bool.false_eq_true, if_false] at h
    split at h
    · cases h
    · next hfree =>
      cases h
      exact .locked hpc (not_not.mp hfree)

theorem AccessMove.ofConfig (hpc : s.pc t = .config arg contig)
    (h : accessStep m s t ok = some s') : AccessMove m s t ok s' := by
  simp only [accessStep, hpc] at h
  cases ok with
  | false =>
    cases h
    exact .configFailed hpc
  | true =>
    simp only [Bool.not_true, Bool.false_eq_true, if_false] at h
    split at h
    · cases h
    · next hrun =>
      cases h
      exact .configured hpc hrun

theorem AccessMove.ofFlushLlc {pf : Bool} (hpc : s.pc t = .flushLlc arg contig pf)
    (h : accessStep m s t ok = some s') : AccessMove m s t ok s' := by
  simp only [accessStep, hpc] at h
  split at h
  · next hflush =>
    cases h
    exact .flushFailed hpc hflush
  · next hflush =>
    cases h
    exact .flushed hpc hflush

theorem AccessMove.ofWait {r : RunId} (hpc : s.pc t = .wait arg r)
    (h : accessStep m s t ok = some s') : AccessMove m s t ok s' := by
  simp only [accessStep, hpc] at h
  split at h
  · next hdone =>
    cases h
    exact .completed hpc hdone
  · cases ok with
    | true => cases h
    | false =>
      cases h
      exact .interrupted hpc

theorem AccessMove.ofUpdate {run : Option RunId} {rc : Except Errno Unit}
    (hpc : s.pc t = .update arg run rc) (h : accessStep m s t ok = some s') :
    AccessMove m s t ok s' := by
  simp only [accessStep, hpc] at h
  cases huses : (m.driver.access arg).coherence.usesStatus with
  | false =>
    rw [huses] at h
    cases h
    exact .notCharged hpc huses
  | true =>
    rw [huses] at h
    cases ok with
    | false =>
      cases h
      exact .updateFailed hpc huses
    | true =>
      simp only [Bool.not_true, Bool.false_eq_true, if_false] at h
      split at h
      · cases h
      · next hupd =>
        cases h
        exact .updated hpc huses hupd

theorem accessStep_move (h : accessStep m s t ok = some s') : AccessMove m s t ok s' := by
  cases hpc : s.pc t with
  | lock arg contig => exact .ofLock hpc h
  | config arg contig => exact .ofConfig hpc h
  | flushLlc arg contig pf => exact .ofFlushLlc hpc h
  | wait arg r => exact .ofWait hpc h
  | update arg run rc => exact .ofUpdate hpc h
  | p2p arg contig ops rc =>
    cases ops with
    | cons op ops =>
      simp only [accessStep, hpc] at h
      cases h
      exact .p2pWrites hpc
    | nil =>
      cases rc with
      | error e =>
        simp only [accessStep, hpc] at h
        cases h
        exact .p2pFailed hpc
      | ok u =>
        simp only [accessStep, hpc] at h
        cases h
        exact .accepted hpc
  | transfer arg ops =>
    cases ops with
    | cons op ops =>
      simp only [accessStep, hpc] at h
      cases h
      exact .transfers hpc
    | nil =>
      simp only [accessStep, hpc] at h
      cases h
      exact .modeWritten hpc
  | write arg ops =>
    cases ops with
    | cons op ops =>
      simp only [accessStep, hpc] at h
      cases h
      exact .writes hpc
    | nil =>
      simp only [accessStep, hpc] at h
      cases h
      exact .prepared hpc
  | flush arg contig =>
    simp only [accessStep, hpc] at h
    cases h
    exact .privateFlushed hpc
  | clearErr arg contig =>
    simp only [accessStep, hpc] at h
    cases h
    exact .errCleared hpc
  | reinit arg contig =>
    simp only [accessStep, hpc] at h
    cases h
    exact .reinited hpc
  | start arg =>
    simp only [accessStep, hpc] at h
    cases h
    exact .started hpc
  | readErr arg r =>
    simp only [accessStep, hpc] at h
    cases h
    exact .errRead hpc
  | unlock run rc =>
    simp only [accessStep, hpc] at h
    cases h
    exact .unlocked hpc
  | returned run rc =>
    simp only [accessStep, hpc] at h
    cases h
    exact .left hpc
  | idle =>
    simp only [accessStep, hpc] at h
    cases h

end Moves

/-- `others` is a step of the other devices on esp_status. -/
inductive DeviceEvent (Arg : Type) where
  | enter (t : Tid) (arg : Arg) (contig : Desc)
  | access (t : Tid) (ok : Bool)
  | espIocRun (t : Tid)
  | espIocFlush (t : Tid) (coherence : Coherence)
  | raise (r : RunId) (error : Bool)
  | irq
  | others (espStatus : Status)

def deviceStep (m : Module Arg) (s : Machine Arg) : DeviceEvent Arg → Option (Machine Arg)
  | .enter t arg contig =>
    match s.pc t with
    | .idle => if m.admits s.iomem arg contig then some (s.goto t (.lock arg contig)) else none
    | _ => none
  | .access t ok => accessStep m s t ok
  | .espIocRun t =>
    match s.pc t with
    | .idle => some { s.write espRun with line := s.line.launch }
    | _ => none
  | .espIocFlush t coherence =>
    match s.pc t with
    | .idle => some { s with fields := { s.fields with coherence := coherence } }
    | _ => none
  | .raise r error => if r ∈ s.line.running then some { s with line := s.line.raise r error } else none
  | .irq =>
    let s := match s.line.irq with
      | .clearCmd _ => s.write (iowrite 0 cmdReg)
      | _ => s
    some { s with line := s.line.handle }
  | .others espStatus => some { s with espStatus := espStatus }

/-- A device after esp_device_register: reset, with nobody in its ioctls. -/
def registered (iomem : Iomem) (fields : Fields) (espStatus : Status) : Machine Arg where
  iomem := iomem
  fields := fields
  line := ⟨false, false, .idle, 0, [], [], 0⟩
  espStatus := espStatus
  owner := none
  pc := fun _ => .idle

end EspDrivers.Esp
