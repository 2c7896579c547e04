import EspDrivers.EspCharge
import EspDrivers.EspDevice

/-! esp_access_ioctl from its entry to its return, with no other access in between. Each
call it makes succeeds or fails as `Outcomes` says. -/
namespace EspDrivers.Esp
open ContigAlloc (Desc Errno Fault)

structure Device where
  iomem : Iomem
  fields : Fields
  err : Bool
  completion : Bool

/-- The device, esp_status, and whether their mutexes are held. -/
structure World where
  dev : Device
  status : Status
  lock : Bool
  statusLock : Bool

/-- What does not change: the module parameters and the architecture, the size of a
chunk, the registered devices, the driver. -/
structure Module (Arg : Type) where
  cache : CacheParams
  riscv : Bool
  contigChunkSizeLog : Nat
  espDevices : List Peer
  driver : Driver Arg

inductive Wait where
  | signal
  | irq (error : Bool)

/-- The outcomes of the calls, in their order: `lock` and the two `statusLock` tell
whether mutex_lock_interruptible returns 0, `llc` tells it for each LLC controller. -/
structure Outcomes where
  kmalloc : Bool
  copied : Bool
  contig : Option Desc
  lock : Bool
  statusLock : Bool
  llc : List Bool
  wait : Wait
  statusLock2 : Bool

/-- A call can also wait for a mutex that nobody releases, or leave its arrays. -/
inductive Result where
  | returns (w : World) (rc : Except Errno Unit)
  | blocks
  | faults

def Device.perform (dev : Device) (ops : List RegOp) : Device :=
  { dev with iomem := Esp.perform ops dev.iomem }

/-- The handler, with what it reads from STATUS. -/
def espIrq (status : BitVec 32) (dev : Device) : Device :=
  if status &&& 4 ≠ 0 then
    { dev.perform [iowrite 0 cmdReg] with err := true, completion := true }
  else if status &&& 2 ≠ 0 then { dev.perform [iowrite 0 cmdReg] with completion := true }
  else dev

def endStatus (error : Bool) : BitVec 32 := if error then 4 else 2

def espWait (dev : Device) : Wait → Device × Except Errno Unit
  | .signal => (dev, .error .eintr)
  | .irq error =>
    let dev := espIrq (endStatus error) dev
    (dev, if dev.err then .error .eperm else .ok ())

def underStatusLock (locked : Bool) (w : World) (body : World → Except Fault World)
    (next : World → Result) : Result :=
  if !locked then .returns w (.error .eintr)
  else if w.statusLock then .blocks
  else
    match body { w with statusLock := true } with
    | .error _ => .faults
    | .ok w => next { w with statusLock := false }

variable {Arg : Type}

def Module.runtimeConfig (m : Module Arg) (w : World) : Except Fault World := do
  let (status, fields) ← espRuntimeConfig m.cache w.status w.dev.fields
  .ok { w with status := status, dev := { w.dev with fields := fields } }

def Module.updateStatus (m : Module Arg) (auto : Bool) (w : World) : Except Fault World := do
  let status ← espUpdateStatus m.cache w.status w.dev.fields auto
  .ok { w with status := status }

/-- From the second use of esp_status on. -/
def accessEnd (m : Module Arg) (access : Access) (o : Outcomes) (rc : Except Errno Unit)
    (w : World) : Result :=
  if access.coherence.usesStatus then
    underStatusLock o.statusLock2 w (m.updateStatus (access.coherence = .auto))
      fun w => .returns { w with lock := false } rc
  else .returns { w with lock := false } rc

/-- From esp_transfer on. -/
def accessTransfer (m : Module Arg) (arg : Arg) (contig : Desc) (o : Outcomes) (w : World) :
    Result :=
  let access := m.driver.access arg
  let dev := { w.dev with err := false, completion := false }
  let dev := dev.perform (espTransfer m.contigChunkSizeLog dev.fields.coherence contig)
  let dev := dev.perform (m.driver.prepare arg)
  let (dev, rc) := if access.run then espWait (dev.perform [espRun]) o.wait else (dev, .ok ())
  accessEnd m access o rc { w with dev := dev }

/-- From esp_flush on. -/
def accessFlush (m : Module Arg) (arg : Arg) (contig : Desc) (o : Outcomes) (w : World) :
    Result :=
  match espFlush m.riscv w.dev.fields.coherence o.llc with
  | .error e => .returns w (.error e)
  | .ok () => accessTransfer m arg contig o w

/-- From the fields of the device on. -/
def accessConfig (m : Module Arg) (arg : Arg) (contig : Desc) (o : Outcomes) (w : World) :
    Result :=
  let access := m.driver.access arg
  let w := { w with dev := { w.dev with fields := access.fields } }
  if access.coherence.usesStatus then
    underStatusLock o.statusLock w m.runtimeConfig (accessFlush m arg contig o)
  else accessFlush m arg contig o w

/-- From mutex_lock_interruptible(&esp->lock) on. -/
def accessLock (m : Module Arg) (arg : Arg) (contig : Desc) (o : Outcomes) (w : World) :
    Result :=
  if !o.lock then .returns w (.error .eintr)
  else if w.lock then .blocks
  else
    let r := espP2pInit m.espDevices (m.driver.access arg)
    let w := { w with lock := true, dev := w.dev.perform r.1 }
    match r.2 with
    | .error e => .returns w (.error e)
    | .ok () => accessConfig m arg contig o w

def espAccessIoctl (m : Module Arg) (arg : Arg) (o : Outcomes) (w : World) : Result :=
  let access := m.driver.access arg
  if !o.kmalloc then .returns w (.error .enomem)
  else if !o.copied then .returns w (.error .efault)
  else
    match o.contig with
    | none => .returns w (.error .efault)
    | some contig =>
      if 4 < access.p2pNsrcs then .returns w (.error .einval)
      else if !espXferInputOk w.dev.iomem contig then .returns w (.error .einval)
      else if !m.driver.inputOk arg then .returns w (.error .einval)
      else accessLock m arg contig o w

end EspDrivers.Esp
