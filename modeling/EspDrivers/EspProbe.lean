import EspDrivers.EspDevice
import EspDrivers.Ownership

/-! The probe of an accelerator driver: esp_device_register, which every driver calls, and
the error handling around it. Each call that can fail says whether it does. -/
namespace EspDrivers.Esp
open Ownership Trace

section Functions

/-- What a probe acquires. The device structure of the driver begins with struct
esp_device, so that one address frees both. devm_ioremap_resource leaves `iomem` to the
device core, which gives it back when a probe fails. -/
inductive Resource where
  | devStruct | cdev | node | irq | iomem | listed
  deriving DecidableEq, Repr

abbrev Log := List (Action Resource)

structure ErrCode where
  val : Int
  neg : val < 0

def rcOf : Option ErrCode → Int
  | none => 0
  | some e => e.val

inductive Ioremap where
  | mapped | null
  | errPtr (e : ErrCode)

/-- The calls of a probe, with the error of each that fails; `polls` is how often the
command register is still read as set after the reset. -/
structure Calls where
  kzalloc : Bool
  cdevAdd : Option ErrCode
  deviceCreate : Option ErrCode
  requestIrq : Option ErrCode
  ioremap : Ioremap
  polls : Nat

/-- A function returns, or it uses an error pointer as an address. -/
inductive Exit where
  | returns (rc : Int)
  | oops
  deriving DecidableEq

def espCreateCdev (o : Calls) : Log × Int :=
  let rc := rcOf o.cdevAdd
  if rc ≠ 0 then ([.touch .devStruct], rc)
  else
    let log := [.touch .devStruct, .acquire .cdev]
    match o.deviceCreate with
    | some e => (log ++ [.touch .devStruct, .release .cdev], e.val)
    | none => (log ++ [.acquire .node, .touch .devStruct, .touch .node], 0)

def espDestroyCdev : Log := [.touch .devStruct, .release .node, .release .cdev]

/-- The reset, and the loop that waits for its end. -/
def espReset (polls : Nat) : Log :=
  (.devStruct :: .iomem :: List.replicate (polls + 1) .iomem).map .touch

def espDeviceRegister (o : Calls) : Log × Exit :=
  let r := espCreateCdev o
  let log := .touch .devStruct :: r.1
  if r.2 ≠ 0 then (log ++ [.release .devStruct], .returns r.2)
  else
    let rc := rcOf o.requestIrq
    let log := log ++ [.touch .devStruct]
    if rc ≠ 0 then (log ++ espDestroyCdev ++ [.release .devStruct], .returns rc)
    else
      let log := log ++ [.acquire .irq]
      match o.ioremap with
      | .null =>
        (log ++ [.touch .devStruct, .release .irq] ++ espDestroyCdev ++ [.release .devStruct],
          .returns rc)
      | .errPtr _ => (log ++ [.touch .devStruct], .oops)
      | .mapped =>
        (log ++ .acquire .iomem :: espReset o.polls ++ [.touch .devStruct, .acquire .listed],
          .returns 0)

/-- What a driver uses after it has registered its device. -/
inductive Touched where
  | field | register

def Touched.resource : Touched → Resource
  | .field => .devStruct
  | .register => .iomem

/-- The probe of a driver; `uses` is what it does when the device is registered. -/
def espProbe (uses : List Touched) (o : Calls) : Log × Exit :=
  if !o.kzalloc then ([], .returns (-12))
  else
    let r := espDeviceRegister o
    let log := .acquire .devStruct :: .touch .devStruct :: r.1
    match r.2 with
    | .oops => (log, .oops)
    | .returns rc =>
      if rc ≠ 0 then (log ++ [.release .devStruct], .returns rc)
      else (log ++ (uses.map Touched.resource).map .touch, .returns 0)

/-- synth_probe, and the probes of all other drivers but sort, only count the device. -/
def synthUses : List Touched := []

/-- sort_probe reads LEN_MAX, LEN_MIN and BATCH_MAX into its structure and computes the
largest size from them. -/
def sortUses : List Touched :=
  [.field, .register, .field, .field, .register, .field, .field, .register, .field, .field, .field]

end Functions

section Registration

def Registered (o : Calls) : Prop := .acquire .listed ∈ (espDeviceRegister o).1

structure AllOrNothing (uses : List Touched) (o : Calls) : Prop where
  orderly : ∃ held, run own ∅ (espProbe uses o).1 = some held ∧
    ((espProbe uses o).2 ≠ .returns 0 → held = ∅)
  zero : o.kzalloc = true → ((espDeviceRegister o).2 = .returns 0 ↔ Registered o)

structure Succeeds (o : Calls) : Prop where
  cdevAdd : o.cdevAdd = none
  deviceCreate : o.deviceCreate = none
  requestIrq : o.requestIrq = none
  ioremap : o.ioremap = .mapped

variable {uses : List Touched} {o : Calls} {r : Resource}

theorem rcOf_ne (e : ErrCode) : rcOf (some e) ≠ 0 := by
  have hneg := e.neg
  rw [rcOf]
  omega

theorem freed_twice {rc : Int} (hcalled : o.kzalloc = true)
    (h : (espDeviceRegister o).2 = .returns rc) (hrc : rc ≠ 0)
    (hacquire : (espDeviceRegister o).1.count (.acquire .devStruct) = 0)
    (hrelease : (espDeviceRegister o).1.count (.release .devStruct) = 1) :
    ¬ AllOrNothing uses o := by
  intro hall
  obtain ⟨held, hrun, _⟩ := hall.orderly
  have hprobe : (espProbe uses o).1 = .acquire .devStruct :: .touch .devStruct ::
      ((espDeviceRegister o).1 ++ [.release .devStruct]) := by
    simp [espProbe, hcalled, h, hrc]
  have hbroken : run own ∅ (espProbe uses o).1 = none := by
    apply released_too_often (r := .devStruct)
    rw [hprobe]
    simp [hacquire, hrelease]
  rw [hbroken] at hrun
  cases hrun

def registerStart : Log :=
  [.touch .devStruct, .touch .devStruct, .acquire .cdev, .acquire .node, .touch .devStruct,
    .touch .node, .touch .devStruct, .acquire .irq, .acquire .iomem]

def heldMapped : Finset Resource := {.iomem, .irq, .node, .cdev, .devStruct}
def heldRegistered : Finset Resource := {.listed, .iomem, .irq, .node, .cdev, .devStruct}

theorem Succeeds.register (h : Succeeds o) : espDeviceRegister o =
    (registerStart ++ espReset o.polls ++ [.touch .devStruct, .acquire .listed], .returns 0) := by
  simp [espDeviceRegister, espCreateCdev, h.cdevAdd, h.deviceCreate, h.requestIrq, h.ioremap, rcOf,
    registerStart]

theorem Succeeds.orderly (h : Succeeds o) (hcalled : o.kzalloc = true) :
    run own ∅ (espProbe uses o).1 = some heldRegistered := by
  have hprobe : (espProbe uses o).1 = (.acquire .devStruct :: .touch .devStruct :: registerStart) ++
      (espReset o.polls ++ ([.touch .devStruct, .acquire .listed] ++
        (uses.map Touched.resource).map .touch)) := by
    simp [espProbe, hcalled, h.register]
  have hstart : run own ∅ (.acquire .devStruct :: .touch .devStruct :: registerStart) =
      some heldMapped := by decide +kernel
  have hreset : run own heldMapped (espReset o.polls) = some heldMapped := by
    apply run_touches
    intro r hr
    simp only [List.mem_cons, List.mem_replicate] at hr
    rcases hr with rfl | rfl | ⟨_, rfl⟩
    · decide
    · decide
    · decide
  have hlist : run own heldMapped [.touch .devStruct, .acquire .listed] = some heldRegistered := by
    decide +kernel
  have huses : run own heldRegistered ((uses.map Touched.resource).map .touch) =
      some heldRegistered := by
    apply run_touches
    intro r hr
    obtain ⟨u, _, rfl⟩ := List.mem_map.mp hr
    cases u with
    | field => decide
    | register => decide
  rw [hprobe, run_append]
  refine ⟨heldMapped, hstart, ?_⟩
  rw [run_append]
  refine ⟨heldMapped, hreset, ?_⟩
  rw [run_append]
  exact ⟨heldRegistered, hlist, huses⟩

theorem Succeeds.allOrNothing (h : Succeeds o) (hcalled : o.kzalloc = true) :
    AllOrNothing uses o := by
  constructor
  · refine ⟨heldRegistered, h.orderly hcalled, ?_⟩
    intro hfail
    exact absurd (by simp [espProbe, hcalled, h.register]) hfail
  · intro _
    refine iff_of_true (by rw [h.register]) ?_
    rw [Registered, h.register]
    simp

/-- A device that is not registered: the structure is freed twice, or the failure is not
reported, or the registers are used through an error pointer. -/
theorem AllOrNothing.succeeds (h : AllOrNothing uses o) (hcalled : o.kzalloc = true) :
    Succeeds o := by
  cases hcdev : o.cdevAdd with
  | some e =>
    have hexit : (espDeviceRegister o).2 = .returns (rcOf (some e)) := by
      simp [espDeviceRegister, espCreateCdev, hcdev, rcOf_ne]
    apply absurd h
    apply freed_twice hcalled hexit (rcOf_ne e)
    · simp [espDeviceRegister, espCreateCdev, hcdev, rcOf_ne]
    · simp [espDeviceRegister, espCreateCdev, hcdev, rcOf_ne]
  | none =>
    cases hnode : o.deviceCreate with
    | some e =>
      have hrc : e.val ≠ 0 := rcOf_ne e
      have hexit : (espDeviceRegister o).2 = .returns e.val := by
        simp [espDeviceRegister, espCreateCdev, hcdev, hnode, rcOf, hrc]
      apply absurd h
      apply freed_twice hcalled hexit hrc
      · simp [espDeviceRegister, espCreateCdev, hcdev, hnode, rcOf, hrc]
      · simp [espDeviceRegister, espCreateCdev, hcdev, hnode, rcOf, hrc]
    | none =>
      have hcreate : (espCreateCdev o).2 = 0 := by simp [espCreateCdev, hcdev, hnode, rcOf]
      cases hirq : o.requestIrq with
      | some e =>
        have hrc : e.val ≠ 0 := rcOf_ne e
        have hexit : (espDeviceRegister o).2 = .returns e.val := by
          simp [espDeviceRegister, hcreate, hirq, rcOf, hrc]
        apply absurd h
        apply freed_twice hcalled hexit hrc
        · simp [espDeviceRegister, hirq, hrc, espCreateCdev, hcdev, hnode, rcOf, espDestroyCdev]
        · simp [espDeviceRegister, hirq, hrc, espCreateCdev, hcdev, hnode, rcOf, espDestroyCdev]
      | none =>
        cases hmap : o.ioremap with
        | mapped => exact ⟨hcdev, hnode, hirq, hmap⟩
        | null =>
          have hexit : (espDeviceRegister o).2 = .returns 0 := by
            simp [espDeviceRegister, hcreate, hirq, hmap, rcOf]
          have hnot : ¬ Registered o := by
            simp [Registered, espDeviceRegister, hirq, hmap, rcOf, espCreateCdev, hcdev, hnode,
              espDestroyCdev]
          exact absurd ((h.zero hcalled).mp hexit) hnot
        | errPtr e =>
          obtain ⟨held, hrun, hnone⟩ := h.orderly
          have hexit : (espProbe uses o).2 = .oops := by
            simp [espProbe, hcalled, espDeviceRegister, hcreate, hirq, hmap, rcOf]
          have hempty : held = ∅ := by
            apply hnone
            rw [hexit]
            simp
          -- What was acquired is never released.
          have hbooks := own_count (r := .devStruct) hrun
          have hkept : (espProbe uses o).1.count (.release .devStruct) = 0 := by
            simp [espProbe, hcalled, espDeviceRegister, hirq, hmap, rcOf, espCreateCdev, hcdev, hnode]
          have htaken : (espProbe uses o).1.count (.acquire .devStruct) = 1 := by
            simp [espProbe, hcalled, espDeviceRegister, hirq, hmap, rcOf, espCreateCdev, hcdev, hnode]
          rw [hkept, htaken, hempty] at hbooks
          simp at hbooks

theorem probe_all_or_nothing (uses : List Touched) (o : Calls) :
    AllOrNothing uses o ↔ (o.kzalloc = true → Succeeds o) := by
  constructor
  · intro h hcalled
    exact h.succeeds hcalled
  · intro h
    cases hk : o.kzalloc with
    | true => exact (h hk).allOrNothing hk
    | false =>
      constructor
      · refine ⟨∅, ?_, fun _ => rfl⟩
        rw [espProbe, hk]
        rfl
      · intro hcalled
        rw [hk] at hcalled
        cases hcalled

example : AllOrNothing sortUses ⟨true, none, none, none, .mapped, 3⟩ :=
  Succeeds.allOrNothing ⟨rfl, rfl, rfl, rfl⟩ rfl

theorem busy_irq_freed_twice : ¬ AllOrNothing synthUses
    ⟨true, none, none, some ⟨-16, by decide⟩, .mapped, 0⟩ := by
  intro h
  have hirq := (h.succeeds rfl).requestIrq
  cases hirq

end Registration

end EspDrivers.Esp
