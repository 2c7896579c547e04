import EspDrivers.BarecMalloc
import EspDrivers.Buffers

/-! The search of the bare-metal programs on RISC-V for their devices. A scan of the device tree
reports every node, and the properties of a node go to the entry behind the devices found. -/
namespace EspDrivers.Barec
open Buffers

section Model

def vendorSld : BitVec 32 := 0xEB

def naccMax : Nat := 12

/-- struct esp_device, with its name without the characters behind the end of the string. -/
structure EspDevice where
  vendor : BitVec 32
  id : BitVec 32
  number : BitVec 32
  irq : BitVec 32
  addr : BitVec 64
  compat : BitVec 32
  name : String

def EspDevice.zero : EspDevice := ⟨0, 0, 0, 0, 0, 0, ""⟩

structure DevName where
  chars : String
  fits : chars.utf8ByteSize < 32

/- The nodes of the tree by their parents and properties. -/
variable {Parent Value : Type}

structure FdtProp (Value : Type) where
  name : String
  value : Value

structure FdtNode (Parent Value : Type) where
  parent : Parent
  props : List (FdtProp Value)

/-- The readers of a value: as a string, and those of the library that scans the tree. -/
structure Fdt (Parent Value : Type) where
  string : Value → String
  fdtGetAddress : Parent → Value → BitVec 64
  fdtGetValue : Value → BitVec 32

variable (fdt : Fdt Parent Value)

/-- The table and the static ndev. -/
structure Scan where
  espdevs : Buffer EspDevice
  ndev : Nat

def Scan.write (s : Scan) (f : EspDevice → EspDevice) : Option Scan := do
  let espdevs ← s.espdevs.store s.ndev (f (← s.espdevs.load s.ndev))
  return { s with espdevs := espdevs }

def espProp (parent : Parent) (s : Scan) (prop : FdtProp Value) : Option Scan := do
  let name := (← s.espdevs.load 0).name
  if prop.name = "compatible" ∧ fdt.string prop.value = name then
    s.write fun dev => { dev with compat := 1 }
  else if prop.name = "reg" then
    s.write fun dev => { dev with addr := fdt.fdtGetAddress parent prop.value }
  else if prop.name = "interrupts" then
    s.write fun dev => { dev with irq := fdt.fdtGetValue prop.value }
  else return s

/-- "Initialize new entry": the id is written over itself. -/
def EspDevice.initNew (ndev : Nat) (name : String) (dev : EspDevice) : EspDevice :=
  { dev with
    vendor := vendorSld, id := dev.id, number := BitVec.ofNat 32 ndev, compat := 0, name := name }

def Scan.advance (s : Scan) : Scan := { s with ndev := s.ndev + 1 }

def espDone (s : Scan) : Option Scan := do
  let name := (← s.espdevs.load 0).name
  if (← s.espdevs.load s.ndev).compat ≠ 0 then
    s.advance.write (EspDevice.initNew s.advance.ndev name)
  else return s

def scanNode (s : Scan) (node : FdtNode Parent Value) : Option Scan := do
  espDone (← node.props.foldlM (espProp fdt node.parent) s)

def fdtScan (tree : List (FdtNode Parent Value)) (s : Scan) : Option Scan :=
  tree.foldlM (scanNode fdt) s

/-- What probe returns, and what it leaves in `*espdevs` and in the allocator. -/
structure Probed where
  result : Int
  espdevs : Buffer EspDevice
  heap : Heap

def tableSize : BitVec 32 := 12 * 64

/-- "Initialize first entry of the device structure" -/
def EspDevice.first (devid : BitVec 32) (name : DevName) : EspDevice :=
  { EspDevice.zero with
    vendor := vendorSld, id := devid, number := 0, compat := 0, name := name.chars }

/-- An access outside of the table has no result. -/
def probe (h : Heap) (devid : BitVec 32) (name : DevName) (tree : List (FdtNode Parent Value)) :
    Option Probed := do
  let (ptr, h) := alignedMalloc h tableSize
  if ptr = 0 then return ⟨-1, ⟨0, fun _ => .zero⟩, h⟩
  else
    let espdevs : Buffer EspDevice := ⟨naccMax, fun _ => .zero⟩
    let espdevs ← espdevs.store 0 (.first devid name)
    let s ← fdtScan fdt tree ⟨espdevs, 0⟩
    return ⟨s.ndev, s.espdevs, h⟩

end Model

section Nodes
variable {Parent Value : Type} (fdt : Fdt Parent Value) (name : DevName)

def FdtNode.matches (node : FdtNode Parent Value) : Bool :=
  node.props.any fun prop => prop.name = "compatible" ∧ fdt.string prop.value = name.chars

def found (tree : List (FdtNode Parent Value)) : List (FdtNode Parent Value) :=
  tree.filter (FdtNode.matches fdt name)

def FdtNode.address (node : FdtNode Parent Value) : Option (BitVec 64) :=
  ((node.props.filter (·.name = "reg")).getLast?).map fun prop =>
    fdt.fdtGetAddress node.parent prop.value

def FdtNode.interrupt (node : FdtNode Parent Value) : Option (BitVec 32) :=
  ((node.props.filter (·.name = "interrupts")).getLast?).map fun prop =>
    fdt.fdtGetValue prop.value

/-- The result and the table tell of every device with the name, in the order of the tree. -/
def Faithful (devid : BitVec 32) (tree : List (FdtNode Parent Value)) (p : Probed) : Prop :=
  p.result = (found fdt name tree).length ∧
  ∀ k node, (found fdt name tree)[k]? = some node →
    (p.espdevs.cell k).vendor = vendorSld ∧ (p.espdevs.cell k).id = devid ∧
    (p.espdevs.cell k).number = BitVec.ofNat 32 k ∧
    node.address fdt = some (p.espdevs.cell k).addr ∧
    node.interrupt fdt = some (p.espdevs.cell k).irq

end Nodes

section Properties
variable {Parent Value : Type} {fdt : Fdt Parent Value} {name : DevName} {s : Scan}
  {node : FdtNode Parent Value} {props : List (FdtProp Value)} {parent : Parent}

def EspDevice.read (fdt : Fdt Parent Value) (name : DevName) (parent : Parent) (dev : EspDevice)
    (prop : FdtProp Value) : EspDevice :=
  if prop.name = "compatible" ∧ fdt.string prop.value = name.chars then { dev with compat := 1 }
  else if prop.name = "reg" then { dev with addr := fdt.fdtGetAddress parent prop.value }
  else if prop.name = "interrupts" then { dev with irq := fdt.fdtGetValue prop.value }
  else dev

/-- The properties leave what esp_done has set, but for the flag. -/
structure EspDevice.Same (d e : EspDevice) : Prop where
  vendor : e.vendor = d.vendor
  id : e.id = d.id
  number : e.number = d.number
  name : e.name = d.name

theorem EspDevice.read_same (d : EspDevice) (prop : FdtProp Value) :
    d.Same (d.read fdt name parent prop) := by
  rw [read]
  split_ifs <;> exact ⟨rfl, rfl, rfl, rfl⟩

theorem EspDevice.Same.trans {d e f : EspDevice} (h : d.Same e) (h' : e.Same f) : d.Same f :=
  ⟨h'.vendor.trans h.vendor, h'.id.trans h.id, h'.number.trans h.number, h'.name.trans h.name⟩

theorem foldl_same (d : EspDevice) (props : List (FdtProp Value)) :
    d.Same (props.foldl (EspDevice.read fdt name parent) d) := by
  induction props generalizing d with
  | nil => exact ⟨rfl, rfl, rfl, rfl⟩
  | cons prop props ih => exact (d.read_same prop).trans (ih _)

theorem foldl_compat (d : EspDevice) (props : List (FdtProp Value)) :
    (props.foldl (EspDevice.read fdt name parent) d).compat =
      if props.any fun prop => prop.name = "compatible" ∧ fdt.string prop.value = name.chars then 1
      else d.compat := by
  induction props generalizing d with
  | nil => rfl
  | cons prop props ih =>
    rw [List.foldl_cons, ih, List.any_cons]
    by_cases hmatch : prop.name = "compatible" ∧ fdt.string prop.value = name.chars
    · simp [EspDevice.read, hmatch]
    · have hkept : (d.read fdt name parent prop).compat = d.compat := by
        rw [EspDevice.read, if_neg hmatch]
        split_ifs <;> rfl
      rw [hkept, decide_eq_false hmatch, Bool.false_or]

theorem read_addr (d : EspDevice) (prop : FdtProp Value) :
    (d.read fdt name parent prop).addr =
      if prop.name = "reg" then fdt.fdtGetAddress parent prop.value else d.addr := by
  rw [EspDevice.read]
  split_ifs <;> simp_all

theorem read_irq (d : EspDevice) (prop : FdtProp Value) :
    (d.read fdt name parent prop).irq =
      if prop.name = "interrupts" then fdt.fdtGetValue prop.value else d.irq := by
  rw [EspDevice.read]
  split_ifs <;> simp_all

theorem foldl_addr (d : EspDevice) {a : BitVec 64} (ha : node.address fdt = some a) :
    (node.props.foldl (EspDevice.read fdt name node.parent) d).addr = a := by
  obtain ⟨parent, props⟩ := node
  simp only [FdtNode.address] at ha ⊢
  induction props using List.reverseRecOn with
  | nil => cases ha
  | append_singleton props prop ih =>
    rw [List.foldl_append, List.foldl_cons, List.foldl_nil, read_addr]
    by_cases hreg : prop.name = "reg"
    · rw [if_pos hreg]
      simpa [hreg] using ha
    · rw [if_neg hreg]
      exact ih (by simpa [hreg] using ha)

theorem foldl_irq (d : EspDevice) {v : BitVec 32} (hv : node.interrupt fdt = some v) :
    (node.props.foldl (EspDevice.read fdt name node.parent) d).irq = v := by
  obtain ⟨parent, props⟩ := node
  simp only [FdtNode.interrupt] at hv ⊢
  induction props using List.reverseRecOn with
  | nil => cases hv
  | append_singleton props prop ih =>
    rw [List.foldl_append, List.foldl_cons, List.foldl_nil, read_irq]
    by_cases hirq : prop.name = "interrupts"
    · rw [if_pos hirq]
      simpa [hirq] using hv
    · rw [if_neg hirq]
      exact ih (by simpa [hirq] using hv)

end Properties

section Scans
variable {Parent Value : Type} {fdt : Fdt Parent Value} {name : DevName} {s : Scan}
  {node : FdtNode Parent Value} {props : List (FdtProp Value)} {parent : Parent}
  {done rest tree : List (FdtNode Parent Value)} {devid : BitVec 32}

def Scan.put (s : Scan) (dev : EspDevice) : Scan :=
  { s with espdevs := ⟨s.espdevs.size, Function.update s.espdevs.cell s.ndev dev⟩ }

theorem Scan.write_eq (h : s.ndev < s.espdevs.size) (f : EspDevice → EspDevice) :
    s.write f = some (s.put (f (s.espdevs.cell s.ndev))) := by
  rw [write, Buffer.load_eq h]
  simp only [Option.bind_eq_bind, Option.bind_some]
  rw [Buffer.store_eq h]
  rfl

@[simp] theorem Scan.put_ndev (s : Scan) (dev : EspDevice) : (s.put dev).ndev = s.ndev := rfl

theorem Scan.advance_cell (s : Scan) (dev : EspDevice) (k : Nat) :
    (s.advance.put dev).espdevs.cell k = if k = s.ndev + 1 then dev else s.espdevs.cell k :=
  Function.update_apply _ _ _ _

theorem Scan.put_cell (s : Scan) (dev : EspDevice) (k : Nat) :
    (s.put dev).espdevs.cell k = if k = s.ndev then dev else s.espdevs.cell k :=
  Function.update_apply _ _ _ _

theorem espProp_eq (hndev : s.ndev < s.espdevs.size)
    (hname : (s.espdevs.cell 0).name = name.chars) (prop : FdtProp Value) :
    espProp fdt parent s prop =
      some (s.put ((s.espdevs.cell s.ndev).read fdt name parent prop)) := by
  have hself : s.put (s.espdevs.cell s.ndev) = s := by
    rw [Scan.put, Function.update_eq_self]
  rw [espProp, Buffer.load_eq (Nat.zero_lt_of_lt hndev), EspDevice.read]
  simp only [Option.bind_eq_bind, Option.bind_some, hname, Scan.write_eq hndev]
  split_ifs
  · rfl
  · rfl
  · rfl
  · rw [hself]
    rfl

theorem put_read_name (hname : (s.espdevs.cell 0).name = name.chars) (dev : EspDevice)
    (hsame : (s.espdevs.cell s.ndev).Same dev) :
    ((s.put dev).espdevs.cell 0).name = name.chars := by
  rw [Scan.put_cell]
  split
  · next h0 => rw [hsame.name, ← h0, hname]
  · exact hname

/-- The properties of a node go to the entry for ndev and nowhere else. -/
theorem props_read (hndev : s.ndev < s.espdevs.size)
    (hname : (s.espdevs.cell 0).name = name.chars) (props : List (FdtProp Value)) :
    props.foldlM (espProp fdt parent) s =
      some (s.put (props.foldl (EspDevice.read fdt name parent) (s.espdevs.cell s.ndev))) := by
  induction props generalizing s with
  | nil =>
    rw [List.foldl_nil, Scan.put, Function.update_eq_self]
    rfl
  | cons prop props ih =>
    have hsame : (s.espdevs.cell s.ndev).Same ((s.espdevs.cell s.ndev).read fdt name parent prop) :=
      EspDevice.read_same _ prop
    have hrest := ih (s := s.put ((s.espdevs.cell s.ndev).read fdt name parent prop)) hndev
      (put_read_name hname _ hsame)
    rw [List.foldlM_cons, espProp_eq hndev hname, Option.bind_eq_bind, Option.bind_some, hrest,
      List.foldl_cons]
    simp only [Scan.put, Function.update_self, Function.update_idem]

/-- The entry of the k-th device found. Only the first has the id that was asked for. -/
structure Registered (fdt : Fdt Parent Value) (name : DevName) (devid : BitVec 32) (k : Nat)
    (node : FdtNode Parent Value) (dev : EspDevice) : Prop where
  vendor : dev.vendor = vendorSld
  id : dev.id = if k = 0 then devid else 0
  number : dev.number = BitVec.ofNat 32 k
  addr : ∀ a, node.address fdt = some a → dev.addr = a
  irq : ∀ v, node.interrupt fdt = some v → dev.irq = v
  named : dev.name = name.chars

/-- An entry that has been set up for the next device. Its address and its interrupt are those
of nodes that did not match. -/
structure Open (name : DevName) (devid : BitVec 32) (k : Nat) (dev : EspDevice) : Prop where
  vendor : dev.vendor = vendorSld
  id : dev.id = if k = 0 then devid else 0
  number : dev.number = BitVec.ofNat 32 k
  compat : dev.compat = 0
  named : dev.name = name.chars

/-- The state when `done` has been scanned. -/
structure Scanned (fdt : Fdt Parent Value) (name : DevName) (devid : BitVec 32)
    (done : List (FdtNode Parent Value)) (s : Scan) : Prop where
  size : s.espdevs.size = naccMax
  ndev : s.ndev = (found fdt name done).length
  inside : s.ndev < naccMax
  entries : ∀ k node, (found fdt name done)[k]? = some node →
    Registered fdt name devid k node (s.espdevs.cell k)
  slot : Open name devid s.ndev (s.espdevs.cell s.ndev)
  rest : ∀ k, s.ndev < k → s.espdevs.cell k = .zero

theorem Scanned.named (h : Scanned fdt name devid done s) :
    (s.espdevs.cell 0).name = name.chars := by
  by_cases h0 : s.ndev = 0
  · exact h0 ▸ h.slot.named
  · have hlt : 0 < (found fdt name done).length := by
      have := h.ndev
      omega
    exact (h.entries 0 _ (List.getElem?_eq_getElem hlt)).named

/-- The slot when the properties of a node have been read. -/
def filled (fdt : Fdt Parent Value) (name : DevName) (s : Scan) (node : FdtNode Parent Value) :
    EspDevice :=
  node.props.foldl (EspDevice.read fdt name node.parent) (s.espdevs.cell s.ndev)

theorem filled_same (s : Scan) (node : FdtNode Parent Value) :
    (s.espdevs.cell s.ndev).Same (filled fdt name s node) := foldl_same _ _

theorem Scanned.filled_compat (h : Scanned fdt name devid done s) (node : FdtNode Parent Value) :
    (filled fdt name s node).compat = if node.matches fdt name then 1 else 0 := by
  rw [filled, foldl_compat, h.slot.compat]
  rfl

theorem Scanned.filled_registered (h : Scanned fdt name devid done s)
    (node : FdtNode Parent Value) :
    Registered fdt name devid s.ndev node (filled fdt name s node) := by
  have hsame : (s.espdevs.cell s.ndev).Same (filled fdt name s node) := filled_same s node
  exact ⟨hsame.vendor.trans h.slot.vendor, hsame.id.trans h.slot.id,
    hsame.number.trans h.slot.number, fun _ ha => foldl_addr _ ha, fun _ hv => foldl_irq _ hv,
    hsame.name.trans h.slot.named⟩

theorem found_append (done : List (FdtNode Parent Value)) (node : FdtNode Parent Value) :
    found fdt name (done ++ [node]) =
      found fdt name done ++ if node.matches fdt name then [node] else [] := by
  rw [found, List.filter_append, List.filter_cons, List.filter_nil]
  rfl

/-- The scan of a node comes down to the end of it, with its properties in the slot. -/
theorem Scanned.scanNode_eq (h : Scanned fdt name devid done s) (node : FdtNode Parent Value) :
    scanNode fdt s node =
      if node.matches fdt name then
        (s.put (filled fdt name s node)).advance.write
          (EspDevice.initNew (s.ndev + 1) name.chars)
      else some (s.put (filled fdt name s node)) := by
  have hndev : s.ndev < s.espdevs.size := h.size ▸ h.inside
  have hname := put_read_name h.named (filled fdt name s node) (filled_same s node)
  have hslot : (s.put (filled fdt name s node)).espdevs.cell s.ndev = filled fdt name s node :=
    Function.update_self _ _ _
  have hput : s.ndev < (s.put (filled fdt name s node)).espdevs.size := hndev
  have hload0 : (s.put (filled fdt name s node)).espdevs.load 0 =
      some ((s.put (filled fdt name s node)).espdevs.cell 0) :=
    Buffer.load_eq (Nat.zero_lt_of_lt hput)
  have hload : (s.put (filled fdt name s node)).espdevs.load s.ndev =
      some (filled fdt name s node) := by
    rw [Buffer.load_eq hput, hslot]
  rw [scanNode, props_read hndev h.named, Option.bind_eq_bind, Option.bind_some]
  change espDone (s.put (filled fdt name s node)) = _
  rw [espDone, hload0, Option.bind_eq_bind, Option.bind_some]
  change ((s.put (filled fdt name s node)).espdevs.load s.ndev >>= _) = _
  rw [hload, Option.bind_eq_bind, Option.bind_some, h.filled_compat, hname]
  cases node.matches fdt name <;> rfl

theorem Scanned.skip (h : Scanned fdt name devid done s)
    (hmatch : node.matches fdt name = false) :
    scanNode fdt s node = some (s.put (filled fdt name s node)) ∧
      Scanned fdt name devid (done ++ [node]) (s.put (filled fdt name s node)) := by
  have hsame : (s.espdevs.cell s.ndev).Same (filled fdt name s node) := filled_same s node
  have hfound : found fdt name (done ++ [node]) = found fdt name done := by
    rw [found_append, hmatch]
    exact List.append_nil _
  constructor
  · rw [h.scanNode_eq, hmatch]
    rfl
  · constructor
    · exact h.size
    · rw [hfound]
      exact h.ndev
    · exact h.inside
    · intro k other hk
      rw [hfound] at hk
      have hlt : k < s.ndev := h.ndev ▸ (List.getElem?_eq_some_iff.mp hk).1
      rw [Scan.put_cell, if_neg (Nat.ne_of_lt hlt)]
      exact h.entries k other hk
    · change Open name devid s.ndev ((s.put _).espdevs.cell s.ndev)
      rw [Scan.put_cell, if_pos rfl]
      refine ⟨hsame.vendor.trans h.slot.vendor, hsame.id.trans h.slot.id,
        hsame.number.trans h.slot.number, ?_, hsame.name.trans h.slot.named⟩
      rw [h.filled_compat, hmatch]
      rfl
    · intro k hk
      have hgt : s.ndev < k := hk
      rw [Scan.put_cell, if_neg (Nat.ne_of_gt hgt)]
      exact h.rest k hgt

theorem Scanned.register (h : Scanned fdt name devid done s)
    (hmatch : node.matches fdt name = true) (hroom : s.ndev + 1 < naccMax) :
    ∃ t, scanNode fdt s node = some t ∧ Scanned fdt name devid (done ++ [node]) t := by
  have hfound : found fdt name (done ++ [node]) = found fdt name done ++ [node] := by
    rw [found_append, hmatch]
    rfl
  have hlt : s.ndev + 1 < s.espdevs.size := h.size ▸ hroom
  have hnext : (s.put (filled fdt name s node)).espdevs.cell (s.ndev + 1) = .zero := by
    rw [Scan.put_cell, if_neg (Nat.succ_ne_self _)]
    exact h.rest _ (Nat.lt_succ_self _)
  rw [h.scanNode_eq, if_pos hmatch, Scan.write_eq hlt]
  refine ⟨_, rfl, h.size, ?_, hroom, ?_, ?_, ?_⟩
  · rw [hfound, List.length_append, ← h.ndev]
    rfl
  · intro k other hk
    have hle : k < s.ndev + 1 := by
      have hlen := (List.getElem?_eq_some_iff.mp hk).1
      rwa [hfound, List.length_append, ← h.ndev] at hlen
    rw [Scan.advance_cell, Scan.put_ndev, if_neg (Nat.ne_of_lt hle), Scan.put_cell]
    rw [hfound] at hk
    split
    · next heq =>
      subst heq
      have hother : node = other := by simpa [h.ndev] using hk
      exact hother ▸ h.filled_registered node
    · next hne =>
      rw [List.getElem?_append_left (by rw [← h.ndev]; omega)] at hk
      exact h.entries k other hk
  · change Open name devid (s.ndev + 1) ((Scan.put _ _).espdevs.cell (s.ndev + 1))
    rw [Scan.advance_cell, Scan.put_ndev, if_pos rfl]
    change Open name devid (s.ndev + 1) (EspDevice.initNew (s.ndev + 1) name.chars
      ((s.put (filled fdt name s node)).espdevs.cell (s.ndev + 1)))
    rw [hnext]
    exact ⟨rfl, (if_neg (Nat.succ_ne_zero _)).symm, rfl, rfl, rfl⟩
  · intro k hk
    have hgt : s.ndev + 1 < k := hk
    rw [Scan.advance_cell, Scan.put_ndev, if_neg (Nat.ne_of_gt hgt), Scan.put_cell,
      if_neg (by omega)]
    exact h.rest k (by omega)

theorem Scanned.overflow (h : Scanned fdt name devid done s)
    (hmatch : node.matches fdt name = true) (hfull : ¬s.ndev + 1 < naccMax) :
    scanNode fdt s node = none := by
  rw [h.scanNode_eq, if_pos hmatch, Scan.write, Buffer.load, if_neg]
  · rfl
  · exact h.size ▸ hfull

theorem scan_ends (h : Scanned fdt name devid done s)
    (hfew : (found fdt name (done ++ rest)).length < naccMax) :
    ∃ t, fdtScan fdt rest s = some t ∧ Scanned fdt name devid (done ++ rest) t := by
  induction rest generalizing done s with
  | nil => exact ⟨s, rfl, by rwa [List.append_nil]⟩
  | cons node rest ih =>
    have hsplit : done ++ node :: rest = (done ++ [node]) ++ rest := by simp
    rw [hsplit] at hfew ⊢
    obtain ⟨t, ht, hscanned⟩ :
        ∃ t, scanNode fdt s node = some t ∧ Scanned fdt name devid (done ++ [node]) t := by
      cases hmatch : node.matches fdt name with
      | false => exact ⟨_, h.skip hmatch⟩
      | true =>
        refine h.register hmatch (lt_of_le_of_lt ?_ hfew)
        rw [found, List.filter_append, ← found, found_append, hmatch, h.ndev]
        simp
    rw [fdtScan, List.foldlM_cons, ht]
    exact ih hscanned hfew

theorem scan_overflows (h : Scanned fdt name devid done s)
    (hmany : ¬(found fdt name (done ++ rest)).length < naccMax) : fdtScan fdt rest s = none := by
  induction rest generalizing done s with
  | nil =>
    rw [List.append_nil, ← h.ndev] at hmany
    exact absurd h.inside hmany
  | cons node rest ih =>
    have hsplit : done ++ node :: rest = (done ++ [node]) ++ rest := by simp
    rw [hsplit] at hmany
    rw [fdtScan, List.foldlM_cons]
    cases hmatch : node.matches fdt name with
    | false =>
      obtain ⟨ht, hscanned⟩ := h.skip hmatch
      rw [ht]
      exact ih hscanned hmany
    | true =>
      by_cases hroom : s.ndev + 1 < naccMax
      · obtain ⟨t, ht, hscanned⟩ := h.register hmatch hroom
        rw [ht]
        exact ih hscanned hmany
      · rw [h.overflow hmatch hroom]
        rfl

end Scans

section Probe
variable {Parent Value : Type} (fdt : Fdt Parent Value) (h : Heap) (devid : BitVec 32)
  (name : DevName) (tree : List (FdtNode Parent Value))

def first : Scan :=
  ⟨⟨naccMax, Function.update (fun _ => EspDevice.zero) 0 (.first devid name)⟩, 0⟩

theorem first_scanned : Scanned fdt name devid [] (first devid name) := by
  constructor
  · rfl
  · rfl
  · exact (by decide : 0 < naccMax)
  · intro k node hk
    cases hk
  · exact ⟨rfl, rfl, rfl, rfl, rfl⟩
  · intro k hk
    have hgt : 0 < k := hk
    exact Function.update_of_ne (Nat.ne_of_gt hgt) _ (fun _ => EspDevice.zero)

variable {fdt h devid name tree}

theorem probe_eq (hroom : Room h tableSize) :
    probe fdt h devid name tree = (fdtScan fdt tree (first devid name)).map fun s =>
      ⟨s.ndev, s.espdevs, (alignedMalloc h tableSize).2⟩ := by
  have hptr : (alignedMalloc h tableSize).1 ≠ 0 := by
    intro hzero
    have hbefore := hroom.fits.2.1
    change _ < ((alignedMalloc h tableSize).1).toNat at hbefore
    rw [hzero] at hbefore
    exact absurd hbefore (Nat.not_lt_zero _)
  have hstore : Buffer.store ⟨naccMax, fun _ => EspDevice.zero⟩ 0 (.first devid name) =
      some (first devid name).espdevs := Buffer.store_eq (by decide : 0 < naccMax) _
  rw [probe]
  change (if (alignedMalloc h tableSize).1 = 0 then _ else
    Buffer.store ⟨naccMax, fun _ => EspDevice.zero⟩ 0 (.first devid name) >>= _) = _
  rw [if_neg hptr, hstore, Option.bind_eq_bind, Option.bind_some]
  change (fdtScan fdt tree (first devid name) >>= _) = _
  cases fdtScan fdt tree (first devid name) <;> rfl

theorem probe_scanned (hroom : Room h tableSize) (hfew : (found fdt name tree).length < naccMax) :
    ∃ s, probe fdt h devid name tree =
        some ⟨s.ndev, s.espdevs, (alignedMalloc h tableSize).2⟩ ∧
      Scanned fdt name devid tree s := by
  obtain ⟨s, hs, hscanned⟩ := scan_ends (first_scanned fdt devid name) hfew
  refine ⟨s, ?_, hscanned⟩
  rw [probe_eq hroom, hs]
  rfl

/-- A blob with its strings apart from its cells, where a parent tells how many cells an address
has. -/
def blob : Fdt Nat (String ⊕ List (BitVec 32)) where
  string := Sum.elim id fun _ => ""
  fdtGetAddress cells := Sum.elim (fun _ => 0) fun value =>
    (value.take cells).foldl (fun a cell => a <<< 32 ||| cell.setWidth 64) 0
  fdtGetValue := Sum.elim (fun _ => 0) fun value => value.headD 0

def llcName : DevName := ⟨"sld,llc_cache", by decide⟩

/-- A cache controller in the tree, and a node that is none. -/
def llcNode (addr irq : BitVec 32) : FdtNode Nat (String ⊕ List (BitVec 32)) :=
  ⟨2, [⟨"reg", .inr [0, addr, 0, 0x1000]⟩, ⟨"compatible", .inl "sld,llc_cache"⟩,
    ⟨"interrupts", .inr [irq]⟩]⟩

def uartNode : FdtNode Nat (String ⊕ List (BitVec 32)) :=
  ⟨2, [⟨"interrupts", .inr [2]⟩, ⟨"compatible", .inl "gaisler,apbuart"⟩]⟩

theorem start_room : Room start tableSize := by
  rw [Room]
  decide

theorem matches_llcNode (addr irq : BitVec 32) :
    (llcNode addr irq).matches blob llcName = true := by
  simp [llcNode, FdtNode.matches, blob, llcName]

theorem matches_uartNode : uartNode.matches blob llcName = false := by
  simp [uartNode, FdtNode.matches, blob, llcName]

/-- The probe stays inside of its table exactly when one entry is left at the end. -/
theorem probe_inside_iff (fdt : Fdt Parent Value) (h : Heap) (devid : BitVec 32) (name : DevName)
    (tree : List (FdtNode Parent Value)) (hroom : Room h tableSize) :
    (∃ p, probe fdt h devid name tree = some p) ↔ (found fdt name tree).length < naccMax := by
  constructor
  · rintro ⟨p, hp⟩
    by_contra hmany
    rw [probe_eq hroom, scan_overflows (first_scanned fdt devid name) hmany] at hp
    cases hp
  · intro hfew
    obtain ⟨s, hs, -⟩ := @probe_scanned _ _ fdt h devid name tree hroom hfew
    exact ⟨_, hs⟩

theorem probe_inside_two :
    ∃ p, probe blob start 0x21 llcName [llcNode 0x60000000 4, uartNode] = some p := by
  refine (probe_inside_iff blob start 0x21 llcName _ start_room).mpr ?_
  rw [found, List.filter_cons, matches_llcNode, if_pos rfl, List.filter_cons, matches_uartNode]
  decide

theorem probe_twelve_outside :
    probe blob start 0x21 llcName (List.replicate naccMax (llcNode 0x60000000 4)) = none := by
  have hmany : ¬(found blob llcName ([] ++ List.replicate naccMax (llcNode 0x60000000 4))).length <
      naccMax := by
    rw [List.nil_append, found, List.filter_replicate, if_pos (matches_llcNode _ _),
      List.length_replicate]
    exact Nat.lt_irrefl _
  rw [probe_eq start_room, scan_overflows (first_scanned blob 0x21 llcName) hmany]
  rfl

/-- The probe tells of all devices exactly when there is one at most, or when the id asked for is
the one that memset leaves. -/
theorem probe_faithful_iff (fdt : Fdt Parent Value) (h : Heap) (devid : BitVec 32) (name : DevName)
    (tree : List (FdtNode Parent Value)) (hroom : Room h tableSize)
    (hfew : (found fdt name tree).length < naccMax)
    (hprops : ∀ node ∈ found fdt name tree,
      (node.address fdt).isSome ∧ (node.interrupt fdt).isSome) :
    (∃ p, probe fdt h devid name tree = some p ∧ Faithful fdt name devid tree p) ↔
      devid = 0 ∨ (found fdt name tree).length ≤ 1 := by
  obtain ⟨s, hs, hscanned⟩ := @probe_scanned _ _ fdt h devid name tree hroom hfew
  constructor
  · rintro ⟨p, hp, -, hentries⟩
    obtain rfl := Option.some.inj (hs.symm.trans hp)
    by_cases hone : (found fdt name tree).length ≤ 1
    · exact Or.inr hone
    · have hsecond := List.getElem?_eq_getElem (Nat.lt_of_not_le hone)
      have hzero := (hscanned.entries 1 _ hsecond).id
      exact Or.inl ((hentries 1 _ hsecond).2.1.symm.trans hzero)
  · intro hcond
    refine ⟨_, hs, congrArg Nat.cast hscanned.ndev, ?_⟩
    intro k node hk
    have hentry := hscanned.entries k node hk
    obtain ⟨hlt, hget⟩ := List.getElem?_eq_some_iff.mp hk
    obtain ⟨haddr, hirq⟩ := hprops node (hget ▸ List.getElem_mem hlt)
    obtain ⟨a, ha⟩ := Option.isSome_iff_exists.mp haddr
    obtain ⟨v, hv⟩ := Option.isSome_iff_exists.mp hirq
    refine ⟨hentry.vendor, ?_, hentry.number, ?_, ?_⟩
    · rw [hentry.id]
      cases hcond with
      | inl hid => exact hid ▸ ite_self _
      | inr hone => exact if_pos (by omega)
    · exact hentry.addr a ha ▸ ha
    · exact hentry.irq v hv ▸ hv

theorem probe_faithful_one : ∃ p, probe blob start 0x21 llcName
    [uartNode, llcNode 0x60000000 4] = some p ∧
      Faithful blob llcName 0x21 [uartNode, llcNode 0x60000000 4] p := by
  have hfound : found blob llcName [uartNode, llcNode 0x60000000 4] = [llcNode 0x60000000 4] := by
    rw [found, List.filter_cons, matches_uartNode, List.filter_cons, matches_llcNode]
    rfl
  refine (probe_faithful_iff blob start 0x21 llcName _ start_room ?_ ?_).mpr (Or.inr ?_)
  · rw [hfound]
    decide
  · intro node hnode
    rw [hfound, List.mem_singleton] at hnode
    subst hnode
    simp [FdtNode.address, FdtNode.interrupt, llcNode]
  · rw [hfound]
    decide

theorem probe_second_unfaithful :
    (found blob llcName [llcNode 0x60000000 4, llcNode 0x60010000 5]).length < naccMax ∧
    (∀ node ∈ found blob llcName [llcNode 0x60000000 4, llcNode 0x60010000 5],
      (node.address blob).isSome ∧ (node.interrupt blob).isSome) ∧
    ¬∃ p, probe blob start 0x21 llcName [llcNode 0x60000000 4, llcNode 0x60010000 5] = some p ∧
      Faithful blob llcName 0x21 [llcNode 0x60000000 4, llcNode 0x60010000 5] p := by
  have hfound : found blob llcName [llcNode 0x60000000 4, llcNode 0x60010000 5] =
      [llcNode 0x60000000 4, llcNode 0x60010000 5] := by
    rw [found, List.filter_cons, matches_llcNode, List.filter_cons, matches_llcNode]
    rfl
  have hfew : (found blob llcName [llcNode 0x60000000 4, llcNode 0x60010000 5]).length <
      naccMax := by
    rw [hfound]
    decide
  refine ⟨hfew, ?_, ?_⟩
  · intro node hnode
    rw [hfound] at hnode
    rcases List.mem_cons.mp hnode with rfl | hnode
    · simp [FdtNode.address, FdtNode.interrupt, llcNode]
    · rw [List.mem_singleton] at hnode
      subst hnode
      simp [FdtNode.address, FdtNode.interrupt, llcNode]
  · rintro ⟨p, hp, -, hentries⟩
    obtain ⟨s, hs, hscanned⟩ := @probe_scanned _ _ blob start 0x21 llcName _ start_room hfew
    obtain rfl := Option.some.inj (hs.symm.trans hp)
    have hsecond : (found blob llcName [llcNode 0x60000000 4, llcNode 0x60010000 5])[1]? =
        some (llcNode 0x60010000 5) := by
      rw [hfound]
      rfl
    have hzero := (hscanned.entries 1 _ hsecond).id
    have hid := (hentries 1 _ hsecond).2.1
    exact absurd (hzero.symm.trans hid) (by decide)

end Probe
end EspDrivers.Barec
