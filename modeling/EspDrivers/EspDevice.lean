import EspDrivers.EspStatus

/-! One accelerator as the driver sees it: the registers, the operations on them that
an access makes, and the tests in front of them. -/
namespace EspDrivers.Esp
open ContigAlloc (Desc Errno)

section Registers

abbrev Iomem := Nat → BitVec 32

def cmdReg : Nat := 0x00
def ptAddressReg : Nat := 0x10
def ptNchunkReg : Nat := 0x14
def ptShiftReg : Nat := 0x18
def ptNchunkMaxReg : Nat := 0x1c
def coherenceReg : Nat := 0x24
def p2pReg : Nat := 0x28
def yxReg : Nat := 0x2c
def srcOffsetReg : Nat := 0x30
def dstOffsetReg : Nat := 0x34

/-- One iowrite32be, its value computed from what the register holds. -/
structure RegOp where
  reg : Nat
  value : BitVec 32 → BitVec 32

def iowrite (value : BitVec 32) (reg : Nat) : RegOp := ⟨reg, fun _ => value⟩
def ioset (bits : BitVec 32) (reg : Nat) : RegOp := ⟨reg, fun old => old ||| bits⟩

def RegOp.apply (iomem : Iomem) (op : RegOp) : Iomem :=
  Function.update iomem op.reg (op.value (iomem op.reg))

def perform (ops : List RegOp) (iomem : Iomem) : Iomem := ops.foldl RegOp.apply iomem

end Registers

section Requests

/-- struct esp_access. The strings end at their NUL. -/
structure Access where
  contig : Nat
  run : Bool
  p2pStore : Bool
  p2pNsrcs : Nat
  p2pSrcs : Fin 4 → List Char
  coherence : Coherence
  footprint : BitVec 32
  allocPolicy : Policy
  ddrNode : Nat
  inPlace : BitVec 32
  reuseFactor : BitVec 32

/-- What struct esp_driver holds for an access; `Arg` is the driver's own request, which
begins with a struct esp_access. -/
structure Driver (Arg : Type) where
  access : Arg → Access
  xferInputOk : Option (Arg → Bool)
  prepXfer : Option (Arg → List RegOp)

/-- A device on the list esp_devices: its name and its register YX. -/
structure Peer where
  name : List Char
  yx : BitVec 32

def Access.fields (access : Access) : Fields where
  coherence := access.coherence
  footprint := access.footprint
  allocPolicy := access.allocPolicy
  ddrNode := access.ddrNode
  inPlace := access.inPlace
  reuseFactor := access.reuseFactor

end Requests

section PointToPoint

def espGetY (dev : Peer) : BitVec 32 := 7 &&& (dev.yx >>> 16)
def espGetX (dev : Peer) : BitVec 32 := 7 &&& dev.yx
def espP2pReset : RegOp := iowrite 0 p2pReg
def espP2pEnableDst : RegOp := ioset 8 p2pReg
def espP2pEnableSrc : RegOp := ioset 4 p2pReg
def espP2pSetNsrcs (n : Nat) : RegOp := ioset (3 &&& BitVec.ofNat 32 (n - 1)) p2pReg
def espP2pSetY (n : Nat) (y : BitVec 32) : RegOp := ioset ((7 &&& y) <<< (7 + n * 6)) p2pReg
def espP2pSetX (n : Nat) (x : BitVec 32) : RegOp := ioset ((7 &&& x) <<< (4 + n * 6)) p2pReg

def strncmpEq (s t : List Char) (n : Nat) : Bool := s.take n == t.take n

/-- The writes for one source, or `none` when no device has the name. -/
def espP2pSetSrc (espDevices : List Peer) (srcName : List Char) (srcIndex : Nat) :
    Option (List RegOp) :=
  match espDevices.find? (fun dev => strncmpEq srcName dev.name dev.name.length) with
  | none => none
  | some dev => some [espP2pSetY srcIndex (espGetY dev), espP2pSetX srcIndex (espGetX dev)]

/-- The loop over the sources: the writes that it makes, and whether it comes to its end. -/
def espP2pSetSrcs (espDevices : List Peer) (access : Access) :
    List (Fin 4) → List RegOp × Except Errno Unit
  | [] => ([], .ok ())
  | i :: is =>
    match espP2pSetSrc espDevices (access.p2pSrcs i) i with
    | none => ([], .error .enodev)
    | some ops =>
      let r := espP2pSetSrcs espDevices access is
      (ops ++ r.1, r.2)

/-- esp_p2p_init after the loop. -/
def espP2pEnable (access : Access) : List RegOp :=
  (if access.p2pStore then [espP2pEnableDst] else []) ++
    if access.p2pNsrcs ≠ 0 then [espP2pEnableSrc, espP2pSetNsrcs access.p2pNsrcs] else []

/-- The caller has checked that there are at most 4 sources. -/
def espP2pInit (espDevices : List Peer) (access : Access) : List RegOp × Except Errno Unit :=
  let r := espP2pSetSrcs espDevices access ((List.finRange 4).take access.p2pNsrcs)
  match r.2 with
  | .error e => (espP2pReset :: r.1, .error e)
  | .ok () => (espP2pReset :: r.1 ++ espP2pEnable access, .ok ())

end PointToPoint

section Transfer

/-- No check when the accelerator does not access memory. -/
def espXferInputOk (iomem : Iomem) (contig : Desc) : Bool :=
  let nchunkMax := (iomem ptNchunkMaxReg).toNat
  if nchunkMax = 0 then true
  else !(contig.n = 0 || nchunkMax < contig.n)

/-- The loop of esp_cache_flush over the controllers: for each, whether its lock is
obtained. -/
def espCacheFlush : List Bool → Except Errno Unit
  | [] => .ok ()
  | locked :: rest => if locked then espCacheFlush rest else .error .eintr

/-- The private caches come first, and flushing them cannot fail. On RISC-V there is
nothing to flush. -/
def espFlush (riscv : Bool) (coherence : Coherence) (llc : List Bool) : Except Errno Unit :=
  if !riscv && coherence.value < Coherence.llc.value then espCacheFlush llc else .ok ()

def espFlushesPrivate (riscv : Bool) (coherence : Coherence) : Bool :=
  !riscv && coherence.value < Coherence.recall.value

def espTransferPages (contigChunkSizeLog : Nat) (contig : Desc) : List RegOp :=
  [iowrite (BitVec.ofNat 32 contig.arrDmaAddr) ptAddressReg,
    iowrite (BitVec.ofNat 32 contigChunkSizeLog) ptShiftReg,
    iowrite (BitVec.ofNat 32 contig.n) ptNchunkReg]

def espTransferCoherence (coherence : Coherence) : RegOp :=
  iowrite (BitVec.ofNat 32 coherence.value) coherenceReg

def espTransferOffsets : List RegOp := [iowrite 0 srcOffsetReg, iowrite 0 dstOffsetReg]

def espTransfer (contigChunkSizeLog : Nat) (coherence : Coherence) (contig : Desc) :
    List RegOp :=
  espTransferPages contigChunkSizeLog contig ++
    espTransferCoherence coherence :: espTransferOffsets

def espRun : RegOp := iowrite 1 cmdReg

variable {Arg : Type}

def Driver.inputOk (driver : Driver Arg) (arg : Arg) : Bool :=
  match driver.xferInputOk with
  | none => true
  | some ok => ok arg

def Driver.prepare (driver : Driver Arg) (arg : Arg) : List RegOp :=
  match driver.prepXfer with
  | none => []
  | some prep => prep arg

end Transfer

end EspDrivers.Esp
