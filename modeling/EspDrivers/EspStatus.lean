import EspDrivers.ContigAlloc

/-! The coherence decision of esp.c: esp_status counts the accesses that run and the
memory they touch, esp_runtime_config reads it to choose a mode and charges it, and
esp_update_status takes the charge back. Counters are 32 bits wide. -/
namespace EspDrivers.Esp
open ContigAlloc (Fault ulong uint)

abbrev nMem : Nat := 2

/-- enum accelerator_coherence; the user may pass any other value. -/
inductive Coherence where
  | none | llc | recall | full | auto
  | other (value : Nat)
  deriving DecidableEq, Repr

def Coherence.value : Coherence → Nat
  | .none => 0
  | .llc => 1
  | .recall => 2
  | .full => 3
  | .auto => 4
  | .other v => v

/-- The test in front of both uses of esp_status in esp_access_ioctl. -/
def Coherence.usesStatus (c : Coherence) : Bool := c == .auto || c == .full

inductive Policy where
  | preferred | leastLoaded | balanced
  | other (value : Nat)
  deriving DecidableEq, Repr

/-- PREFERRED and LEAST_LOADED, which keep a buffer on one node. -/
def Policy.onOneNode : Policy → Bool
  | .preferred => true
  | .leastLoaded => true
  | _ => false

structure CacheParams where
  lineBytes : Nat
  l2Sets : Nat
  l2Ways : Nat
  llcSets : Nat
  llcWays : Nat
  llcBanks : Nat
  deriving DecidableEq, Repr

def CacheParams.l2Size (c : CacheParams) : Nat := ulong (c.l2Sets * c.l2Ways * c.lineBytes)
def CacheParams.llcSize (c : CacheParams) : Nat :=
  ulong (c.llcSets * c.llcWays * c.lineBytes * c.llcBanks)
def CacheParams.llcBankSize (c : CacheParams) : Nat := ulong (c.llcSets * c.llcWays * c.lineBytes)

/-- The values that the module starts with when insmod gives none. -/
def CacheParams.default : CacheParams := ⟨16, 512, 4, 1024, 16, 1⟩

/-- struct esp_status without its lock. -/
@[ext]
structure Status where
  activeAccCnt : BitVec 32
  activeAccCntFull : BitVec 32
  activeFootprint : BitVec 32
  activeFootprintSplit : Fin nMem → BitVec 32

structure Fields where
  coherence : Coherence
  footprint : BitVec 32
  allocPolicy : Policy
  ddrNode : Nat
  inPlace : BitVec 32
  reuseFactor : BitVec 32
  deriving DecidableEq

def splitIndex (i : Nat) : Except Fault (Fin nMem) :=
  if h : i < nMem then .ok ⟨i, h⟩ else .error .oob

/-- The loops `for (i = 0; i < cache_llc_banks; i++)` over active_footprint_split. -/
def forBanks (banks : Nat) (f : BitVec 32 → Except Fault (BitVec 32))
    (split : Fin nMem → BitVec 32) : Except Fault (Fin nMem → BitVec 32) :=
  (List.range banks).foldlM (fun split i => do
    let b ← splitIndex i
    let x ← f (split b)
    .ok (Function.update split b x)) split

/-- esp->footprint / cache_llc_banks, cut to the width of the counters. -/
def bankShare (c : CacheParams) (footprint : BitVec 32) : BitVec 32 :=
  BitVec.ofNat 32 (footprint.toNat / c.llcBanks)

/-- The division as the loops make it, in each round. -/
def divideByBanks (c : CacheParams) (footprint : BitVec 32) : Except Fault (BitVec 32) :=
  if c.llcBanks = 0 then .error .divZero else .ok (bankShare c footprint)

def Status.zero : Status := ⟨0, 0, 0, fun _ => 0⟩

/-- esp_status_init leaves active_acc_cnt_full as it is. -/
def espStatusInit (c : CacheParams) (s : Status) : Except Fault Status := do
  let split ← forBanks c.llcBanks (fun _ => .ok 0) s.activeFootprintSplit
  .ok { s with activeAccCnt := 0, activeFootprint := 0, activeFootprintSplit := split }

/-- The footprint that the decision looks at, with its threshold, an `unsigned int`. -/
def evaluateFootprint (c : CacheParams) (s : Status) (esp : Fields) :
    Except Fault (BitVec 32 × BitVec 32) :=
  if esp.allocPolicy.onOneNode then do
    let b ← splitIndex esp.ddrNode
    .ok (s.activeFootprintSplit b + esp.footprint, BitVec.ofNat 32 c.llcBankSize)
  else .ok (s.activeFootprint + esp.footprint, BitVec.ofNat 32 c.llcSize)

/-- The choice for an AUTO access, with active_acc_cnt counting it already. -/
def chooseCoherence (c : CacheParams) (s : Status) (esp : Fields)
    (footprint threshold : BitVec 32) : Coherence :=
  if esp.footprint.toNat < c.l2Size then
    if s.activeAccCntFull < 1 then .full else .llc
  else if 6 ≤ s.activeAccCnt then .none
  else if threshold < footprint then .none
  else .llc

/-- The update of active_footprint_split by the policies; `charge` adds or subtracts. -/
def chargeSplit (c : CacheParams) (charge : BitVec 32 → BitVec 32 → BitVec 32) (esp : Fields)
    (split : Fin nMem → BitVec 32) : Except Fault (Fin nMem → BitVec 32) :=
  if esp.allocPolicy.onOneNode then do
    let b ← splitIndex esp.ddrNode
    .ok (Function.update split b (charge (split b) esp.footprint))
  else forBanks c.llcBanks (fun x => charge x <$> divideByBanks c esp.footprint) split

def espRuntimeConfig (c : CacheParams) (s : Status) (esp : Fields) :
    Except Fault (Status × Fields) :=
  if esp.coherence = .full then
    if 1 ≤ s.activeAccCntFull then .ok (s, { esp with coherence := .llc })
    else .ok ({ s with activeAccCntFull := s.activeAccCntFull + 1 }, esp)
  else do
    let s := { s with activeAccCnt := s.activeAccCnt + 1 }
    let (footprint, threshold) ← evaluateFootprint c s esp
    let coherence := chooseCoherence c s esp footprint threshold
    let s := if coherence = .full then { s with activeAccCntFull := s.activeAccCntFull + 1 } else s
    let esp := { esp with coherence := coherence }
    if coherence = .none then .ok (s, esp)
    else do
      let split ← chargeSplit c (· + ·) esp s.activeFootprintSplit
      .ok ({ s with activeFootprint := s.activeFootprint + esp.footprint
                    activeFootprintSplit := split }, esp)

def espUpdateStatus (c : CacheParams) (s : Status) (esp : Fields) (auto : Bool) :
    Except Fault Status :=
  let s := if esp.coherence = .full then { s with activeAccCntFull := s.activeAccCntFull - 1 } else s
  if !auto then .ok s
  else
    let s := { s with activeAccCnt := s.activeAccCnt - 1 }
    if esp.coherence = .none then .ok s
    else do
      let split ← chargeSplit c (· - ·) esp s.activeFootprintSplit
      .ok { s with activeFootprint := s.activeFootprint - esp.footprint
                   activeFootprintSplit := split }

end EspDrivers.Esp
