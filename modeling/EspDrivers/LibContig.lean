import EspDrivers.ContigFiles
import EspDrivers.Mapping

/-! The user library lib.c over the allocator: a process opens /dev/contig_alloc at its
first call, allocates buffers and maps them. Addresses of the process and of memory
are counted in pages. The process makes one call at a time; other processes use their
own open files in between. -/
namespace EspDrivers.LibContig
open ContigAlloc Mapping

/-- struct contig_alloc_req as it stands after contig_alloc; a handle is its address. -/
structure Req where
  mm : Nat
  khandle : Addr
  n : Nat
  mostAllocated : Node
  arr : List Nat
  deriving DecidableEq, Repr

/-- The static variables of lib.c, with the process's descriptors of the device, its
mappings of contig memory and the handles that have not been freed. -/
structure Proc where
  kernel : Sys
  fds : List (Nat × FileId)
  fd : Nat
  chunkLog : Nat
  chunkSize : Nat
  vm : Nat → Option Nat
  handles : List Req

/-- What ends the process instead of returning. -/
inductive Crash where
  | divideByZero
  | abort
  | kernel (f : Fault)
  deriving DecidableEq, Repr

section Init

/-- One answer of open: the lowest free descriptor need not be above 0. -/
structure Opener where
  pick : List (Nat × FileId) → (FileId → Option (List Addr)) → Option (Nat × FileId)
  fresh : ∀ fds files n f, pick fds files = some (n, f) → fds.lookup n = none ∧ files f = none

structure InitOutcome where
  opener : Opener
  putUser : Bool

/-- 1 << chunk_log is an `int`, converted to `unsigned long`. -/
def chunkBytes (log : Nat) : Nat := (toInt (2 ^ log) % 2 ^ 64).toNat

/-- contig_init returns early while fd is not 0, and publishes fd before it knows the
chunk size. No other thread has set fd in between. -/
def contigInit (s : Proc) (o : InitOutcome) : Proc × Bool :=
  if s.fd ≠ 0 then (s, true)
  else match o.opener.pick s.fds s.kernel.files with
    | none => (s, false)
    | some (localFd, f) =>
      let s := { s with
        kernel := (contigOpen s.kernel f true).1
        fds := (localFd, f) :: s.fds
        fd := localFd }
      match contigChunkSizeIoctl s.kernel o.putUser with
      | .error _ => (s, false)
      | .ok log => ({ s with chunkLog := log, chunkSize := chunkBytes log }, true)

end Init

section Map

/-- One answer of mmap, which stays in the lower half of the address space. -/
structure Mmap where
  pick : (Nat → Option Nat) → Nat → Option Nat
  fresh : ∀ vm n base, pick vm n = some base → base + n < 2 ^ 51 ∧
    ∀ v, base ≤ v → v < base + n → vm v = none
  remapOk : Bool

/-- The search of contig_mmap through the file's list. -/
def findByPaddr (s : State) (paddr : Nat) : List Addr → Except Fault (Option Desc)
  | [] => .ok none
  | a :: as =>
    match s.heap a with
    | none => .error .dangling
    | some desc =>
      match desc.arr with
      | [] => .error .oob
      | x :: _ => if x = paddr then .ok (some desc) else findByPaddr s paddr as

def remapChunks (vm : Nat → Option Nat) (start pages : Nat) : List Nat → Nat → Option Nat
  | [] => vm
  | x :: xs => remapChunks (mapRegion vm ⟨start, pages, fun k => x / pageSize + k⟩)
      (start + pages) pages xs

def contigMmap (sys : Sys) (f : FileId) (vm : Nat → Option Nat) (start pgoff : Nat)
    (remapOk : Bool) : Except Fault (Option (Nat → Option Nat)) :=
  match sys.files f with
  | none => .error .dangling
  | some l => do
    match ← findByPaddr sys.alloc (pgoff * pageSize) l with
    | none => .ok none
    | some desc =>
      let pages := sys.alloc.chunkSize / pageSize
      .ok (if remapOk then some (remapChunks vm start pages (desc.arr.take desc.n)) else none)

/-- mmap of the device: `none` for MAP_FAILED, after which nothing is mapped. -/
def mmap (sys : Sys) (f : FileId) (vm : Nat → Option Nat) (len off : Nat) (m : Mmap) :
    Except Fault (Option (Nat × (Nat → Option Nat))) :=
  if len = 0 ∨ off % pageSize ≠ 0 then .ok none
  else match m.pick vm (divRoundUp len pageSize) with
    | none => .ok none
    | some base => do
      let r ← contigMmap sys f vm base (off / pageSize) m.remapOk
      .ok (r.map fun vm => (base, vm))

end Map

section Calls

structure AllocCalls where
  init : InitOutcome
  callocReq : Bool
  callocArr : Bool
  copyIn : Bool
  kmalloc : Kmalloc
  copies : UserCopies
  mmap : Mmap

def Req.ofReply (mm : Nat) (r : AllocReply) : Req :=
  ⟨mm, r.khandle, r.n, r.mostAllocated, r.arr⟩

def Proc.hold (s : Proc) (k : Sys) (vm : Nat → Option Nat) (h : Req) : Proc :=
  { s with kernel := k, vm := vm, handles := h :: s.handles }

/-- The exit err_mmap unmaps MAP_FAILED, which is no page address, so it does nothing. -/
def contigAllocPolicy (s : Proc) (params : Params) (size : Nat) (c : AllocCalls) :
    Except Crash (Proc × Option Req) :=
  let (s, ok) := contigInit s c.init
  if !ok then .ok (s, none)
  else if !c.callocReq then .ok (s, none)
  else if s.chunkSize = 0 then .error .divideByZero
  else if !c.callocArr then .ok (s, none)
  else match s.fds.lookup s.fd with
    | none => .ok (s, none)
    | some f =>
      let req : AllocReq := ⟨params, size, false, uint (divRoundUp size s.chunkSize)⟩
      match contigAllocIoctl s.kernel f (if c.copyIn then some req else none) c.kmalloc c.copies with
      | .error e => .error (.kernel e)
      | .ok (k, .error _) => .ok ({ s with kernel := k }, none)
      | .ok (k, .ok r) =>
        match mmap k f s.vm (ulong (r.n * s.chunkSize)) (r.arr.headD 0) c.mmap with
        | .error e => .error (.kernel e)
        | .ok none => .ok ({ s with kernel := k }, none)
        | .ok (some (mm, vm)) => .ok (s.hold k vm (Req.ofReply mm r), some (Req.ofReply mm r))

/-- contig_alloc is the same code with PREFERRED from node 0. -/
def contigAlloc (s : Proc) (size : Nat) (c : AllocCalls) : Except Crash (Proc × Option Req) :=
  contigAllocPolicy s (.preferred 0) size c

structure FreeCalls where
  init : InitOutcome
  getUser : Bool
  munmapOk : Bool

/-- contig_free unmaps chunk_size bytes. A munmap that fails is only reported. -/
def contigFree (s : Proc) (h : Req) (c : FreeCalls) : Except Crash Proc :=
  let (s, ok) := contigInit s c.init
  if !ok then .error .abort
  else match s.fds.lookup s.fd with
    | none => .error .abort
    | some f =>
      match contigFreeIoctl s.kernel f (if c.getUser then some h.khandle else none) with
      | .error e => .error (.kernel e)
      | .ok (_, .error _) => .error .abort
      | .ok (k, .ok ()) => .ok { s with
          kernel := k
          vm := if c.munmapOk then unmap s.vm h.mm (s.chunkSize / pageSize) else s.vm
          handles := s.handles.erase h }

end Calls

section Machine

inductive Call where
  | alloc (size : Nat) (c : AllocCalls)
  | allocPolicy (params : Params) (size : Nat) (c : AllocCalls)
  | free (h : Req) (c : FreeCalls)
  | other (call : FileCall)

/-- One completed call of the process, which frees only handles it has, or one file
operation of another process. -/
def step (s : Proc) : Call → Option Proc
  | .alloc size c => (contigAlloc s size c).toOption.map Prod.fst
  | .allocPolicy params size c => (contigAllocPolicy s params size c).toOption.map Prod.fst
  | .free h c => if h ∈ s.handles then (contigFree s h c).toOption else none
  | .other call =>
    if fileOf call ∈ s.fds.map Prod.snd then none
    else (fileStep s.kernel call).map fun k => { s with kernel := k }

def Proc.start (s0 : State) : Proc := ⟨Sys.closed s0, [], 0, 0, 0, fun _ => none, []⟩

end Machine

end EspDrivers.LibContig
