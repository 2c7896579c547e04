import EspDrivers.ContigAlloc

/-! The file operations of contig_alloc.c: open, CONTIG_IOC_ALLOC, CONTIG_IOC_FREE,
CONTIG_IOC_CHUNK_LOG and release. An open file lists the descriptors that were
allocated through it. -/
namespace EspDrivers.ContigAlloc

abbrev FileId := Nat

/-- The allocator and the private lists of the open files. -/
@[ext]
structure Sys where
  alloc : State
  files : FileId → Option (List Addr)

/-- struct contig_alloc_req as the user fills it in. -/
structure AllocReq where
  params : Params
  size : Nat
  arrNull : Bool
  nMax : Nat

/-- The two calls of copy_to_user: the page table, then the request. -/
structure UserCopies where
  arr : Bool
  req : Bool

structure AllocReply where
  khandle : Addr
  n : Nat
  mostAllocated : Node
  arr : List Nat

def contigOpen (sys : Sys) (f : FileId) (kmallocOk : Bool) : Sys × Except Errno Unit :=
  if kmallocOk then ({ sys with files := Function.update sys.files f (some []) }, .ok ())
  else (sys, .error .enomem)

def freeAndFail (sys : Sys) (s : State) (a : Addr) (e : Errno) :
    Except Fault (Sys × Except Errno AllocReply) := do
  let s ← contigFree s a
  .ok ({ sys with alloc := s }, .error e)

/-- contig_alloc_ioctl from the test of n_max on, with the descriptor at `a`. -/
def replyAlloc (sys : Sys) (f : FileId) (req : AllocReq) (c : UserCopies) (s : State) (a : Addr) :
    Except Fault (Sys × Except Errno AllocReply) :=
  match s.heap a with
  | none => .error .dangling
  | some desc =>
    if req.nMax < desc.n then freeAndFail sys s a .einval
    else if !c.arr then freeAndFail sys s a .efault
    else if !c.req then freeAndFail sys s a .efault
    else .ok
      ({ alloc := s
         files := Function.update sys.files f ((sys.files f).map fun l => a :: l) },
        .ok ⟨a, desc.n, desc.mostAllocated, desc.arr⟩)

/-- `req` is `none` when copy_from_user fails. -/
def contigAllocIoctl (sys : Sys) (f : FileId) (req : Option AllocReq) (m : Kmalloc)
    (c : UserCopies) : Except Fault (Sys × Except Errno AllocReply) :=
  match req with
  | none => .ok (sys, .error .efault)
  | some req =>
    if req.arrNull then .ok (sys, .error .efault)
    else if !contigAllocOk sys.alloc req.params then .ok (sys, .error .einval)
    else do
      match ← contigAlloc sys.alloc req.params req.size m with
      | (s, .error e) => .ok ({ sys with alloc := s }, .error e)
      | (s, .ok a) => replyAlloc sys f req c s a

/-- `del` is `none` when get_user fails. -/
def contigFreeIoctl (sys : Sys) (f : FileId) (del : Option Addr) :
    Except Fault (Sys × Except Errno Unit) :=
  match del, sys.files f with
  | none, _ => .ok (sys, .error .efault)
  | some _, none => .error .dangling
  | some a, some l =>
    if a ∈ l then do
      let s ← contigFree sys.alloc a
      .ok ({ alloc := s, files := Function.update sys.files f (some (l.erase a)) }, .ok ())
    else .ok (sys, .error .efault)

def freeAll : List Addr → State → Except Fault State
  | [], s => .ok s
  | a :: as, s => do
    let s ← contigFree s a
    freeAll as s

def contigRelease (sys : Sys) (f : FileId) : Except Fault Sys :=
  match sys.files f with
  | none => .error .dangling
  | some l => do
    let s ← freeAll l sys.alloc
    .ok { alloc := s, files := Function.update sys.files f none }

/-- The value that contig_chunk_size_ioctl stores for the user. -/
def contigChunkSizeIoctl (sys : Sys) (putUserOk : Bool) : Except Errno Nat :=
  if putUserOk then .ok sys.alloc.chunkSizeLog else .error .efault

inductive FileCall where
  | openFile (f : FileId) (kmallocOk : Bool)
  | alloc (f : FileId) (req : Option AllocReq) (m : Kmalloc) (c : UserCopies)
  | free (f : FileId) (del : Option Addr)
  | release (f : FileId)

def fileOf : FileCall → FileId
  | .openFile f _ => f
  | .alloc f _ _ _ => f
  | .free f _ => f
  | .release f => f

/-- One completed call; a file is opened once and used while it is open. -/
def fileStep (sys : Sys) : FileCall → Option Sys
  | .openFile f ok => if sys.files f = none then some (contigOpen sys f ok).1 else none
  | .alloc f req m c =>
    if sys.files f = none then none
    else (contigAllocIoctl sys f req m c).toOption.map Prod.fst
  | .free f del => if sys.files f = none then none
    else (contigFreeIoctl sys f del).toOption.map Prod.fst
  | .release f => (contigRelease sys f).toOption

end EspDrivers.ContigAlloc
