import EspDrivers.KeyedStack

/-! The allocator of contig_alloc.c: chunks of physical memory on two DDR nodes,
descriptors made of chunks, and the three policies that pick the nodes. Machine
words are natural numbers reduced where the code reduces them; `unsigned long` is
64 bits wide. Every call runs under contig_lock, so a call is one step. -/
namespace EspDrivers.ContigAlloc
open KeyedStack

def ulong (x : Nat) : Nat := x % 2 ^ 64
def uint (x : Nat) : Nat := x % 2 ^ 32
def ulongSub (x y : Nat) : Nat := ulong (x + (2 ^ 64 - y))
/-- Conversion of an `unsigned long` to `int`. -/
def toInt (x : Nat) : Int := (x : Int).bmod (2 ^ 32)
def divRoundUp (n d : Nat) : Nat := ulong (n + d - 1) / d

def pageSize : Nat := 4096
abbrev ddrNodes : Nat := 2
abbrev Node := Fin ddrNodes
abbrev Addr := Nat

def nodes : List Node := List.finRange ddrNodes
def firstNode : Node := 0

inductive Errno where
  | enomem | einval | efault | eintr | enodev | eperm
  deriving DecidableEq, Repr

/-- Ways in which kernel code stops short: BUG_ON or BUG, an index outside an
array of DDR_NODES or N_MEM entries, a search loop that does not end, a pointer to
freed memory, a division by zero. -/
inductive Fault where
  | bug | oob | diverges | dangling | divZero
  deriving DecidableEq, Repr

/-- A chunk is a kmalloc'd object; `nr` is its position on its node at creation
and tells it apart from the other objects of the node. -/
structure Chunk where
  paddr : Nat
  ddrNode : Node
  nr : Nat
  deriving DecidableEq, Repr

/-- struct contig_desc; its two list nodes are the lists it is linked in. -/
structure Desc where
  arr : List Nat
  arrDmaAddr : Nat
  n : Nat
  mostAllocated : Node
  allocList : List Chunk
  deriving DecidableEq, Repr

/-- The module's variables, and the descriptors that are allocated. -/
@[ext]
structure State where
  chunkSizeLog : Nat
  chunkSize : Nat
  memStart : Node → Nat
  memSize : Node → Nat
  inactiveChunks : Node → List Chunk
  memAllocated : Node → Nat
  descList : List Addr
  heap : Addr → Option Desc

/-- The policy with the member of the union that belongs to it. -/
inductive Params where
  | preferred (ddrNode : Int)
  | leastLoaded (threshold : Nat)
  | balanced (threshold clusterSize : Nat)
  | other (policy : Nat)
  deriving DecidableEq, Repr

/-- One answer of kmalloc, kmalloc_array and dma_map_single to
contig_alloc_descriptor: no memory, or a block that is not in use and the bus
address of its page table. -/
structure Kmalloc where
  pick : (Addr → Option Desc) → Option (Addr × Nat)
  fresh : ∀ h a dma, pick h = some (a, dma) → h a = none ∧ a ≠ 0

section Init

structure Insmod where
  chunkLog : Nat
  start : Node → Nat
  size : Node → Nat

/-- Outcomes of the kernel calls of contig_init: contig_create_file, and kmalloc
for each chunk of each node. -/
structure InitCalls where
  createFile : Option Errno
  kmallocOk : Node → Nat → Bool

def Insmod.chunkSize (p : Insmod) : Nat := 2 ^ p.chunkLog
def Insmod.memSize (p : Insmod) (i : Node) : Nat := p.size i - p.size i % p.chunkSize

/-- The number of chunks as contig_chunks_create receives it, an `int`. -/
def Insmod.nChunks (p : Insmod) (i : Node) : Nat :=
  (toInt (p.memSize i / p.chunkSize)).toNat

def contigChunkPaddr (p : Insmod) (ddrNode : Node) (nChunk : Nat) : Nat :=
  ulong (p.start ddrNode + p.chunkSize * nChunk)

def contigChunksCreate (p : Insmod) (ddrNode : Node) : List Chunk :=
  (List.range (p.nChunks ddrNode)).map fun i => ⟨contigChunkPaddr p ddrNode i, ddrNode, i⟩

def initState (p : Insmod) : State where
  chunkSizeLog := p.chunkLog
  chunkSize := p.chunkSize
  memStart := p.start
  memSize := p.memSize
  inactiveChunks := contigChunksCreate p
  memAllocated := fun _ => 0
  descList := []
  heap := fun _ => none

def contigInit (p : Insmod) (o : InitCalls) : Except Errno State :=
  if 32 ≤ p.chunkLog then .error .einval
  else if p.start 0 = 0 then .error .einval
  else if p.chunkSize < pageSize then .error .einval
  else if ∃ i, p.memSize i = 0 ∨ p.memSize i < p.chunkSize then .error .einval
  else match o.createFile with
    | some e => .error e
    | none =>
      -- a failed kmalloc removes every chunk created so far
      if nodes.all fun i => (List.range (p.nChunks i)).all (o.kmallocOk i) then
        .ok (initState p)
      else .error .enomem

end Init

section Nodes

/-- An access to an array of DDR_NODES entries. -/
def index (i : Int) : Except Fault Node :=
  if h : 0 ≤ i ∧ i < ddrNodes then .ok ⟨i.toNat, by omega⟩ else .error .oob

/-- The while loop of get_next_ddr_node; the fuel bounds its iterations. -/
def searchDdrNode (s : State) (first : Int) : Nat → Node → Except Fault Node
  | 0, _ => .error .diverges
  | fuel + 1, d =>
    if s.memAllocated d = s.memSize d then
      if ((d + 1 : Node).val : Int) = first then .error .bug
      else searchDdrNode s first fuel (d + 1)
    else .ok d

def getNextDdrNode (s : State) (ddrNode first : Int) : Except Fault Node := do
  let d ← index ddrNode
  if s.memSize d < s.memAllocated d then .error .bug
  else searchDdrNode s first ddrNodes d

def leastLoadedAllocOk (s : State) (nChunks : Nat) : Bool :=
  nodes.any fun i => ulong (nChunks * s.chunkSize) ≤ ulongSub (s.memSize i) (s.memAllocated i)

def getLeastLoadedDdrNode (s : State) (nChunks threshold : Nat) : Node :=
  let tba := ulong (nChunks * s.chunkSize)
  let th := ulong (threshold * s.chunkSize)
  let best := nodes.tail.foldl (fun (b : Nat × Node) i =>
    if s.memAllocated i ≤ b.1 ∧ tba ≤ ulongSub (s.memSize i) (s.memAllocated i) then
      (s.memAllocated i, i) else b) (s.memSize 1, 0)
  if ulong (s.memAllocated 0 + th) < best.1 ∧
      tba ≤ ulongSub (s.memSize 0) (s.memAllocated 0) then 0
  else best.2

/-- The lowest-numbered node with the most chunks of a buffer. -/
def mostAllocated (nPerNode : Node → Nat) : Node :=
  nodes.tail.foldl (fun d i => if nPerNode d < nPerNode i then i else d) 0

end Nodes

section Policies

structure Progress where
  s : State
  desc : Desc
  allocated : Nat
  nPerNode : Node → Nat

def allocateChunk (s : State) (desc : Desc) (ddrNode : Node) (chunkIndex : Nat) :
    Except Fault (State × Desc) :=
  match s.inactiveChunks ddrNode with
  | [] => .error .bug
  | ch :: rest => .ok
    ({ s with
        inactiveChunks := Function.update s.inactiveChunks ddrNode rest
        memAllocated := Function.update s.memAllocated ddrNode
          (ulong (s.memAllocated ddrNode + s.chunkSize)) },
      { desc with
        allocList := ch :: desc.allocList
        arr := desc.arr.set chunkIndex ch.paddr })

variable {σ : Type}

/-- The loop `for (i = 0; i < desc->n; i++)` that the policies share: `next` picks
the node of the next chunk from the policy's own variables. -/
def allocLoop (next : State → σ → Except Fault (Node × σ)) :
    Nat → Nat → σ → Progress → Except Fault Progress
  | 0, _, _, p => .ok p
  | left + 1, i, v, p => do
    let (d, v) ← next p.s v
    let (s, desc) ← allocateChunk p.s p.desc d i
    allocLoop next left (i + 1) v
      { s := s
        desc := desc
        allocated := ulong (p.allocated + p.s.chunkSize)
        nPerNode := Function.update p.nPerNode d (p.nPerNode d + 1) }

def allocAll (next : State → σ → Except Fault (Node × σ)) (v : σ) (s : State) (desc : Desc) :
    Except Fault Progress := do
  let p ← allocLoop next desc.n 0 v ⟨s, desc, 0, fun _ => 0⟩
  if p.allocated ≠ ulong (p.desc.n * p.s.chunkSize) then .error .bug
  else .ok p

def nextPreferred (first : Int) (s : State) (ddrNode : Int) : Except Fault (Node × Int) := do
  let d ← getNextDdrNode s ddrNode first
  .ok (d, (d.val : Int))

def contigAllocPreferred (s : State) (desc : Desc) (first : Int) :
    Except Fault (State × Desc) := do
  let p ← allocAll (nextPreferred first) first s desc
  .ok (p.s, { p.desc with mostAllocated := mostAllocated p.nPerNode })

def nextLeastLoaded (_ : State) (ddrNode : Node) : Except Fault (Node × Node) :=
  .ok (ddrNode, ddrNode)

def contigAllocLeastLoaded (s : State) (desc : Desc) (threshold : Nat) :
    Except Fault (Except Errno (State × Desc)) :=
  if leastLoadedAllocOk s desc.n then do
    let ddrNode := getLeastLoadedDdrNode s desc.n threshold
    let p ← allocAll nextLeastLoaded ddrNode s desc
    .ok (.ok (p.s, { p.desc with mostAllocated := ddrNode }))
  else .ok (.error .enomem)

def nextBalanced (clusterSize : Nat) (s : State) (v : Node × Nat) :
    Except Fault (Node × (Node × Nat)) := do
  let d ← if v.2 = clusterSize then
      getNextDdrNode s ((v.1 + 1 : Node).val : Int) ((v.1 + 1 : Node).val : Int)
    else getNextDdrNode s (v.1.val : Int) (v.1.val : Int)
  if v.1 ≠ d then .ok (d, (d, 1)) else .ok (d, (d, v.2 + 1))

def contigAllocBalanced (s : State) (desc : Desc) (threshold clusterSize : Nat) :
    Except Fault (State × Desc) := do
  let ddrNode := getLeastLoadedDdrNode s 1 threshold
  let p ← allocAll (nextBalanced clusterSize) (ddrNode, 0) s desc
  .ok (p.s, { p.desc with mostAllocated := mostAllocated p.nPerNode })

end Policies

section Calls

/-- kmalloc_array leaves the page table uninitialised; the policies write it all. -/
def contigAllocDescriptor (s : State) (m : Kmalloc) (nChunks : Nat) :
    Except Errno (Addr × Desc) :=
  match m.pick s.heap with
  | none => .error .enomem
  | some (a, dma) => .ok (a, ⟨List.replicate nChunks 0, dma, nChunks, 0, []⟩)

def allocByPolicy (s : State) (desc : Desc) : Params →
    Except Fault (Except Errno (State × Desc))
  | .preferred d => .ok <$> contigAllocPreferred s desc d
  | .leastLoaded t => contigAllocLeastLoaded s desc t
  | .balanced t c => .ok <$> contigAllocBalanced s desc t c
  | .other _ => .error .bug

/-- The descriptor becomes visible: it is linked at the head of desc_list. -/
def publish (s : State) (a : Addr) (desc : Desc) : State :=
  { s with descList := a :: s.descList, heap := Function.update s.heap a (some desc) }

def contigAllocChunks (s : State) (params : Params) (nChunks : Nat) (m : Kmalloc) :
    Except Fault (State × Except Errno Addr) :=
  match contigAllocDescriptor s m nChunks with
  | .error e => .ok (s, .error e)
  | .ok (a, desc) => do
    match ← allocByPolicy s desc params with
    | .error e => .ok (s, .error e)
    | .ok (s, desc) => .ok (publish s a desc, .ok a)

def memFree (s : State) : Nat :=
  nodes.foldl (fun t i => ulong (t + ulongSub (s.memSize i) (s.memAllocated i))) 0

def nChunks (s : State) (size : Nat) : Nat := uint (divRoundUp size s.chunkSize)

def contigAlloc (s : State) (params : Params) (size : Nat) (m : Kmalloc) :
    Except Fault (State × Except Errno Addr) :=
  if size = 0 then .ok (s, .error .einval)
  else if memFree s < size then .ok (s, .error .enomem)
  else if memFree s / s.chunkSize < nChunks s size then .error .bug
  else contigAllocChunks s params (nChunks s size) m

/-- One iteration of the loop of __contig_free; the total is an `unsigned int`. -/
def freeChunk (v : State × Nat) (ch : Chunk) : State × Nat :=
  ({ v.1 with
      inactiveChunks := push Chunk.ddrNode v.1.inactiveChunks ch
      memAllocated := Function.update v.1.memAllocated ch.ddrNode
        (ulongSub (v.1.memAllocated ch.ddrNode) v.1.chunkSize) },
    uint (v.2 + v.1.chunkSize))

def contigFree (s : State) (a : Addr) : Except Fault State :=
  match s.heap a with
  | none => .error .dangling
  | some desc =>
    let v := desc.allocList.foldl freeChunk (s, 0)
    if v.2 ≠ ulong (desc.n * s.chunkSize) then .error .bug
    else .ok { v.1 with
      descList := v.1.descList.erase a
      heap := Function.update v.1.heap a none }

/-- The check of the user's parameters in front of contig_alloc. -/
def contigAllocOk (s : State) : Params → Bool
  | .preferred d => !(d < 0 || (ddrNodes : Int) < d)
  | .leastLoaded t => !(s.memSize 0 / s.chunkSize < t)
  | .balanced t c => !(s.memSize 0 / s.chunkSize < t) && !(c < 1)
  | .other _ => false

end Calls

section Machine

inductive Op where
  | alloc (params : Params) (size : Nat) (m : Kmalloc)
  | free (a : Addr)

/-- One completed call. A call that faults leaves no state behind. -/
def step (s : State) : Op → Option State
  | .alloc params size m => (contigAlloc s params size m).toOption.map Prod.fst
  | .free a => (contigFree s a).toOption

end Machine

end EspDrivers.ContigAlloc
