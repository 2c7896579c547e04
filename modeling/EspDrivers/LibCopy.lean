import EspDrivers.LibContig
import EspDrivers.MappedStore

/-! The copies of lib.c between regular memory and a contig buffer, and the accessors
of contig.h, over the mappings of the process and the bytes of memory. -/
namespace EspDrivers.LibContig
open ContigAlloc Mapping MappedStore

abbrev Byte := BitVec 8

/-- The process with memory, by physical address. The journal says what became of its
buffers, for the statements about it only. -/
structure User where
  proc : Proc
  mem : Nat → Byte
  bigEndian : Bool
  journal : List (Entry Req Byte)

def Proc.addr (s : Proc) (v : Nat) : Option Nat :=
  (s.vm (ulong v / pageSize)).map fun pfn => pfn * pageSize + ulong v % pageSize

section Copies

inductive CopyCrash where
  | abort
  | segfault
  deriving DecidableEq, Repr

/-- `vaddr` is the regular memory the copy has to do with: `size` bytes of it, before the
copy and, in the result, after it. -/
def contigCopy (u : User) (h : Req) (offset : Nat) (vaddr : List Byte) (toContig : Bool)
    (c : InitOutcome) : Except CopyCrash (User × List Byte) :=
  let (s, ok) := contigInit u.proc c
  if !ok then .error .abort
  else if ulong (h.n * s.chunkSize) < ulong (offset + vaddr.length) then .error .abort
  else
    let curr := h.mm * pageSize + offset
    if toContig then match store s.addr u.mem curr vaddr with
      | none => .error .segfault
      | some mem => .ok ({ u with proc := s, mem := mem }, vaddr)
    else match load s.addr u.mem curr vaddr.length with
      | none => .error .segfault
      | some bytes => .ok ({ u with proc := s }, bytes)

def contigCopyTo (u : User) (h : Req) (offset : Nat) (fr : List Byte) (c : InitOutcome) :
    Except CopyCrash User :=
  (contigCopy u h offset fr true c).map Prod.fst

def contigCopyFrom (u : User) (dest : List Byte) (h : Req) (offset : Nat) (c : InitOutcome) :
    Except CopyCrash (User × List Byte) :=
  contigCopy u h offset dest false c

end Copies

section Accessors

/-- How a number of `w` bytes lies in regular memory. -/
def toBytes (bigEndian : Bool) (w : Nat) (val : BitVec (8 * w)) : List Byte :=
  let bytes := (List.range w).map fun k => val.extractLsb' (8 * k) 8
  if bigEndian then bytes.reverse else bytes

def ofBytes (bigEndian : Bool) (w : Nat) (bytes : List Byte) : BitVec (8 * w) :=
  let bytes := if bigEndian then bytes.reverse else bytes
  BitVec.ofFnLE fun i => (bytes.getD (i / 8) 0).getLsbD (i % 8)

/-- DEF_CONTIG_READ: `ret` is copied over as a whole, whatever it held. -/
def contigRead (w : Nat) (u : User) (h : Req) (offs : Nat) (c : InitOutcome) :
    Except CopyCrash (User × BitVec (8 * w)) :=
  (contigCopyFrom u (List.replicate w 0) h offs c).map fun (t, ret) =>
    (t, ofBytes u.bigEndian w ret)

def contigWrite (w : Nat) (u : User) (val : BitVec (8 * w)) (h : Req) (offs : Nat)
    (c : InitOutcome) : Except CopyCrash User :=
  contigCopyTo u h offs (toBytes u.bigEndian w val) c

def contigRead8 := contigRead 1
def contigRead16 := contigRead 2
def contigRead32 := contigRead 4
def contigRead64 := contigRead 8
def contigWrite8 := contigWrite 1
def contigWrite16 := contigWrite 2
def contigWrite32 := contigWrite 4
def contigWrite64 := contigWrite 8

end Accessors

section Machine

/-- The place of a byte of a buffer that contig_mmap has mapped. -/
def bytePlace (pages : Nat) (arr : List Nat) (i : Nat) : Nat :=
  (arr.getD (i / pageSize / pages) 0 / pageSize + i / pageSize % pages) * pageSize + i % pageSize

inductive Access where
  | alloc (size : Nat) (c : AllocCalls)
  | allocPolicy (params : Params) (size : Nat) (c : AllocCalls)
  | free (h : Req) (c : FreeCalls)
  | copyTo (h : Req) (offset : Nat) (fr : List Byte) (c : InitOutcome)
  | copyFrom (dest : List Byte) (h : Req) (offset : Nat) (c : InitOutcome)
  | write (w : Nat) (val : BitVec (8 * w)) (h : Req) (offs : Nat) (c : InitOutcome)
  | read (w : Nat) (h : Req) (offs : Nat) (c : InitOutcome)
  | other (call : FileCall)
  | otherWrite (f : FileId) (khandle : Addr) (offset : Nat) (b : Byte)

/-- The process after an allocation; a new buffer begins with the bytes that were there. -/
def User.allocated (u : User) (s : Proc) : Option Req → User
  | none => { u with proc := s }
  | some h => { u with
      proc := s
      journal := .fresh h (fun i => (s.addr (h.mm * pageSize + i)).map u.mem) :: u.journal }

/-- One completed call of the process, a file operation of another process, or a byte
that another process writes to one of its own buffers. -/
def userStep (u : User) : Access → Option User
  | .alloc size c => (contigAlloc u.proc size c).toOption.map fun (s, r) => u.allocated s r
  | .allocPolicy params size c =>
    (contigAllocPolicy u.proc params size c).toOption.map fun (s, r) => u.allocated s r
  | .free h c => (step u.proc (.free h c)).map fun s => { u with proc := s }
  | .copyTo h offset fr c => (contigCopyTo u h offset fr c).toOption.map fun t =>
      { t with journal := .wrote h offset fr :: t.journal }
  | .copyFrom dest h offset c => (contigCopyFrom u dest h offset c).toOption.map fun (t, bytes) =>
      { t with journal := .read h offset bytes :: t.journal }
  | .write w val h offs c => (contigWrite w u val h offs c).toOption.map fun t =>
      { t with journal := .wrote h offs (toBytes u.bigEndian w val) :: t.journal }
  | .read w h offs c => (contigRead w u h offs c).toOption.map fun (t, val) =>
      { t with journal := .read h offs (toBytes u.bigEndian w val) :: t.journal }
  | .other call => (step u.proc (.other call)).map fun s => { u with proc := s }
  | .otherWrite f khandle offset b =>
    if f ∈ u.proc.fds.map Prod.snd ∨ khandle ∉ descsOf u.proc.kernel f then none
    else (u.proc.kernel.alloc.heap khandle).bind fun desc =>
      let st := u.proc.kernel.alloc
      if desc.n * st.chunkSize ≤ offset then none
      else some { u with
        mem := Function.update u.mem (bytePlace (st.chunkSize / pageSize) desc.arr offset) b }

/-- The copy is inside a buffer that has not been freed. -/
def User.Inside (u : User) (h : Req) (offset size : Nat) : Prop :=
  h ∈ u.proc.handles ∧ offset + size ≤ h.n * u.proc.chunkSize

def InBounds (u : User) : Access → Prop
  | .copyTo h offset fr _ => u.Inside h offset fr.length
  | .copyFrom dest h offset _ => u.Inside h offset dest.length
  | .write w _ h offs _ => u.Inside h offs w
  | .read w h offs _ => u.Inside h offs w
  | _ => True

instance (u : User) (h : Req) (offset size : Nat) : Decidable (u.Inside h offset size) :=
  inferInstanceAs (Decidable (_ ∧ _))

instance (u : User) : ∀ a, Decidable (InBounds u a)
  | .copyTo h offset fr _ => inferInstanceAs (Decidable (u.Inside h offset fr.length))
  | .copyFrom dest h offset _ => inferInstanceAs (Decidable (u.Inside h offset dest.length))
  | .write w _ h offs _ => inferInstanceAs (Decidable (u.Inside h offs w))
  | .read w h offs _ => inferInstanceAs (Decidable (u.Inside h offs w))
  | .alloc _ _ | .allocPolicy _ _ _ | .free _ _ | .other _ | .otherWrite _ _ _ _ => isTrue trivial

def User.start (s0 : State) (mem : Nat → Byte) (bigEndian : Bool) : User :=
  ⟨Proc.start s0, mem, bigEndian, []⟩

end Machine

end EspDrivers.LibContig
