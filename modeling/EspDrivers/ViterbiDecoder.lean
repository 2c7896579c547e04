import EspDrivers.Checked
import EspDrivers.Buffers

/-! The Viterbi decoder of viterbi_decoder_generic.c for the codes of constraint length 7, as the
Makefile builds it, with USE_ESP_INTERFACE: the butterflies work on one block of memory. An
access outside an array and an exit have no result. -/
namespace EspDrivers.Viterbi
open Buffers Checked

section Tables

inductive Encoding where
  | BPSK_1_2
  | BPSK_3_4
  | QPSK_1_2
  | QPSK_3_4
  | QAM16_1_2
  | QAM16_3_4
  | QAM64_2_3
  | QAM64_3_4
  deriving DecidableEq, Repr

structure OfdmParam where
  encoding : Encoding
  nCbps : Nat

structure FrameParam where
  nSym : Nat
  nDataBits : Nat

def maxEncodedBits : Nat := (16 + 8 * (1500 + 28) + 6) * 2 + 288
def tracebackMax : Nat := 24

def partab : List UInt8 :=
  [
   0, 1, 1, 0, 1, 0, 0, 1, 1, 0, 0, 1, 0, 1, 1, 0, 1, 0, 0, 1, 0, 1, 1, 0, 0, 1, 1, 0, 1, 0, 0, 1,
   1, 0, 0, 1, 0, 1, 1, 0, 0, 1, 1, 0, 1, 0, 0, 1, 0, 1, 1, 0, 1, 0, 0, 1, 1, 0, 0, 1, 0, 1, 1, 0,
   1, 0, 0, 1, 0, 1, 1, 0, 0, 1, 1, 0, 1, 0, 0, 1, 0, 1, 1, 0, 1, 0, 0, 1, 1, 0, 0, 1, 0, 1, 1, 0,
   0, 1, 1, 0, 1, 0, 0, 1, 1, 0, 0, 1, 0, 1, 1, 0, 1, 0, 0, 1, 0, 1, 1, 0, 0, 1, 1, 0, 1, 0, 0, 1,
   1, 0, 0, 1, 0, 1, 1, 0, 0, 1, 1, 0, 1, 0, 0, 1, 0, 1, 1, 0, 1, 0, 0, 1, 1, 0, 0, 1, 0, 1, 1, 0,
   0, 1, 1, 0, 1, 0, 0, 1, 1, 0, 0, 1, 0, 1, 1, 0, 1, 0, 0, 1, 0, 1, 1, 0, 0, 1, 1, 0, 1, 0, 0, 1,
   0, 1, 1, 0, 1, 0, 0, 1, 1, 0, 0, 1, 0, 1, 1, 0, 1, 0, 0, 1, 0, 1, 1, 0, 0, 1, 1, 0, 1, 0, 0, 1,
   1, 0, 0, 1, 0, 1, 1, 0, 0, 1, 1, 0, 1, 0, 0, 1, 0, 1, 1, 0, 1, 0, 0, 1, 1, 0, 0, 1, 0, 1, 1, 0]

def polys0 : Nat := 0x6d
def polys1 : Nat := 0x4f

def puncture12 : List UInt8 := [1, 1]
def puncture23 : List UInt8 := [1, 1, 1, 0]
def puncture34 : List UInt8 := [1, 1, 1, 0, 0, 1]

end Tables

section State

/-- The variables of the file. `ppresult` and `branchtab27` hold their rows one after another,
of 64 and of 32 bytes. -/
structure Decoder where
  storePos : Nat
  mmresult : Buffer UInt8
  ppresult : Buffer UInt8
  ntraceback : Nat
  k : Nat
  depuncturePattern : List UInt8
  depunctured : Buffer UInt8
  decoded : Buffer UInt8
  branchtab27 : Buffer UInt8
  metric0 : Buffer UInt8
  metric1 : Buffer UInt8
  path0 : Buffer UInt8
  path1 : Buffer UInt8

def zeros (size : Nat) : Buffer UInt8 := ⟨size, fun _ => 0⟩

/-- What the variables hold when the program starts. -/
def Decoder.start : Decoder where
  storePos := 0
  mmresult := zeros 64
  ppresult := zeros (tracebackMax * 64)
  ntraceback := 0
  k := 0
  depuncturePattern := []
  depunctured := zeros maxEncodedBits
  decoded := zeros (maxEncodedBits * 3 / 4)
  branchtab27 := zeros 64
  metric0 := zeros 64
  metric1 := zeros 64
  path0 := zeros 64
  path1 := zeros 64

def viterbiChunksInitGeneric (d : Decoder) : Option Decoder := do
  let (metric0, path0) ← (List.range 4).foldlM (fun (metric0, path0) i => do
    some (← metric0.store i 0, ← path0.store i 0)) (d.metric0, d.path0)
  let branchtab27 ← (List.range 32).foldlM (fun c i => do
    let c ← c.store i (if (← partab[(2 * i) &&& polys0]?) ≠ 0 then 1 else 0)
    c.store (32 + i) (if (← partab[(2 * i) &&& polys1]?) ≠ 0 then 1 else 0)) d.branchtab27
  let (mmresult, ppresult) ← (List.range 64).foldlM (fun (mmresult, ppresult) i => do
    let mmresult ← mmresult.store i 0
    let ppresult ← (List.range tracebackMax).foldlM (fun p j => p.store (64 * j + i) 0) ppresult
    some (mmresult, ppresult)) (d.mmresult, d.ppresult)
  some { d with
    metric0 := metric0, path0 := path0, branchtab27 := branchtab27
    mmresult := mmresult, ppresult := ppresult }

def Encoding.settings : Encoding → Nat × List UInt8 × Nat
  | .BPSK_1_2 | .QPSK_1_2 | .QAM16_1_2 => (5, puncture12, 1)
  | .QAM64_2_3 => (9, puncture23, 2)
  | .BPSK_3_4 | .QPSK_3_4 | .QAM16_3_4 | .QAM64_3_4 => (10, puncture34, 3)

def reset (ofdm : OfdmParam) (d : Decoder) : Option Decoder := do
  let d ← viterbiChunksInitGeneric d
  let (ntraceback, pattern, k) := ofdm.encoding.settings
  some { d with ntraceback := ntraceback, depuncturePattern := pattern, k := k }

end State

section Depuncture

/-- Erasures up to the next position that is transmitted. -/
def skipPunctured (d : Decoder) (s : Buffer UInt8 × Nat) : Option (Buffer UInt8 × Nat) :=
  whileLoop (fun (_, count) => do
      some (decide ((← d.depuncturePattern[count % (2 * d.k)]?) = 0)))
    (fun (depunctured, count) => do some (← depunctured.store count 2, count + 1))
    (2 * d.k + 1) s

def depuncture (ofdm : OfdmParam) (frame : FrameParam) (d : Decoder) (bits : Buffer UInt8) :
    Option (Decoder × Buffer UInt8) :=
  if d.ntraceback = 5 then some (d, bits)
  else do
    let (depunctured, _) ← (List.range frame.nSym).foldlM (fun s i =>
      (List.range ofdm.nCbps).foldlM (fun s k => do
        let (depunctured, count) ← skipPunctured d s
        let depunctured ← depunctured.store count (← bits.load (i * ofdm.nCbps + k))
        skipPunctured d (depunctured, count + 1)) s) (d.depunctured, 0)
    some ({ d with depunctured := depunctured }, depunctured)

end Depuncture

section Butterfly

/-- A loop that fills an array of 16 bytes. The array is a function of the lane. -/
def lanes (f : Nat → Option UInt8) : Option (Nat → UInt8) := do
  let cells ← (List.range 16).mapM f
  some fun j => cells.getD j 0

/-- Two bytes at a time are shifted as one word. -/
def shiftLanes (mem : Buffer UInt8) (path : Nat) : Option (Nat → UInt8) := do
  let cells ← (List.range 8).mapM fun k => do
    let low := (← mem.load (path + 2 * k)).toUInt16
    let simd := (low ||| ((← mem.load (path + (2 * k + 1))).toUInt16 <<< 8)) <<< 1
    some [simd.toUInt8, (simd >>> 8).toUInt8]
  some fun j => cells.flatten.getD j 0

/-- The loops over `j` and `k` that store two arrays in turns, from the lane `lane` on. -/
def interleave (mem : Buffer UInt8) (base lane : Nat) (even odd : Nat → UInt8) :
    Option (Buffer UInt8) :=
  (List.range 8).foldlM (fun mem k => do
    let mem ← mem.store (base + 2 * k) (even (lane + k))
    mem.store (base + (2 * k + 1)) (odd (lane + k))) mem

/-- metsvm and metsv. The branch tables are at 256 and 288, the symbols at 320. -/
def branchMetrics (mem : Buffer UInt8) (firstSymbol : Nat) (sym0v sym1v : Nat → UInt8) (i : Nat) :
    Option ((Nat → UInt8) × (Nat → UInt8)) := do
  if (← mem.load (320 + firstSymbol)) = 2 then
    let metsvm ← lanes fun j => do some ((← mem.load (288 + (i * 16 + j))) ^^^ sym1v j)
    some (metsvm, fun j => 1 - metsvm j)
  else if (← mem.load (320 + (firstSymbol + 1))) = 2 then
    let metsvm ← lanes fun j => do some ((← mem.load (256 + (i * 16 + j))) ^^^ sym0v j)
    some (metsvm, fun j => 1 - metsvm j)
  else
    let metsvm ← lanes fun j => do
      some (((← mem.load (256 + (i * 16 + j))) ^^^ sym0v j) +
        ((← mem.load (288 + (i * 16 + j))) ^^^ sym1v j))
    some (metsvm, fun j => 2 - metsvm j)

structure Pointers where
  metric0 : Nat
  path0 : Nat
  metric1 : Nat
  path1 : Nat

def decide16 (a b : Nat → UInt8) (j : Nat) : UInt8 :=
  if 0 < ((a j).toNat : Int) - (b j).toNat then 0xff else 0x0

def select16 (decision a b : Nat → UInt8) (j : Nat) : UInt8 :=
  (decision j &&& a j) ||| (~~~ decision j &&& b j)

def butterflies (p : Pointers) (firstSymbol : Nat) (sym0v sym1v : Nat → UInt8)
    (mem : Buffer UInt8) (i : Nat) : Option (Buffer UInt8) := do
  let (metsvm, metsv) ← branchMetrics mem firstSymbol sym0v sym1v i
  let m0 ← lanes fun j => do some ((← mem.load (p.metric0 + (i * 16 + j))) + metsv j)
  let m1 ← lanes fun j => do some ((← mem.load (p.metric0 + ((i + 2) * 16 + j))) + metsvm j)
  let m2 ← lanes fun j => do some ((← mem.load (p.metric0 + (i * 16 + j))) + metsvm j)
  let m3 ← lanes fun j => do some ((← mem.load (p.metric0 + ((i + 2) * 16 + j))) + metsv j)
  let decision0 := decide16 m0 m1
  let decision1 := decide16 m2 m3
  let survivor0 := select16 decision0 m0 m1
  let survivor1 := select16 decision1 m2 m3
  let shift0 ← shiftLanes mem (p.path0 + i * 16)
  let shift1 ← shiftLanes mem (p.path0 + (i + 2) * 16)
  let shift1 := fun j => shift1 j + 1
  let mem ← interleave mem (p.metric1 + 2 * i * 16) 0 survivor0 survivor1
  let tmp0 := select16 decision0 shift0 shift1
  let mem ← interleave mem (p.metric1 + (2 * i + 1) * 16) 8 survivor0 survivor1
  let tmp1 := select16 decision1 shift0 shift1
  let mem ← interleave mem (p.path1 + 2 * i * 16) 0 tmp0 tmp1
  interleave mem (p.path1 + (2 * i + 1) * 16) 8 tmp0 tmp1

def symbolGroup (p : Pointers) (firstSymbol : Nat) (mem : Buffer UInt8) :
    Option (Buffer UInt8) := do
  let sym0v ← lanes fun _ => mem.load (320 + firstSymbol)
  let sym1v ← lanes fun _ => mem.load (320 + (firstSymbol + 1))
  (List.range 2).foldlM (butterflies p firstSymbol sym0v sym1v) mem

/-- mm0, mm1, pp0 and pp1 are at 0, 64, 128 and 192. -/
def viterbiButterfly2Generic (inMemory : Buffer UInt8) : Option (Buffer UInt8) := do
  let inMemory ← symbolGroup ⟨0, 128, 64, 192⟩ 0 inMemory
  symbolGroup ⟨64, 192, 0, 128⟩ 2 inMemory

/-- contig_copy_to, the ioctl and contig_copy_from with the sizes of decode. -/
def viterbiButterfly2Hw (access : Buffer UInt8 → Option (Buffer UInt8))
    (mem inMemory : Buffer UInt8) : Option (Buffer UInt8 × Buffer UInt8) := do
  let mem ← (List.range (6 * 64)).foldlM (fun mem i => do mem.store i (← inMemory.load i)) mem
  let mem ← access mem
  let inMemory ← (List.range (4 * 64)).foldlM (fun inMemory i => do
    inMemory.store i (← mem.load i)) inMemory
  some (mem, inMemory)

end Butterfly

section Output

def row (ppresult : Buffer UInt8) (pos state : Nat) : Option UInt8 :=
  if state < 64 then ppresult.load (64 * pos + state) else none

def findBest (mmresult : Buffer UInt8) : Option (UInt8 × Nat × UInt8) := do
  let first ← mmresult.load 0
  (List.range' 1 63).foldlM (fun (bestmetric, beststate, minmetric) i => do
    let m ← mmresult.load i
    let (bestmetric, beststate) := if bestmetric < m then (m, i) else (bestmetric, beststate)
    some (bestmetric, beststate, if m < minmetric then m else minmetric)) (first, 0, first)

def traceBack (ppresult : Buffer UInt8) (ntraceback storePos beststate : Nat) :
    Option (Nat × Nat) :=
  (List.range (ntraceback - 1)).foldlM (fun (pos, beststate) _ => do
    let path ← row ppresult pos beststate
    some ((pos + ntraceback - 1) % ntraceback, (path >>> 2).toNat)) (storePos, beststate)

/-- The byte is `*outbuf`. -/
def viterbiGetOutputGeneric (ntraceback : Nat) (d : Decoder) : Option (Decoder × UInt8) := do
  let storePos := (d.storePos + 1) % ntraceback
  let (mmresult, ppresult) ← (List.range 4).foldlM (fun s i =>
    (List.range 16).foldlM (fun (mmresult, ppresult) j => do
      let mmresult ← mmresult.store (i * 16 + j) (← d.metric0.load (i * 16 + j))
      let ppresult ← ppresult.store (64 * storePos + (i * 16 + j)) (← d.path0.load (i * 16 + j))
      some (mmresult, ppresult)) s) (d.mmresult, d.ppresult)
  let (_, beststate, minmetric) ← findBest mmresult
  let (pos, beststate) ← traceBack ppresult ntraceback storePos beststate
  let outbuf ← row ppresult pos beststate
  let (path0, metric0) ← (List.range 4).foldlM (fun s i =>
    (List.range 16).foldlM (fun (path0, metric0) j => do
      let path0 ← path0.store (i * 16 + j) 0
      let metric0 ← metric0.store (i * 16 + j) ((← metric0.load (i * 16 + j)) - minmetric)
      some (path0, metric0)) s) (d.path0, d.metric0)
  some ({ d with
    storePos := storePos, mmresult := mmresult, ppresult := ppresult
    path0 := path0, metric0 := metric0 }, outbuf)

end Output

section Decode

def copyIn (src : Nat → Option UInt8) (n imi : Nat) (inMemory : Buffer UInt8) :
    Option (Buffer UInt8) :=
  (List.range n).foldlM (fun inMemory ti => do inMemory.store (imi + ti) (← src ti)) inMemory

def copyOut (inMemory : Buffer UInt8) (imi : Nat) (dst : Buffer UInt8) : Option (Buffer UInt8) :=
  (List.range 64).foldlM (fun dst ti => do dst.store ti (← inMemory.load (imi + ti))) dst

def pack (d : Decoder) (symbols : Nat → Option UInt8) : Option (Buffer UInt8) := do
  let inMemory ← copyIn d.metric0.load 64 0 (zeros (6 * 64))
  let inMemory ← copyIn d.metric1.load 64 64 inMemory
  let inMemory ← copyIn d.path0.load 64 128 inMemory
  let inMemory ← copyIn d.path1.load 64 192 inMemory
  let inMemory ← (List.range 2).foldlM (fun inMemory ti =>
    copyIn (fun tj => d.branchtab27.load (32 * ti + tj)) 32 (256 + 32 * ti) inMemory) inMemory
  copyIn symbols 64 320 inMemory

def unpack (inMemory : Buffer UInt8) (d : Decoder) : Option Decoder := do
  let metric0 ← copyOut inMemory 0 d.metric0
  let metric1 ← copyOut inMemory 64 d.metric1
  let path0 ← copyOut inMemory 128 d.path0
  let path1 ← copyOut inMemory 192 d.path1
  some { d with metric0 := metric0, metric1 := metric1, path0 := path0, path1 := path1 }

/-- The comparison of DO_RUN_TIME_CHECKING; `none` is the exit at a difference. -/
def runTimeCheck (verif : Option (Nat → Nat → Nat → UInt8)) (calls : Nat) (d : Decoder) :
    Option Unit :=
  match verif with
  | none => some ()
  | some data =>
    let same (t : Nat) (a : Buffer UInt8) : Bool :=
      (List.range 64).all fun i => data calls t i == a.cell i
    if same 0 d.metric0 && same 1 d.metric1 && same 2 d.path0 && same 3 d.path1 then some ()
    else none

/-- The local variables of decode; `mem` is the buffer that the accelerator works on. -/
structure Loop where
  decoder : Decoder
  mem : Buffer UInt8
  inCount : Nat
  outCount : Nat
  nDecoded : Nat
  calls : Nat

/-- A byte that is put out before the traceback is filled is dropped. -/
def storeByte (s : Loop) (c : UInt8) : Option Loop := do
  let ntraceback := s.decoder.ntraceback
  if ntraceback ≤ s.outCount then
    let (decoded, nDecoded) ← (List.range 8).foldlM (fun (decoded, nDecoded) i => do
      let decoded ← decoded.store ((s.outCount - ntraceback) * 8 + i)
        ((c >>> UInt8.ofNat (7 - i)) &&& 0x1)
      some (decoded, nDecoded + 1)) (s.decoder.decoded, s.nDecoded)
    some { s with
      decoder := { s.decoder with decoded := decoded }, nDecoded := nDecoded
      outCount := s.outCount + 1 }
  else some { s with outCount := s.outCount + 1 }

variable (butterfly2 : Buffer UInt8 → Buffer UInt8 → Option (Buffer UInt8 × Buffer UInt8))
  (verif : Option (Nat → Nat → Nat → UInt8))

def decodeCall (depunctured : Buffer UInt8) (s : Loop) : Option Loop := do
  let inMemory ← pack s.decoder fun ti => depunctured.load ((s.inCount &&& 0xfffffffc) + ti)
  let (mem, inMemory) ← butterfly2 s.mem inMemory
  let decoder ← unpack inMemory s.decoder
  runTimeCheck verif s.calls decoder
  let s := { s with decoder := decoder, mem := mem, calls := s.calls + 1 }
  if 0 < s.inCount ∧ s.inCount % 16 = 8 then
    let (decoder, c) ← viterbiGetOutputGeneric s.decoder.ntraceback s.decoder
    storeByte { s with decoder := decoder } c
  else some s

def decodeRound (depunctured : Buffer UInt8) (s : Loop) : Option Loop := do
  let s ← if s.inCount % 4 = 0 then decodeCall butterfly2 verif depunctured s else some s
  some { s with inCount := s.inCount + 1 }

/-- The result is d_decoded in the variables of the file. -/
def decode (fuel : Nat) (mem : Buffer UInt8) (ofdm : OfdmParam) (frame : FrameParam)
    (bits : Buffer UInt8) (d : Decoder) : Option Decoder := do
  let d ← reset ofdm d
  let (d, depunctured) ← depuncture ofdm frame d bits
  let s ← whileLoop (fun s : Loop => some (decide (s.nDecoded < frame.nDataBits)))
    (decodeRound butterfly2 verif depunctured) fuel ⟨d, mem, 0, 0, 0, 0⟩
  some s.decoder

def butterfly2Soft (mem inMemory : Buffer UInt8) : Option (Buffer UInt8 × Buffer UInt8) := do
  some (mem, ← viterbiButterfly2Generic inMemory)

end Decode

end EspDrivers.Viterbi
