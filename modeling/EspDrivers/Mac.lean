import EspDrivers.ContigAlloc
import EspDrivers.Strides

/-! The mac accelerator, with the application and the bare-metal test that share a memory with
it. Memory is counted in elements: a token_t of the programs is a word_t of the accelerator. -/
namespace EspDrivers.Mac
open Buffers Strides
open ContigAlloc (uint toInt)

section Model
variable {W : Type}

/-- What the programs are compiled with: DMA_SIZE and DATA_BITWIDTH in bits, sizeof in bytes. -/
structure Build where
  dmaSize : Nat
  dataBitwidth : Nat
  sizeInChunkData : Nat
  sizeOutChunkData : Nat
  sizeofPointer : Nat
  sizeofToken : Nat

/-- The counts are of type int32_t in the programs and unsigned in the accelerator. -/
structure Params where
  macN : Nat
  macVec : Nat
  macLen : Nat
  macN_lt : macN < 2 ^ 31
  macVec_lt : macVec < 2 ^ 31
  macLen_lt : macLen < 2 ^ 31

def roundUp (x y : Nat) : Nat :=
  (((BitVec.ofNat 32 x - 1) ||| (BitVec.ofNat 32 y - 1)) + 1).toNat

def Build.valuesPerWord (c : Build) : Nat := c.dmaSize / c.dataBitwidth

def Build.sizeWordT (c : Build) : Nat :=
  if c.dataBitwidth = 8 then 0
  else if c.dataBitwidth = 16 then 1
  else if c.dataBitwidth = 32 then 2
  else 3

structure DmaInfo where
  index : Nat
  length : Nat
  size : Nat

def loadLength (c : Build) (p : Params) : Nat :=
  roundUp (uint (p.macLen * p.macVec)) c.valuesPerWord / 1
def loadIndex (c : Build) (p : Params) (chunk batch : Nat) : Nat :=
  uint (loadLength c p * uint (batch * 1 + chunk))

def loadCtrl (c : Build) (p : Params) (chunk batch : Nat) : DmaInfo :=
  ⟨loadIndex c p chunk batch / c.valuesPerWord, loadLength c p / c.valuesPerWord, c.sizeWordT⟩

def load (c : Build) (p : Params) (inbuff in1 : Buffer W) (chunk batch : Nat) :
    Option (Buffer W × DmaInfo) := do
  let ctrl := loadCtrl c p chunk batch
  let inbuff ← (List.range ctrl.length).foldlM (fun b i =>
    (List.range c.valuesPerWord).foldlM (fun b j => do
      b.store (uint (i * c.valuesPerWord + j))
        (← in1.load (uint (ctrl.index + i) * c.valuesPerWord + j))) b) inbuff
  some (inbuff, ctrl)

def storeLength (c : Build) (p : Params) : Nat := roundUp p.macVec c.valuesPerWord / 1
def storeOffset (c : Build) (p : Params) : Nat :=
  uint (roundUp (uint (p.macLen * p.macVec)) c.valuesPerWord * p.macN)
def storeIndex (c : Build) (p : Params) (chunk batch : Nat) : Nat :=
  uint (storeOffset c p + uint (storeLength c p * uint (batch * 1 + chunk)))

def storeCtrl (c : Build) (p : Params) (chunk batch : Nat) : DmaInfo :=
  ⟨storeIndex c p chunk batch / c.valuesPerWord, storeLength c p / c.valuesPerWord, c.sizeWordT⟩

def store (c : Build) (p : Params) (outbuff out : Buffer W) (chunk batch : Nat) :
    Option (Buffer W × DmaInfo) := do
  let ctrl := storeCtrl c p chunk batch
  let out ← (List.range ctrl.length).foldlM (fun b i =>
    (List.range c.valuesPerWord).foldlM (fun b j => do
      b.store (uint (ctrl.index + i) * c.valuesPerWord + j)
        (← outbuff.load (uint (i * c.valuesPerWord + j)))) b) out
  some (out, ctrl)

structure Layout where
  inWordsAdj : Nat
  outWordsAdj : Nat
  inLen : Nat
  outLen : Nat
  inSize : Nat
  outSize : Nat
  outOffset : Nat
  size : Nat

def dmaWordPerBeat (c : Build) (st : Nat) : Nat := uint (c.sizeofPointer / st)

def intMul (x y : Nat) : Option Nat := if x * y < 2 ^ 31 then some (x * y) else none

def parameters (c : Build) (p : Params) : Option Layout := do
  let words ← intMul p.macLen p.macVec
  let beat := dmaWordPerBeat c c.sizeofToken
  let inWordsAdj := if beat = 0 then words else roundUp words beat
  let outWordsAdj := if beat = 0 then p.macVec else roundUp p.macVec beat
  let inLen := uint (inWordsAdj * p.macN)
  let outLen := uint (outWordsAdj * p.macN)
  let inSize := uint (inLen * c.sizeofToken)
  let outSize := uint (outLen * c.sizeofToken)
  let outOffset := inLen
  let size := uint (outOffset * c.sizeofToken + outSize)
  some ⟨inWordsAdj, outWordsAdj, inLen, outLen, inSize, outSize, outOffset, size⟩

def Layout.inputIndex (l : Layout) (i j : Nat) : Nat := uint (uint (i * l.inWordsAdj) + j)
def Layout.outputIndex (l : Layout) (i j : Nat) : Nat := uint (uint (i * l.outWordsAdj) + j)

/-- The two loop nests that set the input and the expected output. -/
def fill (p : Params) (l : Layout) (token : Nat → W) (buf gold : Buffer W) :
    Option (Buffer W × Buffer W) := do
  let words ← intMul p.macLen p.macVec
  let buf ← (List.range p.macN).foldlM (fun b i =>
    (List.range words).foldlM (fun b j => b.store (l.inputIndex i j) (token j)) b) buf
  let gold ← (List.range p.macN).foldlM (fun b i =>
    (List.range p.macVec).foldlM (fun b j => b.store (l.outputIndex i j) (token j)) b) gold
  some (buf, gold)

/-- The output begins at `base` in `buf`. -/
def compare [DecidableEq W] (p : Params) (l : Layout) (buf : Buffer W) (base : Nat)
    (gold : Buffer W) : Option Int := do
  let errors ← (List.range p.macN).foldlM (fun errors i =>
    (List.range p.macVec).foldlM (fun errors j => do
      if (← gold.load (l.outputIndex i j)) ≠ (← buf.load (base + l.outputIndex i j)) then
        some (uint (errors + 1))
      else some errors) errors) 0
  some (toInt errors)

def App.initParameters (c : Build) (p : Params) : Option Layout := parameters c p
def App.initBuffer (p : Params) (l : Layout) (token : Nat → W) (buf gold : Buffer W) :
    Option (Buffer W × Buffer W) := fill p l token buf gold
def App.validateBuffer [DecidableEq W] (p : Params) (l : Layout) (buf gold : Buffer W) :
    Option Int := compare p l buf l.outOffset gold

def Barec.mainParameters (c : Build) (p : Params) : Option Layout := parameters c p
def Barec.initBuf (p : Params) (l : Layout) (token : Nat → W) (buf gold : Buffer W) :
    Option (Buffer W × Buffer W) := fill p l token buf gold
def Barec.validateBuf [DecidableEq W] (p : Params) (l : Layout) (buf gold : Buffer W) :
    Option Int := compare p l buf l.outOffset gold

end Model

section Words
variable {x v : Nat}

theorem roundUp_eq (hx : x < 2 ^ 32) (hv : v < 32) : roundUp x (2 ^ v) = uint (up (2 ^ v) x) := by
  have hmask : (BitVec.ofNat 32 (2 ^ v)).toNat = 2 ^ v := by
    rw [BitVec.toNat_ofNat, Nat.mod_eq_of_lt (Nat.pow_lt_pow_right Nat.one_lt_two hv)]
  rw [roundUp, toNat_roundWord _ _ hmask, BitVec.toNat_ofNat, Nat.mod_eq_of_lt hx]
  rfl

theorem uint_of_lt (h : x < 2 ^ 32) : uint x = x := Nat.mod_eq_of_lt h

end Words

section Transfers
variable {W : Type} {c : Build} {p : Params} {chunk batch : Nat}

theorem dma_place {index length m i j : Nat} (hm : m ∣ index) (hend : index + length ≤ 2 ^ 32)
    (hi : i < length / m) (hj : j < m) :
    uint (index / m + i) * m + j = index + (m * i + j) := by
  obtain ⟨q, rfl⟩ := hm
  have hpos : 0 < m := Nat.zero_lt_of_lt hj
  have hlt : q + i < 2 ^ 32 := by
    have hle : m * (q + i) < 2 ^ 32 := by
      have hrow : m * (i + 1) ≤ length :=
        (Nat.mul_le_mul_left m hi).trans (Nat.mul_div_le length m)
      rw [Nat.mul_succ] at hrow
      rw [Nat.mul_add]
      omega
    exact Nat.lt_of_le_of_lt (Nat.le_mul_of_pos_left _ hpos) hle
  rw [Nat.mul_div_cancel_left q hpos, uint_of_lt hlt, Nat.add_mul, Nat.mul_comm q m,
    Nat.mul_comm i m, Nat.add_assoc]

theorem local_place {length m i j : Nat} (hend : length ≤ 2 ^ 32) (hi : i < length / m)
    (hj : j < m) : uint (i * m + j) = 0 + (m * i + j) := by
  have hlt := place_lt hi hj
  have hle := Nat.mul_div_le length m
  rw [Nat.mul_comm i m, Nat.zero_add, uint_of_lt (by omega)]

theorem load_copies {inbuff in1 : Buffer W} (hlen : c.valuesPerWord ∣ loadLength c p)
    (hindex : c.valuesPerWord ∣ loadIndex c p chunk batch)
    (hend : loadIndex c p chunk batch + loadLength c p ≤ 2 ^ 32)
    (hin : loadLength c p ≤ inbuff.size)
    (hmem : loadIndex c p chunk batch + loadLength c p ≤ in1.size) :
    ∃ b, load c p inbuff in1 chunk batch = some (b, loadCtrl c p chunk batch) ∧
      Copied in1 (loadIndex c p chunk batch) 0 (loadLength c p) inbuff b := by
  have hwhole := Nat.mul_div_cancel' hlen
  obtain ⟨b, hb, hc⟩ := foldlM_copies (n := loadLength c p / c.valuesPerWord)
    (m := c.valuesPerWord) (s := in1) (b := inbuff)
    (fun i hi j hj => local_place (by omega) hi hj) (fun i hi j hj => dma_place hindex hend hi hj)
    (by rwa [hwhole]) (by rwa [hwhole, Nat.zero_add])
  refine ⟨b, ?_, hwhole ▸ hc⟩
  rw [load, loadCtrl, hb]
  rfl

theorem store_copies {outbuff out : Buffer W} (hlen : c.valuesPerWord ∣ storeLength c p)
    (hindex : c.valuesPerWord ∣ storeIndex c p chunk batch)
    (hend : storeIndex c p chunk batch + storeLength c p ≤ 2 ^ 32)
    (hout : storeLength c p ≤ outbuff.size)
    (hmem : storeIndex c p chunk batch + storeLength c p ≤ out.size) :
    ∃ b, store c p outbuff out chunk batch = some (b, storeCtrl c p chunk batch) ∧
      Copied outbuff 0 (storeIndex c p chunk batch) (storeLength c p) out b := by
  have hwhole := Nat.mul_div_cancel' hlen
  obtain ⟨b, hb, hc⟩ := foldlM_copies (n := storeLength c p / c.valuesPerWord)
    (m := c.valuesPerWord) (s := outbuff) (b := out)
    (fun i hi j hj => dma_place hindex hend hi hj) (fun i hi j hj => local_place (by omega) hi hj)
    (by rwa [hwhole, Nat.zero_add]) (by rwa [hwhole])
  refine ⟨b, ?_, hwhole ▸ hc⟩
  rw [store, storeCtrl, hb]
  rfl

theorem local_place_self {length m k : Nat} (hm : m ∣ length) (hend : length ≤ 2 ^ 32)
    (hk : k < length) : k / m < length / m ∧ k % m < m ∧ uint (k / m * m + k % m) = k := by
  have hdiv := Nat.div_lt_div_of_lt_of_dvd hm hk
  have hmod := Nat.mod_lt k (Nat.pos_of_dvd_of_pos hm (Nat.zero_lt_of_lt hk))
  refine ⟨hdiv, hmod, ?_⟩
  rw [local_place hend hdiv hmod, Nat.zero_add, Nat.div_add_mod]

theorem load_inside {inbuff in1 : Buffer W} {r : Buffer W × DmaInfo}
    (hlen : c.valuesPerWord ∣ loadLength c p) (hend : loadLength c p ≤ 2 ^ 32)
    (h : load c p inbuff in1 chunk batch = some r) : loadLength c p ≤ inbuff.size := by
  obtain ⟨b, hb, -⟩ := Option.bind_eq_some_iff.mp h
  refine Nat.le_of_not_lt ?_
  intro hlt
  obtain ⟨hrow, hcol, hplace⟩ := local_place_self hlen hend hlt
  have hin := (foldlM_copies_inside hb hrow hcol).1
  rw [hplace] at hin
  exact Nat.lt_irrefl _ hin

theorem store_inside {outbuff out : Buffer W} {r : Buffer W × DmaInfo}
    (hlen : c.valuesPerWord ∣ storeLength c p) (hend : storeLength c p ≤ 2 ^ 32)
    (h : store c p outbuff out chunk batch = some r) : storeLength c p ≤ outbuff.size := by
  obtain ⟨b, hb, -⟩ := Option.bind_eq_some_iff.mp h
  refine Nat.le_of_not_lt ?_
  intro hlt
  obtain ⟨hrow, hcol, hplace⟩ := local_place_self hlen hend hlt
  have hin := (foldlM_copies_inside hb hrow hcol).2
  rw [hplace] at hin
  exact Nat.lt_irrefl _ hin

end Transfers

section Programs
variable {W : Type} {p : Params} {l : Layout}

theorem intMul_eq {x y : Nat} (h : x * y < 2 ^ 31) : intMul x y = some (x * y) := if_pos h

theorem fill_rows {token : Nat → W} {buf gold : Buffer W}
    (hprod : p.macLen * p.macVec < 2 ^ 31)
    (hin : p.macLen * p.macVec ≤ l.inWordsAdj) (hout : p.macVec ≤ l.outWordsAdj)
    (hinput : ∀ i < p.macN, ∀ j < p.macLen * p.macVec,
      l.inputIndex i j = 0 + (l.inWordsAdj * i + j))
    (houtput : ∀ i < p.macN, ∀ j < p.macVec, l.outputIndex i j = 0 + (l.outWordsAdj * i + j))
    (hbuf : l.inWordsAdj * p.macN ≤ buf.size) (hgold : l.outWordsAdj * p.macN ≤ gold.size) :
    ∃ b g, fill p l token buf gold = some (b, g) ∧
      RowsWritten 0 l.inWordsAdj p.macN (p.macLen * p.macVec) (fun _ j => token j) buf b ∧
      RowsWritten 0 l.outWordsAdj p.macN p.macVec (fun _ j => token j) gold g := by
  obtain ⟨b, hb, hbrows⟩ := foldlM_rows hin hinput
    (fun i hi j hj => by
      have hlt := place_lt hi (Nat.lt_of_lt_of_le hj hin)
      show 0 + (l.inWordsAdj * i + j) < buf.size
      omega)
    (fun i _ j _ => (rfl : some (token j) = some (token j)))
  obtain ⟨g, hg, hgrows⟩ := foldlM_rows hout houtput
    (fun i hi j hj => by
      have hlt := place_lt hi (Nat.lt_of_lt_of_le hj hout)
      show 0 + (l.outWordsAdj * i + j) < gold.size
      omega)
    (fun i _ j _ => (rfl : some (token j) = some (token j)))
  refine ⟨b, g, ?_, hbrows, hgrows⟩
  simp only [Option.bind_eq_bind, Option.bind_some] at hb hg
  simp [fill, intMul_eq hprod, hb, hg]

theorem foldlM_errors {ι : Type} {differ : ι → Bool} {body : Nat → ι → Option Nat} {js : List ι}
    (hbody : ∀ j ∈ js, ∀ e, body e j = some (if differ j then uint (e + 1) else e)) (e : Nat) :
    js.foldlM body (uint e) = some (uint (e + js.countP differ)) := by
  induction js generalizing e with
  | nil => rfl
  | cons j js ih =>
    have hrest := ih fun i hi => hbody i (List.mem_cons_of_mem j hi)
    rw [List.foldlM_cons, hbody j List.mem_cons_self, List.countP_cons]
    cases differ j with
    | false => exact hrest e
    | true =>
      have hwrap : uint (uint e + 1) = uint (e + 1) := Nat.mod_add_mod e _ 1
      have hsum : e + (js.countP differ + 1) = e + 1 + js.countP differ := by omega
      simpa [hwrap, hsum] using hrest (e + 1)

theorem compare_eq [DecidableEq W] {buf gold : Buffer W} {base : Nat}
    (hgold : ∀ i < p.macN, ∀ j < p.macVec, l.outputIndex i j < gold.size)
    (hbuf : ∀ i < p.macN, ∀ j < p.macVec, base + l.outputIndex i j < buf.size) :
    compare p l buf base gold =
      some (toInt (uint ((List.range p.macN ×ˢ List.range p.macVec).countP fun q =>
        gold.cell (l.outputIndex q.1 q.2) ≠ buf.cell (base + l.outputIndex q.1 q.2)))) := by
  have hbody : ∀ q ∈ List.range p.macN ×ˢ List.range p.macVec, ∀ errors : Nat,
      (do
        if (← gold.load (l.outputIndex q.1 q.2)) ≠ (← buf.load (base + l.outputIndex q.1 q.2)) then
          some (uint (errors + 1))
        else some errors) =
      some (if decide (gold.cell (l.outputIndex q.1 q.2) ≠
        buf.cell (base + l.outputIndex q.1 q.2)) then uint (errors + 1) else errors) := by
    intro q hq errors
    obtain ⟨hi, hj⟩ : q.1 < p.macN ∧ q.2 < p.macVec := by simpa using List.mem_product.mp hq
    rw [Buffer.load_eq (hgold _ hi _ hj), Buffer.load_eq (hbuf _ hi _ hj)]
    simp only [Option.bind_eq_bind, Option.bind_some, decide_eq_true_eq]
    split <;> rfl
  have hcount := foldlM_errors hbody 0
  have hzero : uint 0 = 0 := rfl
  rw [hzero, Nat.zero_add] at hcount
  rw [compare, foldlM_nest (fun (errors : Nat) i j => do
    if (← gold.load (l.outputIndex i j)) ≠ (← buf.load (base + l.outputIndex i j)) then
      some (uint (errors + 1))
    else some errors), hcount]
  rfl

end Programs

end EspDrivers.Mac
