import EspDrivers.Checked
import EspDrivers.MacLayout

/-! The local buffers of the mac accelerator: load fills the one with an input batch, compute
fills the other, and store writes an output batch from it. -/
namespace EspDrivers.Mac
open Buffers Strides Checked
open ContigAlloc (uint)

section Accelerator
variable {W : Type} (c : Build)

structure Conf where
  macN : BitVec 32
  macVec : BitVec 32
  macLen : BitVec 32

variable (p : Conf)

def Conf.inLength : Nat := roundUp (p.macLen * p.macVec).toNat c.valuesPerWord / 1

def Conf.outLength : Nat := roundUp p.macVec.toNat c.valuesPerWord / 1

def Conf.inIndex (chunk batch : Nat) : Nat := uint (p.inLength c * uint (batch * 1 + chunk))

def Conf.outIndex (chunk batch : Nat) : Nat :=
  let storeOffset := uint (roundUp (p.macLen * p.macVec).toNat c.valuesPerWord * p.macN.toNat)
  uint (storeOffset + uint (p.outLength c * uint (batch * 1 + chunk)))

def Conf.loadCtrl (chunk batch : Nat) : DmaInfo :=
  ⟨p.inIndex c chunk batch / c.valuesPerWord, p.inLength c / c.valuesPerWord, c.sizeWordT⟩

def Conf.storeCtrl (chunk batch : Nat) : DmaInfo :=
  ⟨p.outIndex c chunk batch / c.valuesPerWord, p.outLength c / c.valuesPerWord, c.sizeWordT⟩

def loadWords (ctrl : DmaInfo) (inbuff in1 : Buffer W) : Option (Buffer W) :=
  (List.range ctrl.length).foldlM (fun b i =>
    (List.range c.valuesPerWord).foldlM (fun b j => do
      b.store (uint (i * c.valuesPerWord + j))
        (← in1.load (uint (ctrl.index + i) * c.valuesPerWord + j))) b) inbuff

def storeWords (ctrl : DmaInfo) (outbuff out : Buffer W) : Option (Buffer W) :=
  (List.range ctrl.length).foldlM (fun b i =>
    (List.range c.valuesPerWord).foldlM (fun b j => do
      b.store (uint (ctrl.index + i) * c.valuesPerWord + j)
        (← outbuff.load (uint (i * c.valuesPerWord + j)))) b) out

/-- `_outbuff[i] = _inbuff[i]`, where `i` is an int, which 2 ^ 31 rounds make negative. -/
def copyOne (inbuff outbuff : Buffer W) (i : Nat) : Option (Buffer W) := do
  let k := (← int i).toNat
  outbuff.store k (← inbuff.load k)

def compute (inbuff outbuff : Buffer W) : Option (Buffer W) :=
  (List.range (p.inLength c)).foldlM (copyOne inbuff) outbuff

/-- The memory, and the requests in the order in which load and store make them. -/
structure Dma (W : Type) where
  out : Buffer W
  loadCtrl : List DmaInfo
  storeCtrl : List DmaInfo

/-- The local buffers begin with any content. -/
def iteration (inCells outCells : Nat → W) (in1 : Buffer W) (s : Dma W) (chunk batch : Nat) :
    Option (Dma W) := do
  let inbuff ← loadWords c (p.loadCtrl c chunk batch) ⟨c.sizeInChunkData, inCells⟩ in1
  let outbuff ← compute c p inbuff ⟨c.sizeOutChunkData, outCells⟩
  let out ← storeWords c (p.storeCtrl c chunk batch) outbuff s.out
  return ⟨out, s.loadCtrl ++ [p.loadCtrl c chunk batch], s.storeCtrl ++ [p.storeCtrl c chunk batch]⟩

def chunks (inCells outCells : Nat → Nat → W) (in1 : Buffer W) (s : Dma W) (b : Nat) :
    Option (Dma W) :=
  (List.range 1).foldlM (fun s chunk => iteration c p (inCells b) (outCells b) in1 s chunk b) s

def top (inCells outCells : Nat → Nat → W) (out in1 : Buffer W) : Option (Dma W) :=
  (List.range p.macN.toNat).foldlM (chunks c p inCells outCells in1) ⟨out, [], []⟩

end Accelerator

section Registers
variable {W : Type} {c : Build} {p : Params} {chunk batch : Nat}

end Registers

section Bounds
variable {W : Type} {c : Build} {p : Conf} {inbuff outbuff in1 out : Buffer W}

theorem roundUp_lt (x y : Nat) : roundUp x y < 2 ^ 32 := BitVec.isLt _

theorem inLength_lt : p.inLength c < 2 ^ 32 := by
  rw [Conf.inLength, Nat.div_one]
  exact roundUp_lt _ _

theorem outLength_lt : p.outLength c < 2 ^ 32 := by
  rw [Conf.outLength, Nat.div_one]
  exact roundUp_lt _ _

theorem local_lt {length size i j : Nat} (hlen : length < 2 ^ 32) (hsize : length ≤ size)
    (hi : i < length / c.valuesPerWord) (hj : j < c.valuesPerWord) :
    uint (i * c.valuesPerWord + j) < size := by
  have hlt := place_lt hi hj
  have hle := Nat.mul_div_le length c.valuesPerWord
  rw [local_place hlen.le hi hj]
  omega

theorem dma_lt {i j size : Nat} (hsize : 2 ^ 32 * c.valuesPerWord ≤ size)
    (hj : j < c.valuesPerWord) : uint i * c.valuesPerWord + j < size := by
  have hlt : uint i < 2 ^ 32 := Nat.mod_lt _ (by decide)
  have hplace := place_lt hlt hj
  rw [Nat.mul_comm (uint i)]
  rw [Nat.mul_comm (2 ^ 32)] at hsize
  omega

theorem loadWords_ends {ctrl : DmaInfo} {length : Nat} (hctrl : ctrl.length = length / c.valuesPerWord)
    (hlen : length < 2 ^ 32) (hin : length ≤ inbuff.size)
    (hmem : 2 ^ 32 * c.valuesPerWord ≤ in1.size) :
    ∃ b, loadWords c ctrl inbuff in1 = some b ∧ b.size = inbuff.size := by
  rw [loadWords, foldlM_nest (fun b i j => do
    Buffer.store b (uint (i * c.valuesPerWord + j))
      (← in1.load (uint (ctrl.index + i) * c.valuesPerWord + j)))]
  refine foldlM_stores ?_
  intro q hq
  obtain ⟨hi, hj⟩ : q.1 < ctrl.length ∧ q.2 < c.valuesPerWord := by
    simpa using List.mem_product.mp hq
  exact ⟨local_lt hlen hin (hctrl ▸ hi) hj, _, Buffer.load_eq (dma_lt hmem hj)⟩

theorem storeWords_ends {ctrl : DmaInfo} {length : Nat} (hctrl : ctrl.length = length / c.valuesPerWord)
    (hlen : length < 2 ^ 32) (hout : length ≤ outbuff.size)
    (hmem : 2 ^ 32 * c.valuesPerWord ≤ out.size) :
    ∃ b, storeWords c ctrl outbuff out = some b ∧ b.size = out.size := by
  rw [storeWords, foldlM_nest (fun b i j => do
    Buffer.store b (uint (ctrl.index + i) * c.valuesPerWord + j)
      (← outbuff.load (uint (i * c.valuesPerWord + j))))]
  refine foldlM_stores ?_
  intro q hq
  obtain ⟨hi, hj⟩ : q.1 < ctrl.length ∧ q.2 < c.valuesPerWord := by
    simpa using List.mem_product.mp hq
  exact ⟨dma_lt hmem hj, _, Buffer.load_eq (local_lt hlen hout (hctrl ▸ hi) hj)⟩

/-- The output buffer has a place for what compute writes, and no index is negative. -/
def Conf.Holds (c : Build) (p : Conf) : Prop :=
  p.inLength c ≤ c.sizeOutChunkData ∧ p.inLength c ≤ 2 ^ 31

theorem compute_ends (h : p.Holds c) (hin : p.inLength c ≤ inbuff.size)
    (hout : outbuff.size = c.sizeOutChunkData) :
    ∃ b, compute c p inbuff outbuff = some b ∧ b.size = outbuff.size := by
  obtain ⟨hsize, hint⟩ := h
  refine foldlM_range_ends (p.inLength c) (fun _ (b : Buffer W) => b.size = outbuff.size) rfl ?_
  intro i hi b hb
  have hindex : int (i : Int) = some (i : Int) := int_eq (by omega) (by omega)
  refine ⟨⟨b.size, Function.update b.cell i (inbuff.cell i)⟩, ?_, hb⟩
  simp only [copyOne, hindex, Option.bind_eq_bind, Option.bind_some, Int.toNat_natCast,
    Buffer.load_eq (Nat.lt_of_lt_of_le hi hin)]
  exact Buffer.store_eq (by omega) (inbuff.cell i)

theorem copyOne_some {b : Buffer W} {i : Nat} (h : copyOne inbuff outbuff i = some b) :
    i < 2 ^ 31 ∧ i < outbuff.size ∧ b.size = outbuff.size := by
  simp only [copyOne, Option.bind_eq_bind, Option.bind_eq_some_iff] at h
  obtain ⟨k, hk, v, -, h⟩ := h
  obtain ⟨⟨-, hhigh⟩, rfl⟩ := int_some hk
  obtain ⟨hlt, rfl⟩ := Buffer.store_some h
  exact ⟨by omega, by simpa using hlt, rfl⟩

theorem compute_holds {b : Buffer W} (h : compute c p inbuff outbuff = some b)
    (hout : outbuff.size = c.sizeOutChunkData) : p.Holds c := by
  obtain ⟨-, hrounds⟩ := foldlM_rounds (I := fun b : Buffer W => b.size = outbuff.size)
    (fun u i t hu ht => (copyOne_some ht).2.2.trans hu) rfl h
  by_cases hzero : p.inLength c = 0
  · exact ⟨by omega, by omega⟩
  · obtain ⟨u, t, hu, ht⟩ := hrounds (p.inLength c - 1) (List.mem_range.mpr (by omega))
    obtain ⟨hint, hlt, -⟩ := copyOne_some ht
    exact ⟨by omega, by omega⟩

variable {inCells outCells : Nat → Nat → W}

theorem iteration_ends {s : Dma W} {chunk batch : Nat} {inOld outOld : Nat → W} (h : p.Holds c)
    (hin : p.inLength c ≤ c.sizeInChunkData) (hout : p.outLength c ≤ c.sizeOutChunkData)
    (hin1 : 2 ^ 32 * c.valuesPerWord ≤ in1.size) (hmem : 2 ^ 32 * c.valuesPerWord ≤ s.out.size) :
    ∃ t, iteration c p inOld outOld in1 s chunk batch = some t ∧ t.out.size = s.out.size := by
  obtain ⟨a, ha, hasize⟩ : ∃ a, loadWords c (p.loadCtrl c chunk batch) ⟨c.sizeInChunkData, inOld⟩ in1 =
      some a ∧ a.size = c.sizeInChunkData := loadWords_ends rfl inLength_lt hin hin1
  obtain ⟨b, hb, hbsize⟩ : ∃ b, compute c p a ⟨c.sizeOutChunkData, outOld⟩ = some b ∧
      b.size = c.sizeOutChunkData := compute_ends h (hasize ▸ hin) rfl
  obtain ⟨d, hd, hdsize⟩ : ∃ d, storeWords c (p.storeCtrl c chunk batch) b s.out = some d ∧
      d.size = s.out.size := storeWords_ends rfl outLength_lt (hbsize ▸ hout) hmem
  refine ⟨⟨d, s.loadCtrl ++ [p.loadCtrl c chunk batch], s.storeCtrl ++ [p.storeCtrl c chunk batch]⟩,
    ?_, hdsize⟩
  simp [iteration, ha, hb, hd]

theorem iteration_holds {s t : Dma W} {chunk batch : Nat} {inOld outOld : Nat → W}
    (h : iteration c p inOld outOld in1 s chunk batch = some t) : p.Holds c := by
  obtain ⟨a, -, h⟩ := Option.bind_eq_some_iff.mp h
  obtain ⟨b, hb, -⟩ := Option.bind_eq_some_iff.mp h
  exact compute_holds hb rfl

theorem chunks_eq (s : Dma W) (b : Nat) :
    chunks c p inCells outCells in1 s b = iteration c p (inCells b) (outCells b) in1 s 0 b := by
  simp [chunks, List.range_succ]

theorem top_holds {s : Dma W} (h : top c p inCells outCells out in1 = some s) :
    p.macN = 0 ∨ p.Holds c := by
  by_cases hzero : p.macN = 0
  · exact Or.inl hzero
  · have hpos : 0 < p.macN.toNat := Nat.pos_of_ne_zero fun h => hzero (BitVec.eq_of_toNat_eq h)
    obtain ⟨-, hrounds⟩ := foldlM_rounds (I := fun _ : Dma W => True) (fun _ _ _ _ _ => trivial)
      trivial h
    obtain ⟨u, t, -, ht⟩ := hrounds 0 (List.mem_range.mpr hpos)
    rw [chunks_eq] at ht
    exact Or.inr (iteration_holds ht)

/-- With batches that fit, every iteration stays inside the local buffers exactly when the output
buffer has a place for an input batch. -/
theorem top_stays_inside_iff (hin : p.inLength c ≤ c.sizeInChunkData)
    (hout : p.outLength c ≤ c.sizeOutChunkData) (hin1 : 2 ^ 32 * c.valuesPerWord ≤ in1.size)
    (hmem : 2 ^ 32 * c.valuesPerWord ≤ out.size) :
    (∃ s, top c p inCells outCells out in1 = some s) ↔ p.macN = 0 ∨ p.Holds c := by
  constructor
  · rintro ⟨s, hs⟩
    exact top_holds hs
  · rintro (hzero | hholds)
    · exact ⟨⟨out, [], []⟩, by simp [top, hzero]⟩
    · obtain ⟨s, hs, -⟩ : ∃ s, top c p inCells outCells out in1 = some s ∧
          s.out.size = out.size := by
        refine foldlM_range_ends p.macN.toNat (fun _ (s : Dma W) => s.out.size = out.size) rfl ?_
        intro b _ s hs
        obtain ⟨t, ht, htsize⟩ := iteration_ends (s := s) (c := c) hholds hin hout hin1 (hs ▸ hmem)
        exact ⟨t, (chunks_eq s b).trans ht, htsize.trans hs⟩
      exact ⟨s, hs⟩

def wholeMemory : Buffer (BitVec 32) := ⟨2 ^ 33, fun _ => 0⟩

theorem top_stays_inside_iff_one :
    (2 ≤ 6400 ∧ 2 ≤ 100) ∧
    ((∃ s, top words32 ⟨1, 2, 1⟩ (fun _ _ => 0) (fun _ _ => 0) wholeMemory wholeMemory = some s) ↔
      (1 : BitVec 32) = 0 ∨ Conf.Holds words32 ⟨1, 2, 1⟩) :=
  ⟨⟨by decide, by decide⟩, top_stays_inside_iff (c := words32) (p := ⟨1, 2, 1⟩)
    (by decide) (by decide) (by decide) (by decide)⟩

/-- With the sizes of the configuration and the parameters of the testbench, compute writes 6400
elements into a buffer of 100. -/
theorem testbench_batch_overruns :
    Conf.inLength words32 ⟨16, 100, 64⟩ = 6400 ∧ Conf.outLength words32 ⟨16, 100, 64⟩ = 100 ∧
    ¬ ∀ (c : Build) (p : Conf) (out in1 : Buffer (BitVec 32)), p.inLength c ≤ c.sizeInChunkData →
      p.outLength c ≤ c.sizeOutChunkData → 2 ^ 32 * c.valuesPerWord ≤ in1.size →
      2 ^ 32 * c.valuesPerWord ≤ out.size →
      ∃ s, top c p (fun _ _ => 0) (fun _ _ => 0) out in1 = some s := by
  refine ⟨by decide, by decide, ?_⟩
  intro h
  obtain ⟨s, hs⟩ := h words32 ⟨16, 100, 64⟩ wholeMemory wholeMemory (by decide) (by decide)
    (by decide) (by decide)
  rcases top_holds hs with hzero | hholds
  · exact absurd hzero (by decide)
  · exact absurd hholds.1 (by decide)

end Bounds

end EspDrivers.Mac
