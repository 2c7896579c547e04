import EspDrivers.Mac

/-! The accelerator and the two programs place the batches of mac at the same elements, as far
as 32 bits count them and the local buffers hold them. -/
namespace EspDrivers.Mac
open Buffers Strides
open ContigAlloc (uint toInt)

section Statement
variable {W : Type} [DecidableEq W]

def DmaInfo.elements (c : Build) (d : DmaInfo) : Set Nat :=
  Set.Ico (d.index * c.valuesPerWord) (d.index * c.valuesPerWord + d.length * c.valuesPerWord)

/-- A program with layout `l`, that fills and compares as given, agrees with the accelerator. -/
structure OneLayout (c : Build) (p : Params) (l : Layout)
    (initBuffer : (Nat → W) → Buffer W → Buffer W → Option (Buffer W × Buffer W))
    (validateBuffer : Buffer W → Buffer W → Option Int) : Prop where
  written : ∀ token buf gold, l.inLen + l.outLen ≤ buf.size → l.outLen ≤ gold.size →
    ∃ b g, initBuffer token buf gold = some (b, g) ∧ b.size = buf.size ∧
      ∀ i < p.macN, ∀ j < p.macLen * p.macVec,
        l.inputIndex i j = l.inWordsAdj * i + j ∧ b.cell (l.inWordsAdj * i + j) = token j
  loaded : ∀ inbuff mem : Buffer W, inbuff.size = c.sizeInChunkData →
    l.inLen + l.outLen ≤ mem.size → ∀ i < p.macN,
      ∃ b, load c p inbuff mem 0 i = some (b, loadCtrl c p 0 i) ∧
        ∀ j < p.macLen * p.macVec, b.cell j = mem.cell (l.inWordsAdj * i + j)
  stored : ∀ outbuff mem : Buffer W, outbuff.size = c.sizeOutChunkData →
    l.inLen + l.outLen ≤ mem.size → ∀ i < p.macN,
      ∃ m, store c p outbuff mem 0 i = some (m, storeCtrl c p 0 i) ∧ m.size = mem.size ∧
        (∀ j < p.macVec, m.cell (l.outOffset + (l.outWordsAdj * i + j)) = outbuff.cell j) ∧
        ∀ e, e ∉ row l.outOffset l.outWordsAdj i → m.cell e = mem.cell e
  compared : ∀ buf gold, l.inLen + l.outLen ≤ buf.size → l.outLen ≤ gold.size →
    validateBuffer buf gold =
      some (toInt (uint ((List.range p.macN ×ˢ List.range p.macVec).countP fun q =>
        gold.cell (l.outWordsAdj * q.1 + q.2) ≠
          buf.cell (l.outOffset + (l.outWordsAdj * q.1 + q.2)))))
  aligned : ∀ i < p.macN,
    c.valuesPerWord ∣ loadIndex c p 0 i ∧ c.valuesPerWord ∣ storeIndex c p 0 i
  requested : ∀ i < p.macN,
    (loadCtrl c p 0 i).elements c = row 0 l.inWordsAdj i ∧
      (storeCtrl c p 0 i).elements c = row l.outOffset l.outWordsAdj i
  inputTiles : Tiles p.macN (fun i => (loadCtrl c p 0 i).elements c) (Set.Ico 0 l.inLen)
  outputTiles : Tiles p.macN (fun i => (storeCtrl c p 0 i).elements c)
    (Set.Ico l.inLen (l.inLen + l.outLen))

def App.Agrees (W : Type) [DecidableEq W] (c : Build) (p : Params) : Prop :=
  ∃ l, App.initParameters c p = some l ∧
    OneLayout c p l (App.initBuffer (W := W) p l) (App.validateBuffer p l)

def Barec.Agrees (W : Type) [DecidableEq W] (c : Build) (p : Params) : Prop :=
  ∃ l, Barec.mainParameters c p = some l ∧
    OneLayout c p l (Barec.initBuf (W := W) p l) (Barec.validateBuf p l)

/-- The lengths of a batch in memory. -/
def paddedInput (c : Build) (p : Params) : Nat := up c.valuesPerWord (p.macLen * p.macVec)
def paddedOutput (c : Build) (p : Params) : Nat := up c.valuesPerWord p.macVec

structure Matched (c : Build) (v : Nat) : Prop where
  power : c.valuesPerWord = 2 ^ v
  beat : c.valuesPerWord = dmaWordPerBeat c c.sizeofToken

/-- The first product is of type int, the others are unsigned. -/
structure ProductsFit (c : Build) (p : Params) : Prop where
  words : p.macLen * p.macVec < 2 ^ 31
  input : paddedInput c p * p.macN < 2 ^ 32
  output : paddedOutput c p * p.macN < 2 ^ 32

structure ChunksFit (c : Build) (p : Params) : Prop where
  input : paddedInput c p ≤ c.sizeInChunkData
  output : paddedOutput c p ≤ c.sizeOutChunkData

/-- All elements have a number of 32 bits. -/
def TotalFits (c : Build) (p : Params) : Prop :=
  paddedInput c p * p.macN + paddedOutput c p * p.macN ≤ 2 ^ 32

end Statement

section Lengths
variable {c : Build} {p : Params} {v : Nat}

theorem Matched.lt (h : Matched c v) : v < 32 := by
  have hlt : 2 ^ v < 2 ^ 32 := by
    rw [← h.power, h.beat]
    exact Nat.mod_lt _ (Nat.two_pow_pos 32)
  exact (Nat.pow_lt_pow_iff_right Nat.one_lt_two).mp hlt

theorem Matched.pos (h : Matched c v) : 0 < c.valuesPerWord := h.power ▸ Nat.two_pow_pos v

theorem Matched.roundUp_eq {x : Nat} (h : Matched c v) (hx : x < 2 ^ 31) :
    roundUp x c.valuesPerWord = up c.valuesPerWord x := by
  have hdvd : c.valuesPerWord ∣ 2 ^ 31 := by
    rw [h.power]
    exact Nat.pow_dvd_pow 2 (Nat.le_of_lt_succ h.lt)
  have hle := up_le h.pos hdvd hx.le
  have hword := Mac.roundUp_eq (x := x) (by omega) h.lt
  rw [← h.power] at hword
  rw [hword, uint_of_lt (by omega)]

theorem loadLength_eq (h : Matched c v) (hp : ProductsFit c p) :
    loadLength c p = paddedInput c p := by
  have hwords := hp.words
  rw [loadLength, Nat.div_one, uint_of_lt (by omega), h.roundUp_eq hwords, paddedInput]

theorem storeLength_eq (h : Matched c v) : storeLength c p = paddedOutput c p := by
  rw [storeLength, Nat.div_one, h.roundUp_eq p.macVec_lt, paddedOutput]

theorem storeOffset_eq (h : Matched c v) (hp : ProductsFit c p) :
    storeOffset c p = paddedInput c p * p.macN := by
  have hwords : uint (p.macLen * p.macVec) = p.macLen * p.macVec :=
    uint_of_lt (Nat.lt_trans hp.words (by decide))
  rw [storeOffset, hwords, h.roundUp_eq hp.words]
  exact uint_of_lt hp.input

theorem batch_eq {i : Nat} (hi : i < p.macN) : uint (i * 1 + 0) = i := by
  have hlt := p.macN_lt
  rw [Nat.mul_one, Nat.add_zero, uint_of_lt (by omega)]

theorem loadIndex_eq {i : Nat} (h : Matched c v) (hp : ProductsFit c p) (hi : i < p.macN) :
    loadIndex c p 0 i = paddedInput c p * i := by
  have hle := Nat.mul_le_mul_left (paddedInput c p) hi.le
  have hfit := hp.input
  rw [loadIndex, batch_eq hi, loadLength_eq h hp, uint_of_lt (by omega)]

theorem storeIndex_wraps {i : Nat} (h : Matched c v) (hp : ProductsFit c p) (hi : i < p.macN) :
    storeIndex c p 0 i = uint (paddedInput c p * p.macN + paddedOutput c p * i) := by
  have hle := Nat.mul_le_mul_left (paddedOutput c p) hi.le
  have hfit := hp.output
  rw [storeIndex, batch_eq hi, storeLength_eq h, storeOffset_eq h hp,
    uint_of_lt (Nat.lt_of_le_of_lt hle hfit)]

theorem storeIndex_eq {i : Nat} (h : Matched c v) (hp : ProductsFit c p) (ht : TotalFits c p)
    (hi : i < p.macN) :
    storeIndex c p 0 i = paddedInput c p * p.macN + paddedOutput c p * i := by
  have hrow := Nat.mul_le_mul_left (paddedOutput c p) (Nat.succ_le_of_lt hi)
  have hin := hp.input
  rw [Nat.mul_succ] at hrow
  rw [storeIndex_wraps h hp hi]
  refine uint_of_lt ?_
  rw [TotalFits] at ht
  by_cases hzero : paddedOutput c p = 0
  · simpa [hzero] using hin
  · omega

end Lengths

section Programs
variable {W : Type} {c : Build} {p : Params} {l : Layout} {v i j : Nat}

structure Shaped (c : Build) (p : Params) (l : Layout) : Prop where
  inWordsAdj : l.inWordsAdj = paddedInput c p
  outWordsAdj : l.outWordsAdj = paddedOutput c p
  inLen : l.inLen = paddedInput c p * p.macN
  outLen : l.outLen = paddedOutput c p * p.macN
  outOffset : l.outOffset = paddedInput c p * p.macN

theorem parameters_shaped (h : Matched c v) (hp : ProductsFit c p) :
    ∃ l, parameters c p = some l ∧ Shaped c p l := by
  have hbeat : dmaWordPerBeat c c.sizeofToken ≠ 0 := by
    rw [← h.beat]
    exact Nat.ne_of_gt h.pos
  have hin : roundUp (p.macLen * p.macVec) (dmaWordPerBeat c c.sizeofToken) = paddedInput c p := by
    rw [← h.beat]
    exact h.roundUp_eq hp.words
  have hout : roundUp p.macVec (dmaWordPerBeat c c.sizeofToken) = paddedOutput c p := by
    rw [← h.beat]
    exact h.roundUp_eq p.macVec_lt
  have hinLen := uint_of_lt hp.input
  have houtLen := uint_of_lt hp.output
  have hsome : parameters c p = some
      { inWordsAdj := paddedInput c p
        outWordsAdj := paddedOutput c p
        inLen := paddedInput c p * p.macN
        outLen := paddedOutput c p * p.macN
        inSize := uint (paddedInput c p * p.macN * c.sizeofToken)
        outSize := uint (paddedOutput c p * p.macN * c.sizeofToken)
        outOffset := paddedInput c p * p.macN
        size := uint (paddedInput c p * p.macN * c.sizeofToken +
          uint (paddedOutput c p * p.macN * c.sizeofToken)) } := by
    simp only [parameters, intMul_eq hp.words, Option.bind_eq_bind, Option.bind_some, if_neg hbeat,
      hin, hout, hinLen, houtLen]
  exact ⟨_, hsome, ⟨rfl, rfl, rfl, rfl, rfl⟩⟩

theorem dvd_paddedInput : c.valuesPerWord ∣ paddedInput c p := dvd_up

theorem dvd_paddedOutput : c.valuesPerWord ∣ paddedOutput c p := dvd_up

theorem words_le (h : Matched c v) : p.macLen * p.macVec ≤ paddedInput c p := le_up h.pos

theorem macVec_le (h : Matched c v) : p.macVec ≤ paddedOutput c p := le_up h.pos

theorem Shaped.inputIndex_eq (hl : Shaped c p l) (h : Matched c v) (hp : ProductsFit c p)
    (hi : i < p.macN) (hj : j < p.macLen * p.macVec) :
    l.inputIndex i j = l.inWordsAdj * i + j := by
  have hlt := place_lt hi (Nat.lt_of_lt_of_le hj (words_le h))
  have hfit := hp.input
  rw [Layout.inputIndex, hl.inWordsAdj, Nat.mul_comm i, uint_of_lt (x := _ * i) (by omega),
    uint_of_lt (by omega)]

theorem Shaped.outputIndex_eq (hl : Shaped c p l) (h : Matched c v) (hp : ProductsFit c p)
    (hi : i < p.macN) (hj : j < p.macVec) : l.outputIndex i j = l.outWordsAdj * i + j := by
  have hlt := place_lt hi (Nat.lt_of_lt_of_le hj (macVec_le h))
  have hfit := hp.output
  rw [Layout.outputIndex, hl.outWordsAdj, Nat.mul_comm i, uint_of_lt (x := _ * i) (by omega),
    uint_of_lt (by omega)]

theorem Shaped.written (hl : Shaped c p l) (h : Matched c v)
    (hp : ProductsFit c p) (token : Nat → W) (buf gold : Buffer W)
    (hbuf : l.inLen + l.outLen ≤ buf.size) (hgold : l.outLen ≤ gold.size) :
    ∃ b g, fill p l token buf gold = some (b, g) ∧ b.size = buf.size ∧
      ∀ i < p.macN, ∀ j < p.macLen * p.macVec,
        l.inputIndex i j = l.inWordsAdj * i + j ∧ b.cell (l.inWordsAdj * i + j) = token j := by
  have hin : p.macLen * p.macVec ≤ l.inWordsAdj := hl.inWordsAdj ▸ words_le h
  have hout : p.macVec ≤ l.outWordsAdj := hl.outWordsAdj ▸ macVec_le h
  have hinput : l.inWordsAdj * p.macN ≤ buf.size := by
    rw [hl.inLen] at hbuf
    rw [hl.inWordsAdj]
    omega
  have houtput : l.outWordsAdj * p.macN ≤ gold.size := by
    rw [hl.outLen] at hgold
    rwa [hl.outWordsAdj]
  obtain ⟨b, g, hfill, hb, _⟩ := @fill_rows W p l token buf gold hp.words hin hout
    (fun i hi j hj => by rw [hl.inputIndex_eq h hp hi hj, Nat.zero_add])
    (fun i hi j hj => by rw [hl.outputIndex_eq h hp hi hj, Nat.zero_add]) hinput houtput
  refine ⟨b, g, hfill, hb.size, ?_⟩
  intro i hi j hj
  refine ⟨hl.inputIndex_eq h hp hi hj, ?_⟩
  have hcell := hb.written i hi j hj
  rwa [Nat.zero_add] at hcell

theorem Shaped.compared [DecidableEq W] (hl : Shaped c p l) (h : Matched c v)
    (hp : ProductsFit c p) (buf gold : Buffer W) (hbuf : l.inLen + l.outLen ≤ buf.size)
    (hgold : l.outLen ≤ gold.size) :
    compare p l buf l.outOffset gold =
      some (toInt (uint ((List.range p.macN ×ˢ List.range p.macVec).countP fun q =>
        gold.cell (l.outWordsAdj * q.1 + q.2) ≠
          buf.cell (l.outOffset + (l.outWordsAdj * q.1 + q.2))))) := by
  have hplace {i j : Nat} (hi : i < p.macN) (hj : j < p.macVec) :
      l.outputIndex i j < l.outLen := by
    have hlt := place_lt hi (Nat.lt_of_lt_of_le hj (macVec_le h))
    rw [hl.outputIndex_eq h hp hi hj, hl.outWordsAdj, hl.outLen]
    exact hlt
  have hoffset : l.outOffset = l.inLen := hl.outOffset.trans hl.inLen.symm
  rw [compare_eq (fun i hi j hj => Nat.lt_of_lt_of_le (hplace hi hj) hgold)
    (fun i hi j hj => by have hlt := hplace hi hj; omega)]
  congr 3
  refine List.countP_congr ?_
  intro q hq
  obtain ⟨hi, hj⟩ : q.1 < p.macN ∧ q.2 < p.macVec := by simpa using List.mem_product.mp hq
  rw [hl.outputIndex_eq h hp hi hj]

end Programs

section Accelerator
variable {W : Type} {c : Build} {p : Params} {l : Layout} {v i : Nat}

theorem aligned (h : Matched c v) (hp : ProductsFit c p) (ht : TotalFits c p) (hi : i < p.macN) :
    c.valuesPerWord ∣ loadIndex c p 0 i ∧ c.valuesPerWord ∣ storeIndex c p 0 i := by
  rw [loadIndex_eq h hp hi, storeIndex_eq h hp ht hi]
  exact ⟨dvd_paddedInput.mul_right i,
    Nat.dvd_add (dvd_paddedInput.mul_right p.macN) (dvd_paddedOutput.mul_right i)⟩

theorem elements_eq {index length size : Nat} (hindex : c.valuesPerWord ∣ index)
    (hlength : c.valuesPerWord ∣ length) :
    DmaInfo.elements c ⟨index / c.valuesPerWord, length / c.valuesPerWord, size⟩ =
      Set.Ico index (index + length) := by
  rw [DmaInfo.elements, Nat.div_mul_cancel hindex, Nat.div_mul_cancel hlength]

theorem load_elements (h : Matched c v) (hp : ProductsFit c p) (hi : i < p.macN) :
    (loadCtrl c p 0 i).elements c = row 0 (paddedInput c p) i := by
  rw [loadCtrl, loadIndex_eq h hp hi, loadLength_eq h hp, row, Nat.zero_add]
  exact elements_eq (dvd_paddedInput.mul_right i) dvd_paddedInput

theorem store_elements (h : Matched c v) (hp : ProductsFit c p) (ht : TotalFits c p)
    (hi : i < p.macN) :
    (storeCtrl c p 0 i).elements c = row (paddedInput c p * p.macN) (paddedOutput c p) i := by
  have hindex := (aligned h hp ht hi).2
  rw [storeIndex_eq h hp ht hi] at hindex
  rw [storeCtrl, storeIndex_eq h hp ht hi, storeLength_eq h]
  exact elements_eq hindex dvd_paddedOutput

theorem tiles_congr {n : Nat} {part part' : Nat → Set Nat} {whole : Set Nat}
    (h : Tiles n part whole) (heq : ∀ i < n, part' i = part i) : Tiles n part' whole := by
  constructor
  · intro e
    rw [h.covers e]
    constructor
    · rintro ⟨i, hi, he⟩
      exact ⟨i, hi, (heq i hi).symm ▸ he⟩
    · rintro ⟨i, hi, he⟩
      exact ⟨i, hi, heq i hi ▸ he⟩
  · intro i hi k hk e hei hek
    exact h.apart i hi k hk e (heq i hi ▸ hei) (heq k hk ▸ hek)

theorem Shaped.loaded (hl : Shaped c p l) (h : Matched c v) (hp : ProductsFit c p)
    (hc : ChunksFit c p) (inbuff mem : Buffer W) (hin : inbuff.size = c.sizeInChunkData)
    (hmem : l.inLen + l.outLen ≤ mem.size) (hi : i < p.macN) :
    ∃ b, load c p inbuff mem 0 i = some (b, loadCtrl c p 0 i) ∧
      ∀ j < p.macLen * p.macVec, b.cell j = mem.cell (l.inWordsAdj * i + j) := by
  have hrow := Nat.mul_le_mul_left (paddedInput c p) (Nat.succ_le_of_lt hi)
  have hfit := hp.input
  have hchunk := hc.input
  rw [Nat.mul_succ] at hrow
  rw [hl.inLen] at hmem
  have hlen : c.valuesPerWord ∣ loadLength c p := loadLength_eq h hp ▸ dvd_paddedInput
  have hindex : c.valuesPerWord ∣ loadIndex c p 0 i := by
    rw [loadIndex_eq h hp hi]
    exact dvd_paddedInput.mul_right i
  obtain ⟨b, hb, hcopy⟩ := @load_copies W c p 0 i inbuff mem hlen hindex
    (by rw [loadIndex_eq h hp hi, loadLength_eq h hp]; omega)
    (by rw [loadLength_eq h hp]; omega)
    (by rw [loadIndex_eq h hp hi, loadLength_eq h hp]; omega)
  refine ⟨b, hb, ?_⟩
  intro j hj
  have hcell := hcopy.copied j (loadLength_eq h hp ▸ Nat.lt_of_lt_of_le hj (words_le h))
  rwa [Nat.zero_add, loadIndex_eq h hp hi, ← hl.inWordsAdj] at hcell

theorem Shaped.stored (hl : Shaped c p l) (h : Matched c v) (hp : ProductsFit c p)
    (hc : ChunksFit c p) (ht : TotalFits c p) (outbuff mem : Buffer W)
    (hout : outbuff.size = c.sizeOutChunkData) (hmem : l.inLen + l.outLen ≤ mem.size)
    (hi : i < p.macN) :
    ∃ m, store c p outbuff mem 0 i = some (m, storeCtrl c p 0 i) ∧ m.size = mem.size ∧
      (∀ j < p.macVec, m.cell (l.outOffset + (l.outWordsAdj * i + j)) = outbuff.cell j) ∧
      ∀ e, e ∉ row l.outOffset l.outWordsAdj i → m.cell e = mem.cell e := by
  have hrow := Nat.mul_le_mul_left (paddedOutput c p) (Nat.succ_le_of_lt hi)
  have hfit := ht
  have hchunk := hc.output
  rw [Nat.mul_succ] at hrow
  rw [TotalFits] at hfit
  rw [hl.inLen, hl.outLen] at hmem
  obtain ⟨m, hm, hcopy⟩ := @store_copies W c p 0 i outbuff mem (storeLength_eq h ▸ dvd_paddedOutput)
    (aligned h hp ht hi).2
    (by rw [storeIndex_eq h hp ht hi, storeLength_eq h]; omega)
    (by rw [storeLength_eq h]; omega)
    (by rw [storeIndex_eq h hp ht hi, storeLength_eq h]; omega)
  rw [storeIndex_eq h hp ht hi, storeLength_eq h] at hcopy
  refine ⟨m, hm, hcopy.size, ?_, ?_⟩
  · intro j hj
    have hcell := hcopy.copied j (Nat.lt_of_lt_of_le hj (macVec_le h))
    rwa [Nat.zero_add, Nat.add_assoc, ← hl.outOffset, ← hl.outWordsAdj] at hcell
  · intro e he
    rw [hl.outOffset, hl.outWordsAdj, row, Set.mem_Ico] at he
    exact hcopy.kept e (by omega)

theorem Shaped.oneLayout [DecidableEq W] (hl : Shaped c p l) (h : Matched c v)
    (hp : ProductsFit c p) (hc : ChunksFit c p) (ht : TotalFits c p) :
    OneLayout c p l (fill (W := W) p l) fun buf gold => compare p l buf l.outOffset gold where
  written := hl.written h hp
  loaded := fun inbuff mem hin hmem _ => hl.loaded h hp hc inbuff mem hin hmem
  stored := fun outbuff mem hout hmem _ => hl.stored h hp hc ht outbuff mem hout hmem
  compared := hl.compared h hp
  aligned := fun _ => aligned h hp ht
  requested := by
    intro i hi
    rw [load_elements h hp hi, store_elements h hp ht hi, hl.inWordsAdj, hl.outWordsAdj,
      hl.outOffset]
    exact ⟨rfl, rfl⟩
  inputTiles := by
    have htiles := tiles_rows 0 (paddedInput c p) p.macN
    rw [Nat.zero_add, ← hl.inLen] at htiles
    exact tiles_congr htiles fun i hi => load_elements h hp hi
  outputTiles := by
    have htiles := tiles_rows (paddedInput c p * p.macN) (paddedOutput c p) p.macN
    rw [← hl.inLen, ← hl.outLen] at htiles
    rw [hl.inLen] at htiles ⊢
    exact tiles_congr htiles fun i hi => store_elements h hp ht hi

end Accelerator

section Limits
variable {W : Type} [DecidableEq W] {c : Build} {p : Params} {l : Layout} {v i : Nat}
  {initBuffer : (Nat → W) → Buffer W → Buffer W → Option (Buffer W × Buffer W)}
  {validateBuffer : Buffer W → Buffer W → Option Int}

theorem OneLayout.index_lt (ho : OneLayout c p l initBuffer validateBuffer) (hl : Shaped c p l)
    (h : Matched c v) (hp : ProductsFit c p) (hc : ChunksFit c p) {a b : W} (hab : a ≠ b)
    (hvec : 0 < p.macVec) (hi : i < p.macN) :
    paddedInput c p * p.macN + paddedOutput c p * i < 2 ^ 32 := by
  by_contra hge
  have hrow := Nat.mul_le_mul_left (paddedOutput c p) (Nat.succ_le_of_lt hi)
  have hin := hp.input
  have hout := hp.output
  have hlen := storeLength_eq (p := p) h
  have hchunk := hc.output
  rw [Nat.mul_succ] at hrow
  have hwrap : storeIndex c p 0 i =
      paddedInput c p * p.macN + paddedOutput c p * i - 2 ^ 32 := by
    rw [storeIndex_wraps h hp hi, uint]
    omega
  have hdvd : c.valuesPerWord ∣ storeIndex c p 0 i := by
    rw [hwrap, h.power]
    refine Nat.dvd_sub ?_ (Nat.pow_dvd_pow 2 h.lt.le)
    rw [← h.power]
    exact Nat.dvd_add (dvd_paddedInput.mul_right p.macN) (dvd_paddedOutput.mul_right i)
  obtain ⟨m, hm, -, hplaced, -⟩ := ho.stored ⟨c.sizeOutChunkData, fun _ => a⟩
    ⟨l.inLen + l.outLen, fun _ => b⟩ rfl le_rfl i hi
  obtain ⟨m', hm', hcopy⟩ := @store_copies W c p 0 i ⟨c.sizeOutChunkData, fun _ => a⟩
    ⟨l.inLen + l.outLen, fun _ => b⟩ (hlen ▸ dvd_paddedOutput) hdvd (by omega) (hlen ▸ hchunk)
    (by
      show storeIndex c p 0 i + storeLength c p ≤ l.inLen + l.outLen
      rw [hl.inLen, hl.outLen]
      omega)
  rw [hm] at hm'
  obtain rfl : m = m' := congrArg Prod.fst (Option.some.inj hm')
  have hnew := hplaced 0 hvec
  rw [hl.outOffset, hl.outWordsAdj, hcopy.kept _ (Or.inr (by omega))] at hnew
  exact hab hnew.symm

theorem OneLayout.chunksFit [Inhabited W] (ho : OneLayout c p l initBuffer validateBuffer)
    (h : Matched c v) (hp : ProductsFit c p) (hn : 0 < p.macN) : ChunksFit c p := by
  have hin := Nat.le_mul_of_pos_right (paddedInput c p) hn
  have hout := Nat.le_mul_of_pos_right (paddedOutput c p) hn
  have hfitIn := hp.input
  have hfitOut := hp.output
  obtain ⟨_, hload, -⟩ := ho.loaded ⟨c.sizeInChunkData, fun _ => default⟩
    ⟨l.inLen + l.outLen, fun _ => default⟩ rfl le_rfl 0 hn
  obtain ⟨_, hstore, -⟩ := ho.stored ⟨c.sizeOutChunkData, fun _ => default⟩
    ⟨l.inLen + l.outLen, fun _ => default⟩ rfl le_rfl 0 hn
  have hinput := load_inside (loadLength_eq h hp ▸ dvd_paddedInput)
    (by rw [loadLength_eq h hp]; omega) hload
  have houtput := store_inside (storeLength_eq h ▸ dvd_paddedOutput)
    (by rw [storeLength_eq h]; omega) hstore
  exact ⟨loadLength_eq h hp ▸ hinput, storeLength_eq h ▸ houtput⟩

theorem App.Agrees.index_lt (ha : App.Agrees W c p) (h : Matched c v) (hp : ProductsFit c p)
    (hc : ChunksFit c p) {a b : W} (hab : a ≠ b) (hvec : 0 < p.macVec) (hi : i < p.macN) :
    paddedInput c p * p.macN + paddedOutput c p * i < 2 ^ 32 := by
  obtain ⟨l, hsome, ho⟩ := ha
  obtain ⟨k, hk, hl⟩ := parameters_shaped h hp
  obtain rfl : l = k := Option.some.inj (hsome.symm.trans hk)
  exact ho.index_lt hl h hp hc hab hvec hi

end Limits

section Result

/-- Both programs and the accelerator agree on where the batches are. -/
theorem programs_share_layout {W : Type} [DecidableEq W] {c : Build} {p : Params} {v : Nat}
    (hmatched : Matched c v) (hproducts : ProductsFit c p) (hchunks : ChunksFit c p)
    (htotal : TotalFits c p) : App.Agrees W c p ∧ Barec.Agrees W c p := by
  obtain ⟨l, hsome, hl⟩ := parameters_shaped hmatched hproducts
  have hone := @Shaped.oneLayout W c p l v _ hl hmatched hproducts hchunks htotal
  exact ⟨⟨l, hsome, hone⟩, ⟨l, hsome, hone⟩⟩

/-- The accelerator for 64-bit DMA words, and a processor of 64 bits. -/
def words32 : Build := ⟨64, 32, 6400, 100, 8, 4⟩
def bytes8 : Build := ⟨64, 8, 6400, 104, 8, 1⟩

theorem programs_share_layout_shipped :
    App.Agrees (BitVec 32) words32 ⟨16, 100, 64, by decide, by decide, by decide⟩ ∧
      Barec.Agrees (BitVec 32) words32 ⟨16, 100, 64, by decide, by decide, by decide⟩ :=
  programs_share_layout (v := 1) ⟨by decide, by decide⟩ ⟨by decide, by decide, by decide⟩
    ⟨by decide, by decide⟩ (by show _ ≤ _; decide)

/-- With all products below 2 ^ 32, in elements and in bytes, the last index may be beyond, and
a batch may be longer than a local buffer. -/
theorem layouts_part :
    (¬ ∀ (c : Build) (p : Params) (v : Nat), Matched c v → c.sizeofToken = 4 → ProductsFit c p →
      ChunksFit c p → App.Agrees (BitVec 32) c p) ∧
    (¬ ∀ (c : Build) (p : Params) (v : Nat), Matched c v → ProductsFit c p →
      paddedInput c p * p.macN * c.sizeofToken < 2 ^ 32 →
      paddedOutput c p * p.macN * c.sizeofToken < 2 ^ 32 →
      ChunksFit c p → App.Agrees (BitVec 8) c p) ∧
    (¬ ∀ (c : Build) (p : Params) (v : Nat), Matched c v → c.sizeofToken = 4 → ProductsFit c p →
      TotalFits c p → paddedInput c p ≤ c.sizeInChunkData → App.Agrees (BitVec 32) c p) ∧
    ¬ ∀ (c : Build) (p : Params) (v : Nat), Matched c v → c.sizeofToken = 4 → ProductsFit c p →
      TotalFits c p → paddedOutput c p ≤ c.sizeOutChunkData → App.Agrees (BitVec 32) c p := by
  have hwords : Matched words32 1 := ⟨by decide, by decide⟩
  have hbytes : Matched bytes8 3 := ⟨by decide, by decide⟩
  refine ⟨?_, ?_, ?_, ?_⟩
  · intro h
    have hp : ProductsFit words32 ⟨42949672, 100, 1, by decide, by decide, by decide⟩ :=
      ⟨by decide, by decide, by decide⟩
    have hc : ChunksFit words32 ⟨42949672, 100, 1, by decide, by decide, by decide⟩ :=
      ⟨by decide, by decide⟩
    have hlt := (h _ _ 1 hwords rfl hp hc).index_lt hwords hp hc
      (by decide : (0 : BitVec 32) ≠ 1) (by decide) (by decide : 1 < 42949672)
    exact absurd hlt (by decide)
  · intro h
    have hp : ProductsFit bytes8 ⟨44739242, 96, 1, by decide, by decide, by decide⟩ :=
      ⟨by decide, by decide, by decide⟩
    have hc : ChunksFit bytes8 ⟨44739242, 96, 1, by decide, by decide, by decide⟩ :=
      ⟨by decide, by decide⟩
    have hlt := (h _ _ 3 hbytes hp (by decide) (by decide) hc).index_lt hbytes hp hc
      (by decide : (0 : BitVec 8) ≠ 1) (by decide) (by decide : 1 < 44739242)
    exact absurd hlt (by decide)
  · intro h
    have hp : ProductsFit words32 ⟨1, 102, 1, by decide, by decide, by decide⟩ :=
      ⟨by decide, by decide, by decide⟩
    obtain ⟨l, -, ho⟩ := h _ _ 1 hwords rfl hp (by show _ ≤ _; decide) (by decide)
    have hc := ho.chunksFit hwords hp (by decide)
    exact absurd hc.output (by decide)
  · intro h
    have hp : ProductsFit words32 ⟨1, 2, 3201, by decide, by decide, by decide⟩ :=
      ⟨by decide, by decide, by decide⟩
    obtain ⟨l, -, ho⟩ := h _ _ 1 hwords rfl hp (by show _ ≤ _; decide) (by decide)
    have hc := ho.chunksFit hwords hp (by decide)
    exact absurd hc.input (by decide)

end Result

end EspDrivers.Mac
