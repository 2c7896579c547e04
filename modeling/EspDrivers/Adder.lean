import EspDrivers.MacBuffers

/-! The adder accelerator. It brings in one burst of words after the other, adds neighbouring
values in local buffers, and sends the sums out again. -/
namespace EspDrivers.Adder
open Buffers Strides
open ContigAlloc (uint)
open Mac (Build DmaInfo loadWords storeWords)

section Model

def sizeInChunkData : Nat := 64
def sizeOutChunkData : Nat := 32

/-- The sizes of a pointer and of a token_t are those of the programs, and not used here. -/
def build (dmaSize dataBitwidth : Nat) : Build :=
  ⟨dmaSize, dataBitwidth, sizeInChunkData, sizeOutChunkData, 8, 4⟩

/-- The words that hold `data` values. -/
def chunkWords (c : Build) (data : Nat) : Nat :=
  if data % c.valuesPerWord = 0 then data / c.valuesPerWord else data / c.valuesPerWord + 1

def sizeInChunk (c : Build) : Nat := chunkWords c c.sizeInChunkData
def sizeOutChunk (c : Build) : Nat := chunkWords c c.sizeOutChunkData

variable (c : Build)

/-- word_t, an ap_int of DATA_BITWIDTH bits. -/
abbrev Word := BitVec c.dataBitwidth

def load (inbuff in1 : Buffer (Word c)) (chunk : Nat) (loadCtrl : Buffer DmaInfo) :
    Option (Buffer (Word c) × Buffer DmaInfo) := do
  let base := uint (sizeInChunk c * chunk)
  let loadCtrl ← loadCtrl.store chunk ⟨base, sizeInChunk c, c.sizeWordT⟩
  let inbuff ← loadWords c ⟨base, sizeInChunk c, c.sizeWordT⟩ inbuff in1
  return (inbuff, loadCtrl)

/-- The request is for the words from `baseIndex` on, and `out` begins there. -/
def store (outbuff out : Buffer (Word c)) (chunk : Nat) (storeCtrl : Buffer DmaInfo)
    (baseIndex : Nat) : Option (Buffer (Word c) × Buffer DmaInfo) := do
  let base := uint (sizeOutChunk c * chunk)
  let storeCtrl ← storeCtrl.store chunk ⟨uint (base + baseIndex), sizeOutChunk c, c.sizeWordT⟩
  let out ← storeWords c ⟨base, sizeOutChunk c, c.sizeWordT⟩ outbuff out
  return (out, storeCtrl)

/-- `_inbuff[i*2] + _inbuff[i*2+1]`, in the bits of a word_t. -/
def sumAt (inbuff : Buffer (Word c)) (i : Nat) : Option (Word c) := do
  return (← inbuff.load (i * 2)) + (← inbuff.load (i * 2 + 1))

def compute (inbuff outbuff : Buffer (Word c)) : Option (Buffer (Word c)) :=
  (List.range c.sizeOutChunkData).foldlM (fun b i => do b.store i (← sumAt c inbuff i)) outbuff

structure Dma where
  out : Buffer (Word c)
  loadCtrl : Buffer DmaInfo
  storeCtrl : Buffer DmaInfo

/-- The local buffers begin with any content. -/
def burst (nbursts : Nat) (inCells outCells : Nat → Nat → Word c) (in1 : Buffer (Word c))
    (s : Dma c) (i : Nat) : Option (Dma c) := do
  let (inbuff, loadCtrl) ← load c ⟨c.sizeInChunkData, inCells i⟩ in1 i s.loadCtrl
  let outbuff ← compute c inbuff ⟨c.sizeOutChunkData, outCells i⟩
  let (out, storeCtrl) ← store c outbuff s.out i s.storeCtrl (uint (nbursts * sizeInChunk c))
  return ⟨out, loadCtrl, storeCtrl⟩

def top (nbursts : Nat) (inCells outCells : Nat → Nat → Word c) (in1 : Buffer (Word c))
    (s : Dma c) : Option (Dma c) :=
  (List.range nbursts).foldlM (burst c nbursts inCells outCells in1) s

end Model

section Bursts

/-- The chunks are whole words, and an output chunk has a place for the sums of an input chunk. -/
structure Chunked (c : Build) : Prop where
  input : c.valuesPerWord ∣ c.sizeInChunkData
  output : c.valuesPerWord ∣ c.sizeOutChunkData
  twice : c.sizeInChunkData = 2 * c.sizeOutChunkData
  pos : 0 < c.sizeOutChunkData
  small : c.sizeInChunkData ≤ 2 ^ 32

variable {c : Build} {ctrl : DmaInfo} {inbuff outbuff in1 out : Buffer (Word c)} {i j k n : Nat}

theorem mul_chunkWords {data : Nat} (h : c.valuesPerWord ∣ data) :
    c.valuesPerWord * chunkWords c data = data := by
  rw [chunkWords, if_pos (Nat.mod_eq_zero_of_dvd h), Nat.mul_div_cancel' h]

theorem loadWords_rows (hlocal : c.valuesPerWord * ctrl.length ≤ inbuff.size)
    (hint : inbuff.size ≤ 2 ^ 32)
    (hmem : ∀ i < ctrl.length, ∀ j < c.valuesPerWord,
      uint (ctrl.index + i) * c.valuesPerWord + j < in1.size) :
    ∃ b, loadWords c ctrl inbuff in1 = some b ∧ RowsWritten 0 c.valuesPerWord ctrl.length
      c.valuesPerWord (fun i j => in1.cell (uint (ctrl.index + i) * c.valuesPerWord + j))
        inbuff b := by
  refine foldlM_rows le_rfl ?_ ?_ ?_
  · intro i hi j hj
    have hlt := place_lt hi hj
    rw [Mac.uint_of_lt (by rw [Nat.mul_comm i]; omega), Nat.mul_comm i, Nat.zero_add]
  · intro i hi j hj
    have hlt := place_lt hi hj
    omega
  · intro i hi j hj
    exact Buffer.load_eq (hmem i hi j hj)

theorem storeWords_rows (hlocal : c.valuesPerWord * ctrl.length ≤ outbuff.size)
    (hint : outbuff.size ≤ 2 ^ 32) (hend : ctrl.index + ctrl.length ≤ 2 ^ 32)
    (hmem : c.valuesPerWord * (ctrl.index + ctrl.length) ≤ out.size) :
    ∃ b, storeWords c ctrl outbuff out = some b ∧ RowsWritten (c.valuesPerWord * ctrl.index)
      c.valuesPerWord ctrl.length c.valuesPerWord
        (fun i j => outbuff.cell (c.valuesPerWord * i + j)) out b := by
  refine foldlM_rows le_rfl ?_ ?_ ?_
  · intro i hi j hj
    rw [Mac.uint_of_lt (by omega), Nat.mul_comm _ c.valuesPerWord, Nat.mul_add, Nat.add_assoc]
  · intro i hi j hj
    have hlt := place_lt hi hj
    rw [Nat.mul_add] at hmem
    omega
  · intro i hi j hj
    have hlt := place_lt hi hj
    rw [Mac.uint_of_lt (by rw [Nat.mul_comm i]; omega), Nat.mul_comm i]
    exact Buffer.load_eq (by omega)

theorem compute_sums (hin : 2 * c.sizeOutChunkData ≤ inbuff.size)
    (hout : outbuff.size = c.sizeOutChunkData) :
    ∃ b, compute c inbuff outbuff = some b ∧ b.size = c.sizeOutChunkData ∧
      ∀ j < c.sizeOutChunkData, b.cell j = inbuff.cell (2 * j) + inbuff.cell (2 * j + 1) := by
  have hinj : ∀ i ∈ List.range c.sizeOutChunkData, ∀ j ∈ List.range c.sizeOutChunkData,
      i = j → i = j := fun _ _ _ _ h => h
  have hbound : ∀ i ∈ List.range c.sizeOutChunkData, i < outbuff.size := by
    intro i hi
    exact hout ▸ List.mem_range.mp hi
  have hvalue : ∀ i ∈ List.range c.sizeOutChunkData, sumAt c inbuff i =
      some (inbuff.cell (2 * i) + inbuff.cell (2 * i + 1)) := by
    intro i hi
    have hlt := List.mem_range.mp hi
    rw [sumAt, Nat.mul_comm i, Buffer.load_eq (by omega), Buffer.load_eq (by omega)]
    rfl
  obtain ⟨b, hb, hs⟩ := foldlM_scatters hinj hbound hvalue
  exact ⟨b, hb, hs.size.trans hout, fun j hj => hs.written j (List.mem_range.mpr hj)⟩

theorem Chunked.values_pos (h : Chunked c) : 0 < c.valuesPerWord :=
  Nat.pos_of_dvd_of_pos h.output h.pos

theorem Chunked.mul_in (h : Chunked c) : c.valuesPerWord * sizeInChunk c = c.sizeInChunkData :=
  mul_chunkWords h.input

theorem Chunked.mul_out (h : Chunked c) : c.valuesPerWord * sizeOutChunk c = c.sizeOutChunkData :=
  mul_chunkWords h.output

theorem Chunked.out_pos (h : Chunked c) : 0 < sizeOutChunk c := by
  refine Nat.pos_of_ne_zero ?_
  intro hzero
  have hmul := h.mul_out
  have hpos := h.pos
  rw [hzero, Nat.mul_zero] at hmul
  omega

theorem Chunked.words_twice (h : Chunked c) : sizeInChunk c = 2 * sizeOutChunk c := by
  refine Nat.eq_of_mul_eq_mul_left h.values_pos ?_
  rw [h.mul_in, h.twice, Nat.mul_left_comm, h.mul_out]

/-- Where the value `k` of chunk `i` comes from. -/
def inPlace (c : Build) (i k : Nat) : Nat :=
  uint (uint (sizeInChunk c * i) + k / c.valuesPerWord) * c.valuesPerWord + k % c.valuesPerWord

theorem inPlace_lt (h : Chunked c) (hi : i < n)
    (hk : k < c.sizeInChunkData) : inPlace c i k < c.sizeInChunkData * n := by
  have hrow : c.sizeInChunkData * i + k < c.sizeInChunkData * n := place_lt hi hk
  have hword : uint (uint (sizeInChunk c * i) + k / c.valuesPerWord) ≤
      sizeInChunk c * i + k / c.valuesPerWord :=
    (Nat.mod_le _ _).trans (Nat.add_le_add_right (Nat.mod_le _ _) _)
  have hle := Nat.mul_le_mul_left c.valuesPerWord hword
  rw [Nat.mul_add, ← Nat.mul_assoc, h.mul_in] at hle
  have hsplit := Nat.div_add_mod k c.valuesPerWord
  rw [inPlace, Nat.mul_comm _ c.valuesPerWord]
  omega

theorem inPlace_eq (h : Chunked c) (hi : i < n)
    (hfit : n * sizeInChunk c ≤ 2 ^ 32) (hk : k < c.sizeInChunkData) :
    inPlace c i k = c.sizeInChunkData * i + k := by
  have hrow : k / c.valuesPerWord < sizeInChunk c := by
    rwa [Nat.div_lt_iff_lt_mul h.values_pos, Nat.mul_comm, h.mul_in]
  have hplace := place_lt hi hrow
  rw [Nat.mul_comm n] at hfit
  have hsplit := Nat.div_add_mod k c.valuesPerWord
  have hword : sizeInChunk c * i + k / c.valuesPerWord < 2 ^ 32 := Nat.lt_of_lt_of_le hplace hfit
  have hbase : sizeInChunk c * i < 2 ^ 32 := Nat.lt_of_le_of_lt (Nat.le_add_right _ _) hword
  rw [inPlace, Mac.uint_of_lt hbase, Mac.uint_of_lt hword,
    Nat.mul_comm _ c.valuesPerWord, Nat.mul_add, ← Nat.mul_assoc, h.mul_in]
  omega

def chunkSum (c : Build) (in1 : Buffer (Word c)) (i j : Nat) : Word c :=
  in1.cell (inPlace c i (2 * j)) + in1.cell (inPlace c i (2 * j + 1))

/-- The first `n` bursts of a run from `s` to `t`. -/
structure Bursts (c : Build) (nbursts : Nat) (in1 : Buffer (Word c)) (s : Dma c) (n : Nat)
    (t : Dma c) : Prop where
  out_size : t.out.size = s.out.size
  load_size : t.loadCtrl.size = s.loadCtrl.size
  store_size : t.storeCtrl.size = s.storeCtrl.size
  sums : ∀ i < n, ∀ j < c.sizeOutChunkData,
    t.out.cell (c.sizeOutChunkData * i + j) = chunkSum c in1 i j
  kept : ∀ k, c.sizeOutChunkData * n ≤ k → t.out.cell k = s.out.cell k
  loads : ∀ i < n, t.loadCtrl.cell i = ⟨uint (sizeInChunk c * i), sizeInChunk c, c.sizeWordT⟩
  stores : ∀ i < n, t.storeCtrl.cell i =
    ⟨uint (uint (sizeOutChunk c * i) + uint (nbursts * sizeInChunk c)), sizeOutChunk c, c.sizeWordT⟩

/-- What top needs of its memory and of its two control arrays. -/
structure Roomy (c : Build) (nbursts : Nat) (in1 : Buffer (Word c)) (s : Dma c) : Prop where
  input : c.sizeInChunkData * nbursts ≤ in1.size
  output : c.sizeOutChunkData * nbursts ≤ s.out.size
  loads : nbursts ≤ s.loadCtrl.size
  stores : nbursts ≤ s.storeCtrl.size

variable {nbursts : Nat} {inCells outCells : Nat → Nat → Word c} {s t : Dma c}

theorem load_burst {loadCtrl : Buffer DmaInfo} (h : Chunked c)
    (hmem : c.sizeInChunkData * n ≤ in1.size) (hi : i < n) (hctrl : i < loadCtrl.size)
    (hsize : inbuff.size = c.sizeInChunkData) :
    ∃ b, load c inbuff in1 i loadCtrl = some (b, ⟨loadCtrl.size, Function.update loadCtrl.cell i
        ⟨uint (sizeInChunk c * i), sizeInChunk c, c.sizeWordT⟩⟩) ∧ b.size = c.sizeInChunkData ∧
      ∀ k < c.sizeInChunkData, b.cell k = in1.cell (inPlace c i k) := by
  have hplaces : ∀ r < sizeInChunk c, ∀ j < c.valuesPerWord,
      uint (uint (sizeInChunk c * i) + r) * c.valuesPerWord + j < in1.size := by
    intro r hr j hj
    have hlt := place_lt hr hj
    rw [h.mul_in] at hlt
    have hplace := inPlace_lt h hi hlt
    have hdiv : (c.valuesPerWord * r + j) / c.valuesPerWord = r := by
      rw [Nat.mul_add_div h.values_pos, Nat.div_eq_of_lt hj, Nat.add_zero]
    rw [inPlace, hdiv, Nat.mul_add_mod, Nat.mod_eq_of_lt hj] at hplace
    exact Nat.lt_of_lt_of_le hplace hmem
  obtain ⟨b, hb, hrows⟩ := @loadWords_rows c
    ⟨uint (sizeInChunk c * i), sizeInChunk c, c.sizeWordT⟩ inbuff in1
    (h.mul_in.trans hsize.symm).le (hsize ▸ h.small) hplaces
  refine ⟨b, ?_, hrows.size.trans hsize, ?_⟩
  · simp [load, Buffer.store_eq hctrl, hb]
  · intro k hk
    have hrow : k / c.valuesPerWord < sizeInChunk c := by
      rwa [Nat.div_lt_iff_lt_mul h.values_pos, Nat.mul_comm, h.mul_in]
    have hcell := hrows.written _ hrow _ (Nat.mod_lt k h.values_pos)
    rwa [Nat.zero_add, Nat.div_add_mod] at hcell

theorem store_burst {storeCtrl : Buffer DmaInfo} (baseIndex : Nat) (h : Chunked c)
    (hfit : sizeOutChunk c * n ≤ 2 ^ 32) (hmem : c.sizeOutChunkData * n ≤ out.size) (hi : i < n)
    (hctrl : i < storeCtrl.size) (hsize : outbuff.size = c.sizeOutChunkData) :
    ∃ d, store c outbuff out i storeCtrl baseIndex = some (d, ⟨storeCtrl.size,
        Function.update storeCtrl.cell i ⟨uint (uint (sizeOutChunk c * i) + baseIndex),
          sizeOutChunk c, c.sizeWordT⟩⟩) ∧ d.size = out.size ∧
      (∀ j < c.sizeOutChunkData, d.cell (c.sizeOutChunkData * i + j) = outbuff.cell j) ∧
      ∀ k, (k < c.sizeOutChunkData * i ∨ c.sizeOutChunkData * (i + 1) ≤ k) →
        d.cell k = out.cell k := by
  have hrow := Nat.mul_le_mul_left (sizeOutChunk c) (Nat.succ_le_of_lt hi)
  have hdata := Nat.mul_le_mul_left c.sizeOutChunkData (Nat.succ_le_of_lt hi)
  rw [Nat.mul_succ] at hrow hdata
  have hpos := h.out_pos
  have hsmall : c.sizeOutChunkData ≤ 2 ^ 32 := by
    have hin := h.small
    rw [h.twice] at hin
    omega
  have hbase : uint (sizeOutChunk c * i) = sizeOutChunk c * i := Mac.uint_of_lt (by omega)
  have hstart : c.valuesPerWord * uint (sizeOutChunk c * i) = c.sizeOutChunkData * i := by
    rw [hbase, ← Nat.mul_assoc, h.mul_out]
  obtain ⟨d, hd, hrows⟩ := @storeWords_rows c
    ⟨uint (sizeOutChunk c * i), sizeOutChunk c, c.sizeWordT⟩ outbuff out
    (h.mul_out.trans hsize.symm).le (hsize ▸ hsmall) (by simp only [hbase]; omega)
    (by rw [Nat.mul_add, hstart, h.mul_out]; omega)
  refine ⟨d, ?_, hrows.size, ?_, ?_⟩
  · simp [store, Buffer.store_eq hctrl, hd]
  · intro j hj
    have hword : j / c.valuesPerWord < sizeOutChunk c := by
      rwa [Nat.div_lt_iff_lt_mul h.values_pos, Nat.mul_comm, h.mul_out]
    have hcell := hrows.written _ hword _ (Nat.mod_lt j h.values_pos)
    rwa [hstart, Nat.div_add_mod] at hcell
  · intro k hk
    refine hrows.kept k ?_
    intro r hr j hj heq
    have hlt := place_lt hr hj
    rw [hstart] at heq
    rw [h.mul_out] at hlt
    rw [Nat.mul_succ] at hk
    omega

theorem Bursts.next (h : Chunked c) (hfit : sizeOutChunk c * nbursts ≤ 2 ^ 32)
    (hroom : Roomy c nbursts in1 s) (hrun : Bursts c nbursts in1 s i t) (hi : i < nbursts) :
    ∃ u, burst c nbursts inCells outCells in1 t i = some u ∧ Bursts c nbursts in1 s (i + 1) u := by
  have hloads := hroom.loads
  have hstores := hroom.stores
  have hlsize := hrun.load_size
  have hssize := hrun.store_size
  have hosize := hrun.out_size
  obtain ⟨a, ha, hasize, hacells⟩ := load_burst h hroom.input hi (by omega : i < t.loadCtrl.size)
    (rfl : (⟨c.sizeInChunkData, inCells i⟩ : Buffer (Word c)).size = c.sizeInChunkData)
  have hpairs : 2 * c.sizeOutChunkData ≤ a.size := (h.twice.symm.trans hasize.symm).le
  obtain ⟨b, hb, hbsize, hbcells⟩ := compute_sums hpairs
    (rfl : (⟨c.sizeOutChunkData, outCells i⟩ : Buffer (Word c)).size = c.sizeOutChunkData)
  obtain ⟨d, hd, hdsize, hdcells, hdkept⟩ := store_burst (uint (nbursts * sizeInChunk c)) h hfit
    (hosize ▸ hroom.output : c.sizeOutChunkData * nbursts ≤ t.out.size) hi
    (by omega : i < t.storeCtrl.size) hbsize
  refine ⟨⟨d, ⟨t.loadCtrl.size, Function.update t.loadCtrl.cell i
    ⟨uint (sizeInChunk c * i), sizeInChunk c, c.sizeWordT⟩⟩, ⟨t.storeCtrl.size, Function.update
      t.storeCtrl.cell i ⟨uint (uint (sizeOutChunk c * i) + uint (nbursts * sizeInChunk c)),
        sizeOutChunk c, c.sizeWordT⟩⟩⟩, ?_, hdsize.trans hosize, hlsize, hssize, ?_, ?_, ?_, ?_⟩
  · simp [burst, ha, hb, hd]
  · intro r hr j hj
    by_cases heq : r = i
    · subst heq
      have htwice := h.twice
      rw [hdcells j hj, hbcells j hj, hacells _ (by omega), hacells _ (by omega), chunkSum]
    · have hlt : c.sizeOutChunkData * r + j < c.sizeOutChunkData * i := place_lt (by omega) hj
      rw [hdkept _ (Or.inl hlt)]
      exact hrun.sums r (by omega) j hj
  · intro k hk
    rw [hdkept k (Or.inr hk)]
    rw [Nat.mul_succ] at hk
    exact hrun.kept k (by omega)
  · intro r hr
    by_cases heq : r = i
    · subst heq
      exact Function.update_self _ _ _
    · exact (Function.update_of_ne heq _ _).trans (hrun.loads r (by omega))
  · intro r hr
    by_cases heq : r = i
    · subst heq
      exact Function.update_self _ _ _
    · exact (Function.update_of_ne heq _ _).trans (hrun.stores r (by omega))

theorem top_bursts (h : Chunked c) (hfit : sizeOutChunk c * nbursts ≤ 2 ^ 32)
    (hroom : Roomy c nbursts in1 s) :
    ∃ t, top c nbursts inCells outCells in1 s = some t ∧ Bursts c nbursts in1 s nbursts t := by
  refine foldlM_range_ends nbursts (fun n t => Bursts c nbursts in1 s n t) ?_ ?_
  · exact ⟨rfl, rfl, rfl, fun i hi => absurd hi (Nat.not_lt_zero i), fun k _ => rfl,
      fun i hi => absurd hi (Nat.not_lt_zero i), fun i hi => absurd hi (Nat.not_lt_zero i)⟩
  · intro i hi t ht
    exact ht.next h hfit hroom hi

end Bursts

section Statement
variable (c : Build) (nbursts : Nat) (in1 : Buffer (Word c)) (s t : Dma c)

def words (d : DmaInfo) : Set Nat := Set.Ico d.index (d.index + d.length)

structure Adds : Prop where
  size : t.out.size = s.out.size
  sums : ∀ k < c.sizeOutChunkData * nbursts, t.out.cell k = in1.cell (2 * k) + in1.cell (2 * k + 1)
  kept : ∀ k, c.sizeOutChunkData * nbursts ≤ k → t.out.cell k = s.out.cell k
  loads : ∀ i < nbursts, t.loadCtrl.cell i = ⟨sizeInChunk c * i, sizeInChunk c, c.sizeWordT⟩
  loads_tile : Tiles nbursts (fun i => words (t.loadCtrl.cell i))
    (Set.Ico 0 (nbursts * sizeInChunk c))

/-- The values that the two programs and the testbench expect: `i * 4 + 1` where the input counts
up, and what compute makes of each chunk of the input by itself. -/
structure Gold : Prop where
  counting : (∀ k < c.sizeInChunkData * nbursts, in1.cell k = BitVec.ofNat _ k) →
    ∀ k < c.sizeOutChunkData * nbursts, t.out.cell k = BitVec.ofNat _ (k * 4 + 1)
  chunks : ∀ i < nbursts, ∀ (outOld : Nat → Word c), ∃ gold,
    compute c ⟨c.sizeInChunkData, fun k => in1.cell (c.sizeInChunkData * i + k)⟩
      ⟨c.sizeOutChunkData, outOld⟩ = some gold ∧
    ∀ j < c.sizeOutChunkData, t.out.cell (c.sizeOutChunkData * i + j) = gold.cell j

/-- The requests for the output follow each other behind the input. -/
structure StoresBehind : Prop where
  stores : ∀ i < nbursts, t.storeCtrl.cell i =
    ⟨nbursts * sizeInChunk c + sizeOutChunk c * i, sizeOutChunk c, c.sizeWordT⟩
  stores_tile : Tiles nbursts (fun i => words (t.storeCtrl.cell i))
    (Set.Ico (nbursts * sizeInChunk c) (nbursts * sizeInChunk c + nbursts * sizeOutChunk c))

end Statement

section Result
variable {c : Build} {nbursts : Nat} {in1 : Buffer (Word c)} {s t : Dma c}

theorem words_tile {infos : Nat → DmaInfo} {base length size : Nat}
    (h : ∀ i < nbursts, infos i = ⟨base + length * i, length, size⟩) :
    Tiles nbursts (fun i => words (infos i)) (Set.Ico base (base + nbursts * length)) := by
  rw [Nat.mul_comm nbursts]
  refine Mac.tiles_congr (tiles_rows base length nbursts) ?_
  intro i hi
  rw [h i hi]
  rfl

theorem Bursts.adds (h : Chunked c) (hfit : nbursts * sizeInChunk c ≤ 2 ^ 32)
    (hrun : Bursts c nbursts in1 s nbursts t) : Adds c nbursts in1 s t := by
  have htwice := h.twice
  have hloads : ∀ i < nbursts,
      t.loadCtrl.cell i = ⟨sizeInChunk c * i, sizeInChunk c, c.sizeWordT⟩ := by
    intro i hi
    have hpos := h.out_pos
    have hwords := h.words_twice
    have hrow := Nat.mul_le_mul_left (sizeInChunk c) (Nat.succ_le_of_lt hi)
    rw [Nat.mul_succ, Nat.mul_comm (sizeInChunk c) nbursts] at hrow
    rw [hrun.loads i hi, Mac.uint_of_lt (by omega)]
  refine ⟨hrun.out_size, ?_, hrun.kept, hloads, ?_⟩
  · intro k hk
    have hi : k / c.sizeOutChunkData < nbursts := Nat.div_lt_of_lt_mul hk
    have hj := Nat.mod_lt k h.pos
    have hsplit := Nat.div_add_mod k c.sizeOutChunkData
    have hcell := hrun.sums _ hi _ hj
    have htwo : 2 * c.sizeOutChunkData * (k / c.sizeOutChunkData) + 2 * (k % c.sizeOutChunkData) =
        2 * k := by
      rw [Nat.mul_assoc, ← Nat.mul_add, hsplit]
    rw [hsplit, chunkSum, inPlace_eq h hi hfit (by omega), inPlace_eq h hi hfit (by omega), htwice,
      ← Nat.add_assoc, htwo] at hcell
    exact hcell
  · have hzero : ∀ i < nbursts,
        t.loadCtrl.cell i = ⟨0 + sizeInChunk c * i, sizeInChunk c, c.sizeWordT⟩ := by
      intro i hi
      rw [Nat.zero_add]
      exact hloads i hi
    have htile := words_tile hzero
    rwa [Nat.zero_add] at htile

theorem Adds.gold (h : Chunked c) (hadds : Adds c nbursts in1 s t) : Gold c nbursts in1 t := by
  have htwice := h.twice
  constructor
  · intro hin k hk
    have hlt : 2 * k + 1 < c.sizeInChunkData * nbursts := by
      rw [htwice, Nat.mul_assoc]
      omega
    have hsum : k * 4 + 1 = 2 * k + (2 * k + 1) := by omega
    rw [hadds.sums k hk, hin _ (by omega), hin _ hlt, hsum]
    exact (BitVec.ofNat_add (2 * k) (2 * k + 1)).symm
  · intro i hi outOld
    obtain ⟨gold, hgold, -, hcells⟩ := @compute_sums c
      ⟨c.sizeInChunkData, fun k => in1.cell (c.sizeInChunkData * i + k)⟩
      ⟨c.sizeOutChunkData, outOld⟩ htwice.ge rfl
    refine ⟨gold, hgold, ?_⟩
    intro j hj
    rw [hadds.sums _ (place_lt hi hj), hcells j hj, htwice, Nat.mul_add, Nat.mul_assoc,
      Nat.add_assoc]

theorem Bursts.storesBehind (h : Chunked c)
    (hfit : nbursts * (sizeInChunk c + sizeOutChunk c) ≤ 2 ^ 32)
    (hrun : Bursts c nbursts in1 s nbursts t) : StoresBehind c nbursts t := by
  have hstores : ∀ i < nbursts, t.storeCtrl.cell i =
      ⟨nbursts * sizeInChunk c + sizeOutChunk c * i, sizeOutChunk c, c.sizeWordT⟩ := by
    intro i hi
    have hpos := h.out_pos
    have hrow := Nat.mul_le_mul_left (sizeOutChunk c) (Nat.succ_le_of_lt hi)
    rw [Nat.mul_succ, Nat.mul_comm (sizeOutChunk c) nbursts] at hrow
    rw [Nat.mul_add] at hfit
    rw [hrun.stores i hi, Mac.uint_of_lt (by omega : sizeOutChunk c * i < 2 ^ 32),
      Mac.uint_of_lt (by omega : nbursts * sizeInChunk c < 2 ^ 32), Mac.uint_of_lt (by omega),
      Nat.add_comm]
  exact ⟨hstores, words_tile hstores⟩

theorem build_chunked {dmaSize dataBitwidth : Nat}
    (hin : (build dmaSize dataBitwidth).valuesPerWord ∣ sizeInChunkData)
    (hout : (build dmaSize dataBitwidth).valuesPerWord ∣ sizeOutChunkData) :
    Chunked (build dmaSize dataBitwidth) :=
  ⟨hin, hout, rfl, (by decide : 0 < sizeOutChunkData), (by decide : sizeInChunkData ≤ 2 ^ 32)⟩

/-- The bursts add the whole array while the words of the input have numbers of 32 bits. -/
theorem top_adds {dmaSize dataBitwidth nbursts : Nat}
    (hin : (build dmaSize dataBitwidth).valuesPerWord ∣ sizeInChunkData)
    (hout : (build dmaSize dataBitwidth).valuesPerWord ∣ sizeOutChunkData)
    (inCells outCells : Nat → Nat → Word (build dmaSize dataBitwidth))
    (in1 : Buffer (Word (build dmaSize dataBitwidth))) (s : Dma (build dmaSize dataBitwidth))
    (hroom : Roomy (build dmaSize dataBitwidth) nbursts in1 s)
    (hfit : nbursts * sizeInChunk (build dmaSize dataBitwidth) ≤ 2 ^ 32) :
    ∃ t, top (build dmaSize dataBitwidth) nbursts inCells outCells in1 s = some t ∧
      Adds (build dmaSize dataBitwidth) nbursts in1 s t ∧
      Gold (build dmaSize dataBitwidth) nbursts in1 t ∧
      (nbursts * (sizeInChunk (build dmaSize dataBitwidth) +
          sizeOutChunk (build dmaSize dataBitwidth)) ≤ 2 ^ 32 →
        StoresBehind (build dmaSize dataBitwidth) nbursts t) := by
  have h := build_chunked hin hout
  have hwords := h.words_twice
  have hhalf : sizeOutChunk (build dmaSize dataBitwidth) * nbursts ≤ 2 ^ 32 := by
    rw [hwords, Nat.mul_left_comm, Nat.mul_comm nbursts] at hfit
    omega
  obtain ⟨t, ht, hrun⟩ := @top_bursts _ in1 nbursts inCells outCells s h hhalf hroom
  have hadds := hrun.adds h hfit
  exact ⟨t, ht, hadds, hadds.gold h, hrun.storesBehind h⟩

/-- Words of two values, and four bursts. -/
def paired : Build := build 64 32
def countedInput : Buffer (Word paired) := ⟨256, fun k => BitVec.ofNat 32 k⟩
def noRequests (n : Nat) : Buffer DmaInfo := ⟨n, fun _ => ⟨0, 0, 0⟩⟩
def filledOutput : Dma paired := ⟨⟨128, fun _ => 33⟩, noRequests 4, noRequests 4⟩

theorem top_adds_four : ∃ t, top paired 4 (fun _ _ => 0) (fun _ _ => 0) countedInput filledOutput =
    some t ∧ Adds paired 4 countedInput filledOutput t ∧ Gold paired 4 countedInput t ∧
      (4 * (sizeInChunk paired + sizeOutChunk paired) ≤ 2 ^ 32 → StoresBehind paired 4 t) :=
  @top_adds 64 32 4 (by decide) (by decide) _ _ countedInput filledOutput
    ⟨by decide, by decide, by decide, by decide⟩ (by decide)

/-- Words of one value, and memory for `n` bursts. The input is 1 from the place 2 ^ 32 on. -/
def single : Build := build 32 32
def longInput (n : Nat) : Buffer (Word single) := ⟨64 * n, fun k => if k < 2 ^ 32 then 0 else 1⟩
def longOutput (n : Nat) : Dma single := ⟨⟨32 * n, fun _ => 0⟩, noRequests n, noRequests n⟩

theorem single_chunked : Chunked single := build_chunked (by decide) (by decide)

theorem long_roomy (n : Nat) : Roomy single n (longInput n) (longOutput n) :=
  ⟨le_rfl, le_rfl, le_rfl, le_rfl⟩

/-- The first word of the input does for the one with the number 2 ^ 32, and the requests for the
output of 2 ^ 26 bursts begin at the input. -/
theorem long_input_wraps :
    (¬ ∀ (dmaSize dataBitwidth nbursts : Nat) (in1 : Buffer (Word (build dmaSize dataBitwidth)))
        (s : Dma (build dmaSize dataBitwidth)),
      (build dmaSize dataBitwidth).valuesPerWord ∣ sizeInChunkData →
      (build dmaSize dataBitwidth).valuesPerWord ∣ sizeOutChunkData →
      nbursts < 2 ^ 32 → Roomy (build dmaSize dataBitwidth) nbursts in1 s →
      ∃ t, top (build dmaSize dataBitwidth) nbursts (fun _ _ => 0) (fun _ _ => 0) in1 s = some t ∧
        ∀ k < sizeOutChunkData * nbursts,
          t.out.cell k = in1.cell (2 * k) + in1.cell (2 * k + 1)) ∧
    ¬ ∀ (dmaSize dataBitwidth nbursts : Nat) (in1 : Buffer (Word (build dmaSize dataBitwidth)))
        (s : Dma (build dmaSize dataBitwidth)),
      (build dmaSize dataBitwidth).valuesPerWord ∣ sizeInChunkData →
      (build dmaSize dataBitwidth).valuesPerWord ∣ sizeOutChunkData →
      nbursts < 2 ^ 32 → Roomy (build dmaSize dataBitwidth) nbursts in1 s →
      ∃ t, top (build dmaSize dataBitwidth) nbursts (fun _ _ => 0) (fun _ _ => 0) in1 s = some t ∧
        Tiles nbursts (fun i => words (t.storeCtrl.cell i))
          (Set.Ico (nbursts * sizeInChunk (build dmaSize dataBitwidth))
            (nbursts * sizeInChunk (build dmaSize dataBitwidth) +
              nbursts * sizeOutChunk (build dmaSize dataBitwidth))) := by
  constructor
  · intro h
    obtain ⟨t, ht, hsums⟩ := h 32 32 (2 ^ 26 + 1) (longInput (2 ^ 26 + 1))
      (longOutput (2 ^ 26 + 1)) (by decide) (by decide) (by decide) (long_roomy _)
    obtain ⟨u, hu, hrun⟩ := @top_bursts single _ _ (fun _ _ => 0) (fun _ _ => 0) _
      single_chunked (by decide) (long_roomy (2 ^ 26 + 1))
    obtain rfl := Option.some.inj (ht.symm.trans hu)
    have hread : t.out.cell (32 * 2 ^ 26) = chunkSum single (longInput (2 ^ 26 + 1)) (2 ^ 26) 0 :=
      hrun.sums (2 ^ 26) (by decide) 0 (by decide)
    rw [hsums (32 * 2 ^ 26) (by decide)] at hread
    have htwo : (2 : BitVec 32) = 0 := hread
    exact absurd htwo (by decide)
  · intro h
    obtain ⟨t, ht, htile⟩ := h 32 32 (2 ^ 26) (longInput (2 ^ 26)) (longOutput (2 ^ 26))
      (by decide) (by decide) (by decide) (long_roomy _)
    obtain ⟨u, hu, hrun⟩ := @top_bursts single _ _ (fun _ _ => 0) (fun _ _ => 0) _
      single_chunked (by decide) (long_roomy (2 ^ 26))
    obtain rfl := Option.some.inj (ht.symm.trans hu)
    have hfirst : t.storeCtrl.cell 0 = ⟨0, 32, 2⟩ := hrun.stores 0 (by decide)
    have hmem : (0 : Nat) ∈ words (t.storeCtrl.cell 0) := by
      rw [hfirst]
      exact ⟨le_rfl, by decide⟩
    have hbehind := (htile.covers 0).mpr ⟨0, by decide, hmem⟩
    exact absurd hbehind.1 (by decide)

end Result

end EspDrivers.Adder
