import EspDrivers.ViterbiRuns

/-! decode with RUN_HW: the butterflies run on an accelerator, on a buffer of its own. One that
leaves what viterbi_butterfly2_generic leaves changes nothing of the result. -/
namespace EspDrivers.Viterbi
open Buffers Checked Fills

section Sizes
variable {mem out : Buffer UInt8} {p : Pointers} {base lane firstSymbol i : Nat}
  {even odd sym0v sym1v : Nat → UInt8}

theorem interleave_size (h : interleave mem base lane even odd = some out) :
    out.size = mem.size := by
  refine foldlM_range_keeps (fun _ (c : Buffer UInt8) => c.size = mem.size) rfl ?_ h
  intro k _ c c' hc hround
  obtain ⟨c1, h1, h2⟩ := Option.bind_eq_some_iff.mp hround
  obtain ⟨-, rfl⟩ := Buffer.store_some h1
  obtain ⟨-, rfl⟩ := Buffer.store_some h2
  exact hc

theorem butterflies_size (h : butterflies p firstSymbol sym0v sym1v mem i = some out) :
    out.size = mem.size := by
  rw [butterflies] at h
  obtain ⟨⟨metsvm, metsv⟩, -, h⟩ := Option.bind_eq_some_iff.mp h
  obtain ⟨m0, -, h⟩ := Option.bind_eq_some_iff.mp h
  obtain ⟨m1, -, h⟩ := Option.bind_eq_some_iff.mp h
  obtain ⟨m2, -, h⟩ := Option.bind_eq_some_iff.mp h
  obtain ⟨m3, -, h⟩ := Option.bind_eq_some_iff.mp h
  obtain ⟨shift0, -, h⟩ := Option.bind_eq_some_iff.mp h
  obtain ⟨shift1, -, h⟩ := Option.bind_eq_some_iff.mp h
  obtain ⟨c1, h1, h⟩ := Option.bind_eq_some_iff.mp h
  obtain ⟨c2, h2, h⟩ := Option.bind_eq_some_iff.mp h
  obtain ⟨c3, h3, h4⟩ := Option.bind_eq_some_iff.mp h
  rw [interleave_size h4, interleave_size h3, interleave_size h2, interleave_size h1]

theorem symbolGroup_size (h : symbolGroup p firstSymbol mem = some out) : out.size = mem.size := by
  rw [symbolGroup] at h
  obtain ⟨sym0v, -, h⟩ := Option.bind_eq_some_iff.mp h
  obtain ⟨sym1v, -, h⟩ := Option.bind_eq_some_iff.mp h
  refine foldlM_range_keeps (fun _ (c : Buffer UInt8) => c.size = mem.size) rfl ?_ h
  intro i _ c c' hc hround
  rw [butterflies_size hround, hc]

theorem viterbiButterfly2Generic_size (h : viterbiButterfly2Generic mem = some out) :
    out.size = mem.size := by
  rw [viterbiButterfly2Generic] at h
  obtain ⟨c, h1, h2⟩ := Option.bind_eq_some_iff.mp h
  rw [symbolGroup_size h2, symbolGroup_size h1]

end Sizes

section Blocks
variable {mem b c : Buffer UInt8} {d : Decoder}

def block (mem : Buffer UInt8) : Buffer UInt8 :=
  ⟨6 * 64, fun i => if i < 6 * 64 then mem.cell i else 0⟩

theorem block_size (mem : Buffer UInt8) : (block mem).size = 6 * 64 := rfl

theorem block_store {k : Nat} {v : UInt8} (hb : block b = b) (h : b.store k v = some c) :
    block c = c := by
  have hsize : b.size = 6 * 64 := by rw [← hb, block_size]
  obtain ⟨hk, rfl⟩ := Buffer.store_some h
  refine Buffer.ext hsize.symm ?_
  funext i
  by_cases hi : i < 6 * 64
  · exact if_pos hi
  · have hcell : b.cell i = 0 := by
      rw [← hb]
      exact if_neg hi
    change (if i < 6 * 64 then Function.update b.cell k v i else 0) = Function.update b.cell k v i
    rw [if_neg hi, Function.update_of_ne (by omega), hcell]

theorem block_copyIn {src : Nat → Option UInt8} {n imi : Nat} (hb : block b = b)
    (h : copyIn src n imi b = some c) : block c = c := by
  refine foldlM_range_keeps (fun _ c => block c = c) hb ?_ h
  intro i _ s t hs hround
  obtain ⟨v, -, hstore⟩ := Option.bind_eq_some_iff.mp hround
  exact block_store hs hstore

theorem block_pack {symbols : Nat → Option UInt8} (h : pack d symbols = some mem) :
    block mem = mem := by
  have hzeros : block (zeros (6 * 64)) = zeros (6 * 64) := by
    refine Buffer.ext rfl ?_
    funext i
    exact ite_self _
  rw [pack] at h
  obtain ⟨b0, h0, h⟩ := Option.bind_eq_some_iff.mp h
  obtain ⟨b1, h1, h⟩ := Option.bind_eq_some_iff.mp h
  obtain ⟨b2, h2, h⟩ := Option.bind_eq_some_iff.mp h
  obtain ⟨b3, h3, h⟩ := Option.bind_eq_some_iff.mp h
  obtain ⟨b4, h4, h5⟩ := Option.bind_eq_some_iff.mp h
  have hb3 := block_copyIn (block_copyIn (block_copyIn (block_copyIn hzeros h0) h1) h2) h3
  have hb4 : block b4 = b4 := foldlM_range_keeps (fun _ c => block c = c) hb3
    (fun ti _ s t hs hround => block_copyIn hs hround) h4
  exact block_copyIn hb4 h5

theorem unpack_congr (hb : b.size = 6 * 64) (hc : c.size = 6 * 64)
    (hcell : ∀ i < 4 * 64, c.cell i = b.cell i) (d : Decoder) : unpack c d = unpack b d := by
  have hcopy (imi : Nat) (himi : imi + 64 ≤ 4 * 64) (dst : Buffer UInt8) :
      copyOut c imi dst = copyOut b imi dst := by
    refine foldlM_congr ?_ dst
    intro ti hti s
    have hlt : ti < 64 := List.mem_range.mp hti
    rw [Buffer.load_eq (by omega), Buffer.load_eq (by omega), hcell (imi + ti) (by omega)]
  rw [unpack, unpack, hcopy 0 (by decide), hcopy 64 (by decide), hcopy 128 (by decide),
    hcopy 192 (by decide)]

end Blocks

section Accelerator
variable {access : Buffer UInt8 → Option (Buffer UInt8)} {mem inMemory out : Buffer UInt8}

/-- The accelerator leaves in the first four arrays of its block what viterbi_butterfly2_generic
leaves in them. -/
def Computes (access : Buffer UInt8 → Option (Buffer UInt8)) : Prop :=
  ∀ mem out, 6 * 64 ≤ mem.size → viterbiButterfly2Generic (block mem) = some out →
    ∃ mem', access mem = some mem' ∧ mem'.size = mem.size ∧ ∀ i < 4 * 64, mem'.cell i = out.cell i

theorem viterbiButterfly2Hw_ends (hc : Computes access) (hmem : 6 * 64 ≤ mem.size)
    (hin : block inMemory = inMemory) (hrun : viterbiButterfly2Generic inMemory = some out) :
    ∃ mem' out', viterbiButterfly2Hw access mem inMemory = some (mem', out') ∧
      6 * 64 ≤ mem'.size ∧ out'.size = 6 * 64 ∧ ∀ i < 4 * 64, out'.cell i = out.cell i := by
  have hsize : inMemory.size = 6 * 64 := by rw [← hin, block_size]
  have hto : (List.range (6 * 64)).foldlM (fun (c : Buffer UInt8) i => do
      c.store i (← inMemory.load i)) mem = some (fill mem 0 (6 * 64) inMemory.cell) := by
    have hloop : (List.range (6 * 64)).foldlM (fun (c : Buffer UInt8) i => do
        c.store (0 + i) (← inMemory.load i)) mem = some (fill mem 0 (6 * 64) inMemory.cell) :=
      foldlM_fill_values (by omega) fun i hi => Buffer.load_eq (by omega)
    simp only [Nat.zero_add] at hloop
    exact hloop
  have hblock : block (fill mem 0 (6 * 64) inMemory.cell) = inMemory := by
    rw [← hin]
    refine Buffer.ext rfl ?_
    funext i
    simp only [block, fill, Nat.zero_le, Nat.zero_add, true_and, Nat.sub_zero]
    split <;> rfl
  obtain ⟨mem', haccess, hmem', hcells⟩ := hc (fill mem 0 (6 * 64) inMemory.cell) out hmem
    (by rw [hblock]; exact hrun)
  have hmem'size : 6 * 64 ≤ mem'.size := by rwa [hmem', fill_size]
  have hfrom : (List.range (4 * 64)).foldlM (fun (c : Buffer UInt8) i => do
      c.store i (← mem'.load i)) inMemory = some (fill inMemory 0 (4 * 64) mem'.cell) := by
    have hloop : (List.range (4 * 64)).foldlM (fun (c : Buffer UInt8) i => do
        c.store (0 + i) (← mem'.load i)) inMemory = some (fill inMemory 0 (4 * 64) mem'.cell) :=
      foldlM_fill_values (by omega) fun i hi => Buffer.load_eq (by omega)
    simp only [Nat.zero_add] at hloop
    exact hloop
  refine ⟨mem', fill inMemory 0 (4 * 64) mem'.cell, ?_, hmem'size, hsize, ?_⟩
  · rw [viterbiButterfly2Hw, hto, Option.bind_eq_bind, Option.bind_some, haccess, Option.bind_some,
      hfrom]
    rfl
  · intro i hi
    have hcell : (fill inMemory 0 (4 * 64) mem'.cell).cell (0 + i) = mem'.cell i := fill_inside hi
    rw [Nat.zero_add] at hcell
    rw [hcell]
    exact hcells i hi

end Accelerator

section Decoding
variable {access : Buffer UInt8 → Option (Buffer UInt8)} {depunctured : Buffer UInt8}
  {verif : Option (Nat → Nat → Nat → UInt8)}

/-- The two programs are in the same state, but for the buffer of the accelerator. -/
def Beside (s t : Loop) : Prop := t = { s with mem := t.mem } ∧ 6 * 64 ≤ t.mem.size

theorem storeByte_beside {s s' t : Loop} {c : UInt8} (h : Beside s t)
    (hrun : storeByte s c = some s') : ∃ t', storeByte t c = some t' ∧ Beside s' t' := by
  obtain ⟨heq, hmem⟩ := h
  refine ⟨{ s' with mem := t.mem }, ?_, rfl, hmem⟩
  rw [heq]
  simp only [storeByte] at hrun ⊢
  split at hrun
  · next hfull =>
    obtain ⟨⟨decoded, nDecoded⟩, hbits, hlast⟩ := Option.bind_eq_some_iff.mp hrun
    obtain rfl := Option.some.inj hlast
    rw [if_pos hfull, hbits]
    rfl
  · next hfull =>
    obtain rfl := Option.some.inj hrun
    rw [if_neg hfull]

theorem decodeCall_beside (hc : Computes access) {s s' t : Loop} (h : Beside s t)
    (hrun : decodeCall butterfly2Soft verif depunctured s = some s') :
    ∃ t', decodeCall (viterbiButterfly2Hw access) verif depunctured t = some t' ∧ Beside s' t' := by
  obtain ⟨heq, hmem⟩ := h
  rw [decodeCall] at hrun
  obtain ⟨inMemory, hpack, hrun⟩ := Option.bind_eq_some_iff.mp hrun
  obtain ⟨⟨mem, out⟩, hsoft, hrun⟩ := Option.bind_eq_some_iff.mp hrun
  obtain ⟨out1, hgeneric, hpair⟩ := Option.bind_eq_some_iff.mp hsoft
  obtain ⟨rfl, rfl⟩ := Prod.mk.inj (Option.some.inj hpair)
  obtain ⟨d, hunpack, hrun⟩ := Option.bind_eq_some_iff.mp hrun
  obtain ⟨⟨⟩, hcheck, hrun⟩ := Option.bind_eq_some_iff.mp hrun
  have hblock := block_pack hpack
  have hsize : inMemory.size = 6 * 64 := by rw [← hblock, block_size]
  obtain ⟨mem', out', hhw, hmem', hsize', hcells⟩ := viterbiButterfly2Hw_ends hc hmem hblock hgeneric
  have hsame := unpack_congr ((viterbiButterfly2Generic_size hgeneric).trans hsize) hsize' hcells
    s.decoder
  have hdecoder : t.decoder = s.decoder := by rw [heq]
  have hcount : t.inCount = s.inCount := by rw [heq]
  have hcalls : t.calls = s.calls := by rw [heq]
  have hstart : decodeCall (viterbiButterfly2Hw access) verif depunctured t =
      if 0 < s.inCount ∧ s.inCount % 16 = 8 then
        (viterbiGetOutputGeneric d.ntraceback d).bind fun x => storeByte
          { t with decoder := x.1, mem := mem', calls := s.calls + 1 } x.2
      else some { t with decoder := d, mem := mem', calls := s.calls + 1 } := by
    rw [decodeCall, hdecoder, hcount, hcalls, hpack]
    simp only [Option.bind_eq_bind, Option.bind_some, hhw, hsame, hunpack, hcheck]
  rw [hstart]
  simp only at hrun
  split at hrun
  · next hout =>
    obtain ⟨⟨d', c⟩, hget, hstore⟩ := Option.bind_eq_some_iff.mp hrun
    rw [if_pos hout, hget, Option.bind_some]
    refine storeByte_beside ?_ hstore
    exact ⟨by rw [heq], hmem'⟩
  · next hout =>
    obtain rfl := Option.some.inj hrun
    rw [if_neg hout]
    exact ⟨_, rfl, by rw [heq], hmem'⟩

theorem decodeRound_beside (hc : Computes access) {s s' t : Loop} (h : Beside s t)
    (hrun : decodeRound butterfly2Soft verif depunctured s = some s') :
    ∃ t', decodeRound (viterbiButterfly2Hw access) verif depunctured t = some t' ∧
      Beside s' t' := by
  have hcount : t.inCount = s.inCount := by rw [h.1]
  rw [decodeRound] at hrun ⊢
  rw [hcount]
  split at hrun
  · next h4 =>
    obtain ⟨u, hcall, hlast⟩ := Option.bind_eq_some_iff.mp hrun
    obtain rfl := Option.some.inj hlast
    obtain ⟨v, hv, heq, hmem⟩ := decodeCall_beside hc h hcall
    rw [if_pos h4, hv]
    refine ⟨{ v with inCount := v.inCount + 1 }, rfl, ?_, hmem⟩
    rw [heq]
  · next h4 =>
    obtain rfl := Option.some.inj hrun
    rw [if_neg h4]
    refine ⟨{ t with inCount := t.inCount + 1 }, rfl, ?_, h.2⟩
    rw [h.1]

/-- Whenever decode in software has a result, decode on the accelerator has the same one,
whatever its buffer held before. -/
theorem accelerated_decode (hc : Computes access) {fuel : Nat} {mem mem' bits : Buffer UInt8}
    {ofdm : OfdmParam} {frame : FrameParam} {d d' : Decoder} (hmem : 6 * 64 ≤ mem.size)
    (h : decode butterfly2Soft verif fuel mem' ofdm frame bits d = some d') :
    decode (viterbiButterfly2Hw access) verif fuel mem ofdm frame bits d = some d' := by
  rw [decode] at h ⊢
  obtain ⟨d1, hreset, h⟩ := Option.bind_eq_some_iff.mp h
  obtain ⟨⟨d2, depunctured⟩, hdepuncture, h⟩ := Option.bind_eq_some_iff.mp h
  obtain ⟨s, hloop, hlast⟩ := Option.bind_eq_some_iff.mp h
  obtain rfl := Option.some.inj hlast
  have htest (s t : Loop) (hst : Beside s t) : some (decide (t.nDecoded < frame.nDataBits)) =
      some (decide (s.nDecoded < frame.nDataBits)) := by rw [hst.1]
  obtain ⟨t, hrun, heq, -⟩ := whileLoop_follows Beside htest
    (fun s t s' hst => decodeRound_beside hc hst) (t := ⟨d2, mem, 0, 0, 0, 0⟩) ⟨rfl, hmem⟩ hloop
  simp only [hreset, Option.bind_eq_bind, Option.bind_some, hdepuncture, hrun]
  rw [heq]

def modelAccess (mem : Buffer UInt8) : Option (Buffer UInt8) := do
  let out ← viterbiButterfly2Generic (block mem)
  some ⟨mem.size, fun i => if i < 4 * 64 then out.cell i else mem.cell i⟩

theorem modelAccess_computes : Computes modelAccess := by
  intro mem out _ hrun
  refine ⟨⟨mem.size, fun i => if i < 4 * 64 then out.cell i else mem.cell i⟩, ?_, rfl, ?_⟩
  · rw [modelAccess, hrun]
    rfl
  · intro i hi
    exact if_pos hi

theorem accelerated_decode_model : ∃ d',
    decodeOne maxEncodedBits (zeros 0) Decoder.start (thirdsFrame .QAM64_2_3 192 1 100) = some d' ∧
    decode (viterbiButterfly2Hw modelAccess) none maxEncodedBits (zeros 384)
      ⟨.QAM64_2_3, 192⟩ ⟨1, 100⟩ (thirdsFrame .QAM64_2_3 192 1 100).bits Decoder.start =
        some d' := by
  obtain ⟨d', hrun, -⟩ := decodeOne_ends le_rfl start_sound
    (thirdsFrame_valid .QAM64_2_3 (show 100 ≤ 12000 by decide) (show 1 * 192 ≤ 16000 by decide)
      (by decide)) (zeros 0)
  exact ⟨d', hrun, accelerated_decode modelAccess_computes (by decide) hrun⟩

end Decoding

end EspDrivers.Viterbi
