import EspDrivers.ViterbiDepuncture
import EspDrivers.ViterbiLoop

/-! decode as a whole: its loop comes to its end inside the arrays, and every byte it puts out is
read off a path of the best metric. -/
namespace EspDrivers.Viterbi
open Buffers Checked Fills Trellis

section Calls
variable {init : State → Nat} {ntb p0 c : Nat} {s : Loop} {depunctured : Buffer UInt8}

theorem and_mask {n : Nat} (h4 : n % 4 = 0) (hlt : n < 2 ^ 32) : n &&& 0xfffffffc = n := by
  have hn : n = (n / 4) <<< 2 := by
    rw [Nat.shiftLeft_eq]
    omega
  have hmask : (0xfffffffc : Nat) = (2 ^ 30 - 1) <<< 2 := rfl
  rw [hmask]
  nth_rewrite 1 [hn]
  rw [← Nat.shiftLeft_and_distrib, Nat.and_two_pow_sub_one_eq_mod, Nat.mod_eq_of_lt (by omega)]
  exact hn.symm

theorem outputs_succ (h : c % 4 = 2) : outputs (c + 1) = outputs c + 1 := by
  simp only [outputs]
  omega

theorem outputs_same (h : c % 4 ≠ 2) : outputs (c + 1) = outputs c := by
  simp only [outputs]
  omega

structure Readable (depunctured : Buffer UInt8) (c : Nat) : Prop where
  size : depunctured.size = maxEncodedBits
  inside : 4 * c + 64 ≤ maxEncodedBits
  received : ∀ k, 2 * c ≤ k → k < 2 * c + 2 →
    Received (depunctured.cell (2 * k)) (depunctured.cell (2 * k + 1))

/-- A decoder with the metrics of the time `n`, the path words since the time `a` and the rows of
`m` outputs. -/
structure Following (init : State → Nat) (sym : Nat → UInt8) (ntb p0 a n m : Nat) (d : Decoder) :
    Prop where
  shaped : Shaped d
  tabled : Tabled d
  ntraceback : d.ntraceback = ntb
  tracked : Tracked init sym a n d
  ring : Ring init sym ntb p0 m d

theorem Running.advances (h : Running init depunctured.cell ntb p0 c s) (hin : s.inCount = 4 * c)
    (hread : Readable depunctured c) :
    ∃ d, Following init depunctured.cell ntb p0 (8 * outputs c - 2) (2 * c + 2) (outputs c) d ∧
      d.depunctured = s.decoder.depunctured ∧ d.decoded = s.decoder.decoded ∧
      decodeCall butterfly2Soft none depunctured s =
        if 0 < s.inCount ∧ s.inCount % 16 = 8 then
          (viterbiGetOutputGeneric d.ntraceback d).bind fun x =>
            storeByte { s with decoder := x.1, calls := s.calls + 1 } x.2
        else some { s with decoder := d, calls := s.calls + 1 } := by
  have hinside : 4 * c + 64 ≤ 24780 := hread.inside
  have hmask : s.inCount &&& 0xfffffffc = 4 * c := by rw [hin, and_mask (by omega) (by omega)]
  have hm : outputs c = (c + 1) / 4 := rfl
  obtain ⟨mem, hpack, hp⟩ := pack_ends h.shaped
    (fun ti => depunctured.load ((s.inCount &&& 0xfffffffc) + ti))
    (fun ti => depunctured.cell (4 * c + ti)) fun i hi => by
      rw [hmask, Buffer.load_eq (by rw [hread.size]; show _ < 24780; omega)]
  obtain ⟨mem', d, hrun, hunpack, htrack, hd⟩ := called_tracked (by omega) (by omega) h.tracked
    h.tabled hp (fun i _ => by rw [← Nat.mul_assoc]) hread.received h.shaped s.mem
  obtain ⟨hpos, hpp, hnt, hdep, hdec, htab⟩ := hd.rest
  refine ⟨d, ⟨hd.shaped, ⟨?_, ?_⟩, hnt.trans h.ntraceback, htrack, ⟨?_, ?_⟩⟩, hdep, hdec, ?_⟩
  · exact htab ▸ h.tabled.branch0
  · exact htab ▸ h.tabled.branch1
  · exact hpos ▸ h.ring.next
  · exact hpp ▸ h.ring.rows
  · rw [decodeCall, hpack]
    simp only [Option.bind_eq_bind, Option.bind_some, hrun, hunpack, runTimeCheck]

theorem Following.emits {d d' : Decoder} {byte : UInt8} (hc : c % 4 = 2)
    (h : Following init depunctured.cell ntb p0 (8 * outputs c - 2) (2 * c + 2) (outputs c) d)
    (he : Emitted ntb d d' byte) :
    Following init depunctured.cell ntb p0 (8 * outputs (c + 1) - 2) (2 * (c + 1))
      (outputs (c + 1)) d' := by
  have hout : outputs c = (c + 1) / 4 := rfl
  have htime : 2 * c + 2 = 8 * outputs c + 6 := by omega
  have htrack := h.tracked
  rw [htime] at htrack
  obtain ⟨hnt, -, -, -, -, htab⟩ := he.rest
  have hstart : 8 * outputs (c + 1) - 2 = 8 * outputs c + 6 := by
    rw [outputs_succ hc]
    omega
  have hnow : 2 * (c + 1) = 8 * outputs c + 6 := by omega
  refine ⟨he.shaped, ⟨?_, ?_⟩, hnt.trans h.ntraceback, ?_, ?_⟩
  · exact htab ▸ h.tabled.branch0
  · exact htab ▸ h.tabled.branch1
  · rw [hstart, hnow]
    exact emitted_tracked (by omega) htrack he
  · rw [outputs_succ hc]
    exact emitted_ring htrack h.ring he

theorem Running.stores {d d' : Decoder} {byte : UInt8} (h : Running init depunctured.cell ntb p0 c s)
    (hc : c % 4 = 2) (hntb : 2 ≤ ntb) (hlate : ntb ≤ outputs c)
    (hd : Following init depunctured.cell ntb p0 (8 * outputs c - 2) (2 * c + 2) (outputs c) d)
    (hdec : d.decoded = s.decoder.decoded) (he : Emitted ntb d d' byte)
    (hroom : (outputs c - ntb) * 8 + 8 ≤ d'.decoded.size) :
    storeByte { s with decoder := d', calls := s.calls + 1 } byte =
        some (({ s with decoder := d', calls := s.calls + 1 } : Loop).stored byte) ∧
      Running init depunctured.cell ntb p0 (c + 1)
        (({ s with decoder := d', calls := s.calls + 1 } : Loop).stored byte) := by
  have hnew := hd.emits hc he
  obtain ⟨-, -, -, -, hdec', -⟩ := he.rest
  have htime : 2 * c + 2 = 8 * outputs c + 6 := by
    have hout : outputs c = (c + 1) / 4 := rfl
    omega
  have htrack := hd.tracked
  rw [htime] at htrack
  obtain ⟨best, hbest, hbyte⟩ := emitted_byte hntb hlate htrack hd.ring he
  have hwritten : Written init depunctured.cell ntb (outputs c) d'.decoded := by
    rw [hdec', hdec]
    exact h.written
  have hnt := hnew.ntraceback
  refine ⟨storeByte_late ?_ ?_, ⟨⟨he.shaped.mmresult, he.shaped.ppresult, he.shaped.depunctured,
    he.shaped.decoded, he.shaped.branchtab27, he.shaped.metric0, he.shaped.metric1,
    he.shaped.path0, he.shaped.path1⟩, ⟨hnew.tabled.branch0, hnew.tabled.branch1⟩, hnt,
    ⟨hnew.tracked.metric, hnew.tracked.small, hnew.tracked.path⟩,
    ⟨hnew.ring.next, hnew.ring.rows⟩, ?_, ?_, ?_⟩⟩
  · rw [hnt, h.outCount]
    exact hlate
  · rw [hnt, h.outCount]
    exact hroom
  · have hsucc := written_succ hwritten hbest hbyte
    rw [outputs_succ hc]
    simpa only [Loop.stored, hnt, h.outCount] using hsucc
  · rw [outputs_succ hc, ← h.outCount]
    rfl
  · have hcount := h.nDecoded
    rw [outputs_succ hc]
    simp only [Loop.stored]
    omega

theorem Running.drops {d d' : Decoder} {byte : UInt8} (h : Running init depunctured.cell ntb p0 c s)
    (hc : c % 4 = 2) (hearly : outputs c < ntb)
    (hd : Following init depunctured.cell ntb p0 (8 * outputs c - 2) (2 * c + 2) (outputs c) d)
    (he : Emitted ntb d d' byte) :
    storeByte { s with decoder := d', calls := s.calls + 1 } byte =
        some { s with decoder := d', calls := s.calls + 1, outCount := s.outCount + 1 } ∧
      Running init depunctured.cell ntb p0 (c + 1)
        { s with decoder := d', calls := s.calls + 1, outCount := s.outCount + 1 } := by
  have hnew := hd.emits hc he
  have hnt := hnew.ntraceback
  refine ⟨storeByte_early ?_, ⟨he.shaped, hnew.tabled, hnt, hnew.tracked, hnew.ring, ?_, ?_, ?_⟩⟩
  · rw [hnt, h.outCount]
    exact hearly
  · intro q hq hlt
    rw [outputs_succ hc] at hlt
    omega
  · rw [outputs_succ hc, ← h.outCount]
  · have hcount := h.nDecoded
    rw [outputs_succ hc]
    simp only
    omega

theorem Running.passes {d : Decoder} (h : Running init depunctured.cell ntb p0 c s)
    (hc : c % 4 ≠ 2)
    (hd : Following init depunctured.cell ntb p0 (8 * outputs c - 2) (2 * c + 2) (outputs c) d)
    (hdec : d.decoded = s.decoder.decoded) :
    Running init depunctured.cell ntb p0 (c + 1)
      { s with decoder := d, calls := s.calls + 1 } := by
  refine ⟨hd.shaped, hd.tabled, hd.ntraceback, ?_, ?_, ?_, ?_, ?_⟩
  · rw [outputs_same hc]
    exact hd.tracked
  · rw [outputs_same hc]
    exact hd.ring
  · rw [outputs_same hc]
    simp only [hdec]
    exact h.written
  · rw [outputs_same hc]
    exact h.outCount
  · rw [outputs_same hc]
    exact h.nDecoded

theorem decodeCall_ends (h : Running init depunctured.cell ntb p0 c s) (hin : s.inCount = 4 * c)
    (hread : Readable depunctured c) (hntb : 2 ≤ ntb) (hmax : ntb ≤ tracebackMax) :
    ∃ s', decodeCall butterfly2Soft none depunctured s = some s' ∧
      Running init depunctured.cell ntb p0 (c + 1) s' ∧ s'.inCount = s.inCount ∧
      s'.decoder.depunctured = s.decoder.depunctured := by
  obtain ⟨d, hd, hdep, hdec, hcall⟩ := h.advances hin hread
  have hinside : 4 * c + 64 ≤ 24780 := hread.inside
  have hm : outputs c = (c + 1) / 4 := rfl
  by_cases hc : c % 4 = 2
  · have hcond : 0 < s.inCount ∧ s.inCount % 16 = 8 := by omega
    obtain ⟨d', byte, hget, he⟩ := viterbiGetOutputGeneric_ends hd.shaped
      (show 0 < ntb by omega) hmax
    obtain ⟨-, -, -, hdep', -, -⟩ := he.rest
    rw [hcall, if_pos hcond, hd.ntraceback, hget, Option.bind_some]
    by_cases hlate : ntb ≤ outputs c
    · have hroom : (outputs c - ntb) * 8 + 8 ≤ d'.decoded.size := by
        rw [he.shaped.decoded]
        show _ ≤ 24780 * 3 / 4
        omega
      obtain ⟨hstore, hrun⟩ := h.stores hc hntb hlate hd hdec he hroom
      exact ⟨_, hstore, hrun, rfl, hdep'.trans hdep⟩
    · obtain ⟨hstore, hrun⟩ := h.drops hc (by omega) hd he
      exact ⟨_, hstore, hrun, rfl, hdep'.trans hdep⟩
  · have hcond : ¬(0 < s.inCount ∧ s.inCount % 16 = 8) := by omega
    rw [hcall, if_neg hcond]
    exact ⟨_, rfl, h.passes hc hd hdec, rfl, hdep⟩

end Calls

section Resets
variable {d : Decoder} {ofdm : OfdmParam}

theorem partab_polys : ∀ c < 32,
    partab[(2 * c) &&& polys0]? = some (bitByte (label polys0 (2 * c))) ∧
    partab[(2 * c) &&& polys1]? = some (bitByte (label polys1 (2 * c))) := by decide

theorem bitByte_test (bit : Bool) : (if bitByte bit ≠ 0 then 1 else 0) = bitByte bit := by
  cases bit <;> rfl

theorem clear_eq {metric0 path0 : Buffer UInt8} (hm : metric0.size = 64)
    (hp : path0.size = 64) :
    (List.range 4).foldlM (fun (x : Buffer UInt8 × Buffer UInt8) i => do
      some (← x.1.store i 0, ← x.2.store i 0)) (metric0, path0) =
      some (fill metric0 0 4 fun _ => 0, fill path0 0 4 fun _ => 0) := by
  refine foldlM_pair (f := fun (b : Buffer UInt8) i => b.store (0 + i) 0)
    (g := fun (b : Buffer UInt8) i => b.store (0 + i) 0) ?_
    (foldlM_fill 4 (by omega) fun _ _ _ _ _ => rfl)
    (foldlM_fill 4 (by omega) fun _ _ _ _ _ => rfl)
  intro u v j
  rw [Nat.zero_add]
  cases u.store j 0 with
  | none => rfl
  | some u' => cases v.store j 0 <;> simp

theorem branchtab_ends {tab : Buffer UInt8} (h : tab.size = 64) :
    ∃ tab', (List.range 32).foldlM (fun (c : Buffer UInt8) i => do
      let c ← c.store i (if (← partab[(2 * i) &&& polys0]?) ≠ 0 then 1 else 0)
      c.store (32 + i) (if (← partab[(2 * i) &&& polys1]?) ≠ 0 then 1 else 0)) tab = some tab' ∧
        tab'.size = 64 ∧ (∀ c < 32, tab'.cell c = bitByte (label polys0 (2 * c))) ∧
        ∀ c < 32, tab'.cell (32 + c) = bitByte (label polys1 (2 * c)) := by
  refine foldlM_range_ends 32 (fun i (tab : Buffer UInt8) => tab.size = 64 ∧
    (∀ c < i, tab.cell c = bitByte (label polys0 (2 * c))) ∧
    ∀ c < i, tab.cell (32 + c) = bitByte (label polys1 (2 * c))) ⟨h, by simp, by simp⟩ ?_
  intro i hi tab ⟨hsize, h0, h1⟩
  obtain ⟨hpart0, hpart1⟩ := partab_polys i hi
  refine ⟨⟨64, Function.update (Function.update tab.cell i (bitByte (label polys0 (2 * i))))
    (32 + i) (bitByte (label polys1 (2 * i)))⟩, ?_, rfl, ?_, ?_⟩
  · simp only [hpart0, hpart1, Option.bind_eq_bind, Option.bind_some, bitByte_test]
    rw [Buffer.store_eq (by omega), Option.bind_some, Buffer.store_eq (by simp only; omega)]
    simp only [hsize]
  · intro c hc
    obtain hold | rfl : c < i ∨ c = i := by omega
    · simp only [Function.update_of_ne (show c ≠ 32 + i by omega), Function.update_of_ne hold.ne]
      exact h0 c hold
    · simp only [Function.update_of_ne (show c ≠ 32 + c by omega), Function.update_self]
  · intro c hc
    obtain hold | rfl : c < i ∨ c = i := by omega
    · simp only [Function.update_of_ne (show 32 + c ≠ 32 + i by omega),
        Function.update_of_ne (show 32 + c ≠ i by omega)]
      exact h1 c hold
    · simp only [Function.update_self]

theorem results_ends {mmresult ppresult : Buffer UInt8} (hm : mmresult.size = 64)
    (hp : ppresult.size = tracebackMax * 64) :
    ∃ x, (List.range 64).foldlM (fun (x : Buffer UInt8 × Buffer UInt8) i => do
      let mmresult ← x.1.store i 0
      let ppresult ← (List.range tracebackMax).foldlM (fun p j => p.store (64 * j + i) 0) x.2
      some (mmresult, ppresult)) (mmresult, ppresult) = some x ∧
        x.1.size = 64 ∧ x.2.size = tracebackMax * 64 := by
  refine foldlM_range_ends 64 (fun _ (x : Buffer UInt8 × Buffer UInt8) =>
    x.1.size = 64 ∧ x.2.size = tracebackMax * 64) ⟨hm, hp⟩ ?_
  intro i hi x ⟨hx1, hx2⟩
  obtain ⟨pp, hrun, hsize⟩ : ∃ pp, (List.range tracebackMax).foldlM
      (fun (p : Buffer UInt8) j => p.store (64 * j + i) 0) x.2 = some pp ∧
        pp.size = tracebackMax * 64 := by
    refine foldlM_range_ends tracebackMax (fun _ (p : Buffer UInt8) => p.size = _) hx2 ?_
    intro j hj p hp
    exact ⟨_, Buffer.store_eq (by omega) 0, hp⟩
  refine ⟨(⟨64, Function.update x.1.cell i 0⟩, pp), ?_, rfl, hsize⟩
  simp only [hrun, Option.bind_eq_bind, Option.bind_some]
  rw [Buffer.store_eq (by omega), Option.bind_some, hx1]

/-- The metrics and the paths of four states only are cleared. -/
structure Reset (ofdm : OfdmParam) (d d' : Decoder) : Prop where
  shaped : Shaped d'
  tabled : Tabled d'
  metric : ∀ s < 64, d'.metric0.cell s = if s < 4 then 0 else d.metric0.cell s
  path : ∀ s < 64, d'.path0.cell s = if s < 4 then 0 else d.path0.cell s
  settings : (d'.ntraceback, d'.depuncturePattern, d'.k) = ofdm.encoding.settings
  rest : d'.storePos = d.storePos ∧ d'.depunctured = d.depunctured ∧ d'.decoded = d.decoded

theorem reset_ends (h : Shaped d) (ofdm : OfdmParam) :
    ∃ d', reset ofdm d = some d' ∧ Reset ofdm d d' := by
  have hclear := clear_eq h.metric0 h.path0
  obtain ⟨tab, htab, hsize, h0, h1⟩ := branchtab_ends h.branchtab27
  obtain ⟨⟨mm, pp⟩, hresults, hmm, hpp⟩ := results_ends h.mmresult h.ppresult
  have hfill (b : Buffer UInt8) (s : Nat) :
      (fill b 0 4 fun _ => 0).cell s = if s < 4 then 0 else b.cell s := by
    by_cases hs : s < 4 <;> simp [fill, hs]
  refine ⟨{ d with
    metric0 := fill d.metric0 0 4 fun _ => 0, path0 := fill d.path0 0 4 fun _ => 0
    branchtab27 := tab, mmresult := mm, ppresult := pp
    ntraceback := ofdm.encoding.settings.1
    depuncturePattern := ofdm.encoding.settings.2.1
    k := ofdm.encoding.settings.2.2 }, ?_, ?_⟩
  · simp only [Option.bind_eq_bind] at hclear htab hresults
    rw [reset, viterbiChunksInitGeneric]
    simp only [Option.bind_eq_bind]
    rw [hclear, Option.bind_some, htab, Option.bind_some, hresults]
    rfl
  · refine ⟨⟨hmm, hpp, h.depunctured, h.decoded, hsize, h.metric0, h.metric1, h.path0, h.path1⟩,
      ⟨h0, h1⟩, ?_, ?_, rfl, rfl, rfl, rfl⟩
    · exact fun s _ => hfill d.metric0 s
    · exact fun s _ => hfill d.path0 s

theorem settings_patterned (e : Encoding) : 0 < e.settings.2.2 ∧
    e.settings.2.1.length = 2 * e.settings.2.2 ∧ Keeps e.settings.2.1 0 ∧
    Keeps e.settings.2.1 maxEncodedBits ∧ 2 ≤ e.settings.1 ∧ e.settings.1 ≤ tracebackMax := by
  cases e <;> decide

theorem keeps_all {e : Encoding} (h : e.settings.1 = 5) (p : Nat) : Keeps e.settings.2.1 p := by
  have hpattern : e.settings.2.1 = puncture12 := by
    cases e <;> first | rfl | exact absurd h (by decide)
  rw [hpattern]
  change puncture12.getD (p % 2) 0 ≠ 0
  cases Nat.mod_two_eq_zero_or_one p with
  | inl heven => rw [heven]; decide
  | inr hodd => rw [hodd]; decide

theorem Reset.selected {ofdm : OfdmParam} {d d' : Decoder} (h : Reset ofdm d d') :
    d'.ntraceback = ofdm.encoding.settings.1 ∧
      d'.depuncturePattern = ofdm.encoding.settings.2.1 ∧ d'.k = ofdm.encoding.settings.2.2 := by
  have hset := h.settings
  exact ⟨congrArg Prod.fst hset, congrArg (·.2.1) hset, congrArg (·.2.2) hset⟩

end Resets

section Rounds
variable {init : State → Nat} {ntb p0 n : Nat} {s : Loop} {depunctured : Buffer UInt8}

theorem decodeRound_ends (h : Running init depunctured.cell ntb p0 ((s.inCount + 3) / 4) s)
    (hread : s.inCount % 4 = 0 → Readable depunctured (s.inCount / 4)) (hntb : 2 ≤ ntb)
    (hmax : ntb ≤ tracebackMax) :
    ∃ s', decodeRound butterfly2Soft none depunctured s = some s' ∧
      Running init depunctured.cell ntb p0 ((s'.inCount + 3) / 4) s' ∧
      s'.inCount = s.inCount + 1 ∧ s'.decoder.depunctured = s.decoder.depunctured := by
  by_cases h4 : s.inCount % 4 = 0
  · have hc : (s.inCount + 3) / 4 = s.inCount / 4 := by omega
    have hnext : (s.inCount + 1 + 3) / 4 = s.inCount / 4 + 1 := by omega
    rw [hc] at h
    obtain ⟨t, hrun, ht, hin, hdep⟩ := decodeCall_ends h (by omega) (hread h4) hntb hmax
    refine ⟨{ t with inCount := t.inCount + 1 }, ?_, ?_, congrArg (· + 1) hin, hdep⟩
    · rw [decodeRound, if_pos h4, hrun]
      rfl
    · simp only [hin, hnext]
      exact ⟨ht.shaped, ht.tabled, ht.ntraceback, ht.tracked, ht.ring, ht.written, ht.outCount,
        ht.nDecoded⟩
  · have hnext : (s.inCount + 1 + 3) / 4 = (s.inCount + 3) / 4 := by omega
    refine ⟨{ s with inCount := s.inCount + 1 }, ?_, ?_, rfl, rfl⟩
    · rw [decodeRound, if_neg h4]
      rfl
    · simp only [hnext]
      exact ⟨h.shaped, h.tabled, h.ntraceback, h.tracked, h.ring, h.written, h.outCount, h.nDecoded⟩

def frameOutputs (ntb n : Nat) : Nat := if n = 0 then 0 else ntb + (n + 7) / 8

theorem decodeLoop_ends (h : Running init depunctured.cell ntb p0 0 s) (hin : s.inCount = 0)
    (hsize : depunctured.size = maxEncodedBits)
    (hfits : 16 * frameOutputs ntb n + 56 ≤ maxEncodedBits)
    (hrec : ∀ k < 8 * frameOutputs ntb n - 2,
      Received (depunctured.cell (2 * k)) (depunctured.cell (2 * k + 1)))
    (hntb : 2 ≤ ntb) (hmax : ntb ≤ tracebackMax) :
    ∃ t c, (∀ fuel, 16 * frameOutputs ntb n < fuel →
        whileLoop (fun s : Loop => some (decide (s.nDecoded < n)))
          (decodeRound butterfly2Soft none depunctured) fuel s = some t) ∧
      Running init depunctured.cell ntb p0 c t ∧ outputs c = frameOutputs ntb n ∧
      2 * c = 8 * frameOutputs ntb n - 2 ∧ t.decoder.depunctured = s.decoder.depunctured := by
  have hzero : n = 0 → frameOutputs ntb n = 0 := fun h => if_pos h
  have hpos : n ≠ 0 → frameOutputs ntb n = ntb + (n + 7) / 8 := fun h => if_neg h
  have hout (c : Nat) : outputs c = (c + 1) / 4 := rfl
  have hround (t : Loop) (ht : Running init depunctured.cell ntb p0 ((t.inCount + 3) / 4) t ∧
      t.inCount ≤ 16 * frameOutputs ntb n - 7 ∧
      t.decoder.depunctured = s.decoder.depunctured) :
      some (decide (t.nDecoded < n)) = some false ∨ some (decide (t.nDecoded < n)) = some true ∧
        ∃ u, decodeRound butterfly2Soft none depunctured t = some u ∧
          (Running init depunctured.cell ntb p0 ((u.inCount + 3) / 4) u ∧
            u.inCount ≤ 16 * frameOutputs ntb n - 7 ∧
            u.decoder.depunctured = s.decoder.depunctured) ∧
          16 * frameOutputs ntb n - u.inCount < 16 * frameOutputs ntb n - t.inCount := by
    obtain ⟨hrun, hle, hdep⟩ := ht
    by_cases hgo : t.nDecoded < n
    · have hn : n ≠ 0 := by omega
      have hF := hpos hn
      have hcount := hrun.nDecoded
      rw [hout] at hcount
      have hread (h4 : t.inCount % 4 = 0) : Readable depunctured (t.inCount / 4) :=
        ⟨hsize, by omega, fun k _ hk => hrec k (by omega)⟩
      obtain ⟨u, hu, hrun', hin', hdep'⟩ := decodeRound_ends hrun hread hntb hmax
      exact Or.inr ⟨by simp [hgo], u, hu, ⟨hrun', by omega, hdep'.trans hdep⟩, by omega⟩
    · exact Or.inl (by simp [hgo])
  have hstart : Running init depunctured.cell ntb p0 ((s.inCount + 3) / 4) s := by
    rw [hin]
    exact h
  obtain ⟨t, hrun, ⟨ht, hle, hdep⟩, hstop⟩ := whileLoop_ends _
    (fun t : Loop => 16 * frameOutputs ntb n - t.inCount) hround ⟨hstart, by omega, rfl⟩
  have hdone : n ≤ t.nDecoded := by simpa using hstop
  have hcount := ht.nDecoded
  rw [hout] at hcount
  refine ⟨t, (t.inCount + 3) / 4, ?_, ht, ?_, ?_, hdep⟩
  · intro fuel hfuel
    exact hrun fuel (by rw [hin]; omega)
  · by_cases hn : n = 0
    · have hF := hzero hn
      rw [hout]
      omega
    · have hF := hpos hn
      rw [hout]
      omega
  · by_cases hn : n = 0
    · have hF := hzero hn
      omega
    · have hF := hpos hn
      omega

end Rounds

section Frames
variable {ofdm : OfdmParam} {frame : FrameParam} {d : Decoder} {bits : Buffer UInt8}

structure Ready (d : Decoder) : Prop where
  shaped : Shaped d
  metric : ∀ s < 64, (d.metric0.cell s).toNat ≤ 12
  path : ∀ s < 64, d.path0.cell s = 0

/-- The metrics that a frame starts from: those of the frame before, but for four states. -/
def startMetrics (d : Decoder) (s : State) : Nat :=
  if s.val < 4 then 0 else (d.metric0.cell s).toNat

def stream (e : Encoding) (n : Nat) (bits old : Nat → UInt8) : Nat → UInt8 :=
  if e.settings.1 = 5 then bits else symbolAt e.settings.2.1 bits old n

/-- The frame fits in the arrays, and no step has two erasures. -/
structure Decodable (ofdm : OfdmParam) (frame : FrameParam) (bits : Buffer UInt8) (d : Decoder) :
    Prop where
  size : bits.size = maxEncodedBits
  fits : 16 * frameOutputs ofdm.encoding.settings.1 frame.nDataBits + 56 ≤ maxEncodedBits
  coded : ofdm.encoding.settings.1 ≠ 5 →
    frame.nSym * ofdm.nCbps ≤ sent ofdm.encoding.settings.2.1 maxEncodedBits
  received : ∀ k < 8 * frameOutputs ofdm.encoding.settings.1 frame.nDataBits - 2,
    Received (stream ofdm.encoding (frame.nSym * ofdm.nCbps) bits.cell d.depunctured.cell (2 * k))
      (stream ofdm.encoding (frame.nSym * ofdm.nCbps) bits.cell d.depunctured.cell (2 * k + 1))

structure Outcome (ofdm : OfdmParam) (frame : FrameParam) (bits : Buffer UInt8) (d d' : Decoder) :
    Prop where
  ready : Ready d'
  written : Written (startMetrics d) (stream ofdm.encoding (frame.nSym * ofdm.nCbps) bits.cell
    d.depunctured.cell) ofdm.encoding.settings.1
    (frameOutputs ofdm.encoding.settings.1 frame.nDataBits) d'.decoded
  metric : ∃ base, ∀ s : State, (d'.metric0.cell s).toNat + base =
    metrics (startMetrics d) (stream ofdm.encoding (frame.nSym * ofdm.nCbps) bits.cell
      d.depunctured.cell) (8 * frameOutputs ofdm.encoding.settings.1 frame.nDataBits - 2) s
  depunctured : d'.depunctured.cell = if ofdm.encoding.settings.1 = 5 then d.depunctured.cell
    else stream ofdm.encoding (frame.nSym * ofdm.nCbps) bits.cell d.depunctured.cell

/-- The symbols come from the bits themselves, or from depuncture. -/
theorem symbols_ends {d1 : Decoder} (hreset : Reset ofdm d d1) (h : Decodable ofdm frame bits d) :
    ∃ d2 b, depuncture ofdm frame d1 bits = some (d2, b) ∧ b.size = maxEncodedBits ∧
      b.cell = stream ofdm.encoding (frame.nSym * ofdm.nCbps) bits.cell d.depunctured.cell ∧
      d2 = { d1 with depunctured := if ofdm.encoding.settings.1 = 5 then d.depunctured else b } := by
  obtain ⟨hnt, hpat, hk⟩ := hreset.selected
  obtain ⟨hpos, hlen, hfirst, hstop, -⟩ := settings_patterned ofdm.encoding
  obtain ⟨-, hdep, -⟩ := hreset.rest
  have hdsize := hreset.shaped.depunctured
  by_cases h5 : ofdm.encoding.settings.1 = 5
  · refine ⟨d1, bits, ?_, h.size, ?_, ?_⟩
    · rw [depuncture, if_pos (hnt.trans h5)]
    · rw [stream, if_pos h5]
    · rw [if_pos h5, ← hdep]
  · have hpatterned : Patterned d1 := ⟨hk ▸ hpos, by rw [hpat, hk]; exact hlen, hpat ▸ hfirst⟩
    have hcoded := h.coded h5
    obtain ⟨b, hrun, hsize, hcell⟩ := depuncture_ends ofdm frame bits
      hpatterned (hnt ▸ h5) (by rw [hdsize, hpat]; exact hstop) (by
        rw [h.size]
        exact hcoded.trans (Nat.count_le _)) (by rw [hdsize, hpat]; exact hcoded)
    refine ⟨_, b, hrun, hsize.trans hdsize, ?_, ?_⟩
    · rw [stream, if_neg h5]
      funext p
      rw [hcell p, hpat, hdep]
    · rw [if_neg h5]

/-- reset and depuncture undo the puncturing: what was transmitted is back where it came from, and
everything else is erased. -/
theorem depuncture_inverts (hd : Shaped d) {code : Nat → UInt8} {P : Nat}
    (hsize : bits.size = maxEncodedBits) (hP : P ≤ maxEncodedBits)
    (hn : frame.nSym * ofdm.nCbps = sent ofdm.encoding.settings.2.1 P)
    (hbits : ∀ i, ∀ c ∈ (puncture ofdm.encoding.settings.2.1 code P)[i]?, bits.cell i = c) :
    ∃ d1 d2 b, reset ofdm d = some d1 ∧ depuncture ofdm frame d1 bits = some (d2, b) ∧
      ∀ p < P, b.cell p = if Keeps ofdm.encoding.settings.2.1 p then code p else 2 := by
  obtain ⟨d1, hreset, hr⟩ := reset_ends hd ofdm
  obtain ⟨hpos, hlen, hfirst, hstop, -⟩ := settings_patterned ofdm.encoding
  obtain ⟨hnt, hpat, hk⟩ := hr.selected
  have hsent (p : Nat) (hp : p < P) (hkeeps : Keeps ofdm.encoding.settings.2.1 p) :
      bits.cell (sent ofdm.encoding.settings.2.1 p) = code p :=
    hbits _ _ (getElem?_puncture hp hkeeps)
  by_cases h5 : ofdm.encoding.settings.1 = 5
  · refine ⟨d1, d1, bits, hreset, ?_, ?_⟩
    · rw [depuncture, if_pos (hnt.trans h5)]
    · intro p hp
      have hsame : sent ofdm.encoding.settings.2.1 p = p :=
        Nat.count_iff_forall.mpr fun i _ => keeps_all h5 i
      rw [if_pos (keeps_all h5 p), ← hsent p hp (keeps_all h5 p), hsame]
  · have hpatterned : Patterned d1 := ⟨hk ▸ hpos, by rw [hpat, hk]; exact hlen, hpat ▸ hfirst⟩
    have hdsize := hr.shaped.depunctured
    have hmono := sent_mono ofdm.encoding.settings.2.1 hP
    have hfit : frame.nSym * ofdm.nCbps ≤ sent d1.depuncturePattern d1.depunctured.size := by
      rw [hdsize, hpat, hn]
      exact hmono
    obtain ⟨b, hrun, -, hcell⟩ := depuncture_ends ofdm frame bits hpatterned (hnt ▸ h5)
      (by rw [hdsize, hpat]; exact hstop) (by
        rw [hsize, hn]
        exact hmono.trans (Nat.count_le _)) hfit
    refine ⟨d1, _, b, hreset, hrun, ?_⟩
    intro p hp
    have hbefore : sent ofdm.encoding.settings.2.1 (p + 1) ≤ frame.nSym * ofdm.nCbps := by
      rw [hn]
      exact sent_mono _ hp
    rw [hcell p, hpat, symbolAt, if_pos hbefore]
    split
    · next hkeeps => exact hsent p hp hkeeps
    · rfl

theorem depuncture_inverts_eight : ∃ d1 d2 b,
    reset ⟨.BPSK_3_4, 8⟩ Decoder.start = some d1 ∧
    depuncture ⟨.BPSK_3_4, 8⟩ ⟨1, 12⟩ d1
      ⟨maxEncodedBits, fun i => ([1, 0, 1, 1, 0, 1, 1, 0] : List UInt8).getD i 0⟩ = some (d2, b) ∧
    ∀ p < 12, b.cell p = if Keeps puncture34 p then
      ([1, 0, 1, 0, 1, 1, 0, 1, 1, 1, 0, 0] : List UInt8).getD p 0 else 2 := by
  refine depuncture_inverts (P := 12)
    ⟨rfl, rfl, rfl, rfl, rfl, rfl, rfl, rfl, rfl⟩ rfl (by decide) (by decide) ?_
  intro i c hc
  have height : puncture puncture34 (fun p =>
      ([1, 0, 1, 0, 1, 1, 0, 1, 1, 1, 0, 0] : List UInt8).getD p 0) 12 =
        [1, 0, 1, 1, 0, 1, 1, 0] := by decide
  change (puncture puncture34 _ 12)[i]? = some c at hc
  rw [height] at hc
  simp only [List.getD_eq_getElem?_getD, hc, Option.getD_some]

theorem decode_ends (hd : Ready d) (h : Decodable ofdm frame bits d) (mem : Buffer UInt8) :
    ∃ d', (∀ fuel, 16 * frameOutputs ofdm.encoding.settings.1 frame.nDataBits < fuel →
        decode butterfly2Soft none fuel mem ofdm frame bits d = some d') ∧
      Outcome ofdm frame bits d d' := by
  obtain ⟨d1, hreset, hr⟩ := reset_ends hd.shaped ofdm
  obtain ⟨d2, b, hdepuncture, hsize, hcell, hd2⟩ := symbols_ends hr h
  obtain ⟨-, -, -, -, hntb, hmax⟩ := settings_patterned ofdm.encoding
  have hnt : d1.ntraceback = ofdm.encoding.settings.1 := congrArg Prod.fst hr.settings
  have hstart : Running (startMetrics d) b.cell ofdm.encoding.settings.1 d.storePos 0
      ⟨d2, mem, 0, 0, 0, 0⟩ := by
    subst hd2
    refine ⟨⟨hr.shaped.mmresult, hr.shaped.ppresult, ?_, hr.shaped.decoded, hr.shaped.branchtab27,
      hr.shaped.metric0, hr.shaped.metric1, hr.shaped.path0, hr.shaped.path1⟩,
      ⟨hr.tabled.branch0, hr.tabled.branch1⟩, hnt, ⟨⟨0, ?_⟩, ?_, ?_⟩,
      ⟨by simp only [hr.rest.1]; rfl, fun q hq => absurd hq (Nat.not_lt_zero q)⟩,
      fun q _ hq => absurd hq (Nat.not_lt_zero q), rfl, (Nat.zero_sub _).symm ▸ rfl⟩
    · simp only
      split
      · exact hd.shaped.depunctured
      · exact hsize
    · intro s
      simp only [hr.metric s s.isLt, Nat.add_zero, metrics, startMetrics]
      split <;> rfl
    · intro s
      have hle := hd.metric s s.isLt
      simp only [hr.metric s s.isLt]
      split
      · exact Nat.zero_le _
      · omega
    · intro s
      simp only [hr.path s s.isLt, hd.path s s.isLt, ite_self]
      rfl
  have hrec := h.received
  rw [← hcell] at hrec
  obtain ⟨t, c, hloop, ht, hout, htime, hdep⟩ := decodeLoop_ends hstart rfl hsize h.fits hrec hntb
    hmax
  have hsmall := ht.tracked.small
  have hpath := ht.tracked.path
  have hwritten := ht.written
  obtain ⟨base, hbase⟩ := ht.tracked.metric
  rw [hout, hcell] at hwritten
  rw [hout, htime] at hsmall hpath
  rw [htime, hcell] at hbase
  refine ⟨t.decoder, ?_, ⟨⟨ht.shaped, ?_, ?_⟩, hwritten, ⟨base, hbase⟩, ?_⟩⟩
  · intro fuel hfuel
    rw [decode, hreset]
    simp only [Option.bind_eq_bind, Option.bind_some, hdepuncture, hloop fuel hfuel]
  · intro s hs
    have hle := hsmall ⟨s, hs⟩
    rwa [Nat.sub_self, Nat.mul_zero, Nat.add_zero] at hle
  · intro s hs
    have hword := hpath ⟨s, hs⟩
    rw [pathWord_of_le le_rfl] at hword
    exact UInt8.toNat_inj.mp hword
  · rw [hdep, hd2]
    simp only
    split
    · rfl
    · exact hcell

end Frames

end EspDrivers.Viterbi
