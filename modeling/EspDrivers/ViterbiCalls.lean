import EspDrivers.ViterbiOutput
import EspDrivers.ViterbiPaths

/-! What a call of the butterflies and an output do to metrics, paths and the ring of the last
paths, against the metrics in exact arithmetic and the way back through their survivors. -/
namespace EspDrivers.Viterbi
open Buffers Checked Fills Trellis

section Copies
variable {d : Decoder} {mem : Buffer UInt8}

theorem copyIn_eq {src : Nat → Option UInt8} {f : Nat → UInt8} {n imi : Nat}
    (h : imi + n ≤ mem.size) (hsrc : ∀ i < n, src i = some (f i)) :
    copyIn src n imi mem = some (fill mem imi n f) :=
  foldlM_fill_values h hsrc

theorem copyOut_eq {imi : Nat} {dst : Buffer UInt8} (h : imi + 64 ≤ mem.size)
    (hdst : dst.size = 64) :
    copyOut mem imi dst = some (fill dst 0 64 fun i => mem.cell (imi + i)) := by
  have hloop : (List.range 64).foldlM (fun (c : Buffer UInt8) ti => do
      c.store (0 + ti) (← mem.load (imi + ti))) dst =
      some (fill dst 0 64 fun i => mem.cell (imi + i)) :=
    foldlM_fill_values (by omega) fun i hi => Buffer.load_eq (by omega)
  simp only [Nat.zero_add] at hloop
  exact hloop

structure Packed (d : Decoder) (symbols : Nat → UInt8) (mem : Buffer UInt8) : Prop where
  size : mem.size = 6 * 64
  metric : ∀ i < 64, mem.cell i = d.metric0.cell i
  path : ∀ i < 64, mem.cell (128 + i) = d.path0.cell i
  branch : ∀ i < 64, mem.cell (256 + i) = d.branchtab27.cell i
  symbols : ∀ i < 64, mem.cell (320 + i) = symbols i

theorem pack_ends (h : Shaped d) (symbols : Nat → Option UInt8) (f : Nat → UInt8)
    (hsym : ∀ i < 64, symbols i = some (f i)) :
    ∃ mem, pack d symbols = some mem ∧ Packed d f mem := by
  have hm0 := h.metric0
  have hm1 := h.metric1
  have hp0 := h.path0
  have hp1 := h.path1
  have hb := h.branchtab27
  let b0 := fill (zeros (6 * 64)) 0 64 d.metric0.cell
  let b1 := fill b0 64 64 d.metric1.cell
  let b2 := fill b1 128 64 d.path0.cell
  let b3 := fill b2 192 64 d.path1.cell
  let b4 := fill b3 256 64 d.branchtab27.cell
  have hload {src : Buffer UInt8} (hsrc : src.size = 64) (i : Nat) (hi : i < 64) :
      src.load i = some (src.cell i) := Buffer.load_eq (by omega)
  have h0 : copyIn d.metric0.load 64 0 (zeros (6 * 64)) = some b0 :=
    copyIn_eq (by decide) (hload hm0)
  have h1 : copyIn d.metric1.load 64 64 b0 = some b1 :=
    copyIn_eq (show 64 + 64 ≤ 6 * 64 by decide) (hload hm1)
  have h2 : copyIn d.path0.load 64 128 b1 = some b2 :=
    copyIn_eq (show 128 + 64 ≤ 6 * 64 by decide) (hload hp0)
  have h3 : copyIn d.path1.load 64 192 b2 = some b3 :=
    copyIn_eq (show 192 + 64 ≤ 6 * 64 by decide) (hload hp1)
  have h4 : (List.range 2).foldlM (fun (inMemory : Buffer UInt8) ti =>
      copyIn (fun tj => d.branchtab27.load (32 * ti + tj)) 32 (256 + 32 * ti) inMemory) b3 =
      some b4 := by
    have hloop : (List.range (2 * 32)).foldlM (fun (c : Buffer UInt8) i => do
        c.store (256 + i) (← d.branchtab27.load i)) b3 = some b4 :=
      foldlM_fill_values (show 256 + 2 * 32 ≤ 6 * 64 by decide) (hload hb)
    rw [← hloop, ← foldlM_range_nest]
    refine foldlM_congr ?_ b3
    intro ti _ c
    simp only [copyIn, Nat.add_assoc, Nat.mul_comm 32 ti]
  have h5 : copyIn symbols 64 320 b4 = some (fill b4 320 64 f) :=
    copyIn_eq (show 320 + 64 ≤ 6 * 64 by decide) hsym
  refine ⟨fill b4 320 64 f, ?_, ?_⟩
  · rw [pack, h0, Option.bind_eq_bind, Option.bind_some, h1, Option.bind_some, h2,
      Option.bind_some, h3, Option.bind_some, h4, Option.bind_some, h5]
  · constructor
    · rfl
    · intro i hi
      have hcell : b0.cell (0 + i) = d.metric0.cell i := fill_inside hi
      rw [fill_outside (by omega), fill_outside (by omega), fill_outside (by omega),
        fill_outside (by omega), fill_outside (by omega), ← hcell, Nat.zero_add]
    · intro i hi
      rw [fill_outside (by omega), fill_outside (by omega), fill_outside (by omega)]
      exact fill_inside hi
    · intro i hi
      rw [fill_outside (by omega)]
      exact fill_inside hi
    · intro i hi
      exact fill_inside hi

structure Unpacked (mem : Buffer UInt8) (d d' : Decoder) : Prop where
  shaped : Shaped d'
  metric : ∀ i < 64, d'.metric0.cell i = mem.cell i
  path : ∀ i < 64, d'.path0.cell i = mem.cell (128 + i)
  rest : d'.storePos = d.storePos ∧ d'.ppresult = d.ppresult ∧ d'.ntraceback = d.ntraceback ∧
    d'.depunctured = d.depunctured ∧ d'.decoded = d.decoded ∧ d'.branchtab27 = d.branchtab27

theorem unpack_ends (h : Shaped d) (hsize : mem.size = 6 * 64) :
    ∃ d', unpack mem d = some d' ∧ Unpacked mem d d' := by
  have hinside (dst : Buffer UInt8) (imi i : Nat) (hi : i < 64) :
      (fill dst 0 64 fun i => mem.cell (imi + i)).cell i = mem.cell (imi + i) := by
    have hcell : (fill dst 0 64 fun i => mem.cell (imi + i)).cell (0 + i) = mem.cell (imi + i) :=
      fill_inside hi
    rwa [Nat.zero_add] at hcell
  refine ⟨{ d with
    metric0 := fill d.metric0 0 64 fun i => mem.cell (0 + i)
    metric1 := fill d.metric1 0 64 fun i => mem.cell (64 + i)
    path0 := fill d.path0 0 64 fun i => mem.cell (128 + i)
    path1 := fill d.path1 0 64 fun i => mem.cell (192 + i) }, ?_, ?_⟩
  · rw [unpack, copyOut_eq (by omega) h.metric0, copyOut_eq (by omega) h.metric1,
      copyOut_eq (by omega) h.path0, copyOut_eq (by omega) h.path1]
    rfl
  · refine ⟨⟨h.mmresult, h.ppresult, h.depunctured, h.decoded, h.branchtab27, h.metric0, h.metric1,
      h.path0, h.path1⟩, ?_, ?_, rfl, rfl, rfl, rfl, rfl, rfl⟩
    · intro i hi
      rw [hinside _ _ _ hi, Nat.zero_add]
    · exact fun i hi => hinside _ _ _ hi

end Copies

section Metrics
variable {init : State → Nat} {sym : Nat → UInt8} {a n : Nat} {d d' : Decoder}

structure Tabled (d : Decoder) : Prop where
  branch0 : ∀ c < 32, d.branchtab27.cell c = bitByte (label polys0 (2 * c))
  branch1 : ∀ c < 32, d.branchtab27.cell (32 + c) = bitByte (label polys1 (2 * c))

/-- The metrics of the time `n`, less a constant, and the path words since the time `a`. -/
structure Tracked (init : State → Nat) (sym : Nat → UInt8) (a n : Nat) (d : Decoder) : Prop where
  metric : ∃ base, ∀ s : State, (d.metric0.cell s).toNat + base = metrics init sym n s
  small : ∀ s : State, (d.metric0.cell s).toNat ≤ 12 + 2 * (n - a)
  path : ∀ s : State, (d.path0.cell s).toNat = pathWord (survivors init sym) a n s

theorem extend_eq {m m' path : State → Nat} {c : Nat} (ha : a ≤ n)
    (hm : ∀ s, m' s + c = m s) (hmet : m = metrics init sym n)
    (hpath : path = pathWord (survivors init sym) a n) (s : State) :
    extend m' path ((received sym).gain n) s = pathWord (survivors init sym) a (n + 1) s := by
  have hselect := (addCompareSelect_add hm ((received sym).gain n) s).2
  rw [extend, hselect, pathWord_succ ha, hpath, hmet]
  rfl

theorem called_tracked {mem : Buffer UInt8} {symbols : Nat → UInt8} (ha : a ≤ n)
    (hroom : n - a ≤ 6) (ht : Tracked init sym a n d) (htab : Tabled d)
    (hpack : Packed d symbols mem) (hsym : ∀ i < 4, symbols i = sym (2 * n + i))
    (hrec : ∀ k, n ≤ k → k < n + 2 → Received (sym (2 * k)) (sym (2 * k + 1)))
    (hshaped : Shaped d) (mem0 : Buffer UInt8) :
    ∃ mem' d', butterfly2Soft mem0 mem = some (mem0, mem') ∧ unpack mem' d = some d' ∧
      Tracked init sym a (n + 2) d' ∧ Unpacked mem' d d' := by
  obtain ⟨base, hbase⟩ := ht.metric
  have hblock : Block mem := by
    constructor
    · exact hpack.size
    · intro c hc
      rw [hpack.branch c (by omega)]
      exact htab.branch0 c hc
    · intro c hc
      have hadd : 288 + c = 256 + (32 + c) := by omega
      rw [hadd, hpack.branch _ (by omega)]
      exact htab.branch1 c hc
  have hword (s : State) : (d.path0.cell s).toNat < 64 := by
    have hlt := pathWord_lt (survivors init sym) a n s
    have hpow : 2 ^ (n - a) ≤ 2 ^ 6 := Nat.pow_le_pow_right (by omega) hroom
    rw [ht.path s]
    omega
  have hsmall (s : State) : (d.metric0.cell s).toNat ≤ 251 := by
    have hle := ht.small s
    omega
  have hfour (i : Nat) (hi : i < 4) : mem.cell (320 + i) = sym (2 * n + i) := by
    rw [hpack.symbols i (by omega), hsym i hi]
  obtain ⟨mem', hrun, hcall⟩ := viterbiButterfly2Generic_ends (a := sym (2 * n))
    (b := sym (2 * n + 1)) (c := sym (2 * (n + 1))) (d := sym (2 * (n + 1) + 1)) hblock
    (fun s => congrArg UInt8.toNat (hpack.metric s s.isLt))
    (fun s => congrArg UInt8.toNat (hpack.path s s.isLt)) hsmall hword (hfour 0 (by omega))
    (hfour 1 (by omega)) (hfour 2 (by omega)) (hfour 3 (by omega))
    (hrec n le_rfl (by omega)) (hrec (n + 1) (by omega) (by omega))
  obtain ⟨d', hunpack, hd⟩ := unpack_ends hshaped (hcall.size.trans hpack.size)
  -- the two steps in exact arithmetic
  have hone (s : State) := (addCompareSelect_add hbase ((received sym).gain n) s).1
  have htwo (s : State) := (addCompareSelect_add hone ((received sym).gain (n + 1)) s).1
  refine ⟨mem', d', ?_, hunpack, ⟨⟨base, ?_⟩, ?_, ?_⟩, hd⟩
  · rw [butterfly2Soft, hrun]
    rfl
  · intro s
    rw [hd.metric s s.isLt, hcall.metric s]
    exact htwo s
  · intro s
    have hfirst := addCompareSelect_le ht.small (sym (2 * n)) (sym (2 * n + 1))
    have hle := addCompareSelect_le hfirst (sym (2 * (n + 1))) (sym (2 * (n + 1) + 1)) s
    rw [hd.metric s s.isLt, hcall.metric s]
    omega
  · intro s
    rw [hd.path s s.isLt, hcall.path s]
    have hfirst : extend (fun s : State => (d.metric0.cell s).toNat)
        (fun s : State => (d.path0.cell s).toNat) ((received sym).gain n) =
        pathWord (survivors init sym) a (n + 1) :=
      funext (extend_eq ha hbase rfl (funext ht.path))
    exact extend_eq (Nat.le_succ_of_le ha) hone rfl hfirst s

/-- An output takes the smallest metric off; the spread of the metrics bounds what is left. -/
theorem emitted_tracked {ntraceback : Nat} {c : UInt8} (hn : 6 ≤ n)
    (ht : Tracked init sym a n d) (he : Emitted ntraceback d d' c) :
    Tracked init sym n n d' := by
  obtain ⟨base, hbase⟩ := ht.metric
  obtain ⟨minmetric, hleast, ⟨r, hr, hattained⟩, hnew⟩ := he.metric
  refine ⟨⟨base + minmetric.toNat, ?_⟩, ?_, ?_⟩
  · intro s
    have hle := hleast s s.isLt
    rw [hnew s s.isLt, ← hbase s]
    omega
  · intro s
    have hspread := metrics_spread init sym hn s ⟨r, hr⟩
    rw [← hbase s, ← hbase ⟨r, hr⟩, ← hattained] at hspread
    rw [hnew s s.isLt]
    omega
  · intro s
    rw [he.path s s.isLt, pathWord_of_le le_rfl]
    rfl

end Metrics

end EspDrivers.Viterbi
