import EspDrivers.ViterbiAcs

/-! What viterbi_get_output_generic does: the best state and the smallest metric, the way back
through the ring of the last paths, and the metrics and paths it leaves. -/
namespace EspDrivers.Viterbi
open Buffers Checked Fills

structure Shaped (d : Decoder) : Prop where
  mmresult : d.mmresult.size = 64
  ppresult : d.ppresult.size = tracebackMax * 64
  depunctured : d.depunctured.size = maxEncodedBits
  decoded : d.decoded.size = maxEncodedBits * 3 / 4
  branchtab27 : d.branchtab27.size = 64
  metric0 : d.metric0.size = 64
  metric1 : d.metric1.size = 64
  path0 : d.path0.size = 64
  path1 : d.path1.size = 64

section Best
variable {mm : Buffer UInt8}

/-- The best state, and the smallest metric, of the states below `n`. -/
structure Best (mm : Buffer UInt8) (n : Nat) (found : UInt8 × Nat × UInt8) : Prop where
  state : found.2.1 < n
  metric : found.1 = mm.cell found.2.1
  most : ∀ s < n, (mm.cell s).toNat ≤ found.1.toNat
  least : ∀ s < n, found.2.2.toNat ≤ (mm.cell s).toNat
  attained : ∃ s < n, found.2.2 = mm.cell s

def better (mm : Buffer UInt8) (found : UInt8 × Nat × UInt8) (i : Nat) : UInt8 × Nat × UInt8 :=
  (if found.1 < mm.cell i then mm.cell i else found.1,
    if found.1 < mm.cell i then i else found.2.1,
    if mm.cell i < found.2.2 then mm.cell i else found.2.2)

theorem better_best {n : Nat} {found : UInt8 × Nat × UInt8} (h : Best mm n found) :
    Best mm (n + 1) (better mm found n) := by
  refine ⟨?_, ?_, ?_, ?_, ?_⟩
  · have hold := h.state
    simp only [better]
    split <;> omega
  · simp only [better]
    split
    · rfl
    · exact h.metric
  · intro s hs
    simp only [better, UInt8.lt_iff_toNat_lt]
    obtain hold | rfl : s < n ∨ s = n := by omega
    · have hmost := h.most s hold
      split <;> omega
    · split <;> omega
  · intro s hs
    simp only [better, UInt8.lt_iff_toNat_lt]
    obtain hold | rfl : s < n ∨ s = n := by omega
    · have hleast := h.least s hold
      split <;> omega
    · split <;> omega
  · obtain ⟨r, hr, hattained⟩ := h.attained
    simp only [better]
    split
    · exact ⟨n, Nat.lt_succ_self n, rfl⟩
    · exact ⟨r, Nat.lt_succ_of_lt hr, hattained⟩

theorem findBest_ends (hsize : mm.size = 64) :
    ∃ found, findBest mm = some found ∧ Best mm 64 found := by
  have hstart : Best mm (0 + 1) (mm.cell 0, 0, mm.cell 0) := by
    have hzero (s : Nat) (hs : s < 0 + 1) : s = 0 := by omega
    refine ⟨Nat.one_pos, rfl, ?_, ?_, 0, Nat.one_pos, rfl⟩
    · intro s hs
      rw [hzero s hs]
    · intro s hs
      rw [hzero s hs]
  have hround (i : Nat) (hi : i < 63) (found : UInt8 × Nat × UInt8) (h : Best mm (i + 1) found) :
      ∃ found', some (better mm found (i + 1)) = some found' ∧ Best mm (i + 1 + 1) found' :=
    ⟨_, rfl, better_best h⟩
  obtain ⟨found, hrun, hbest⟩ := foldlM_range_ends 63 (fun i => Best mm (i + 1)) hstart hround
  refine ⟨found, ?_, hbest⟩
  rw [← hrun, findBest, Buffer.load_eq (by omega), List.range'_eq_map_range]
  simp only [Option.bind_eq_bind, Option.bind_some]
  rw [List.foldlM_map]
  refine foldlM_congr ?_ _
  intro i hi found
  have hlt := List.mem_range.mp hi
  rw [Buffer.load_eq (by omega), Nat.add_comm 1 i]
  simp only [Option.bind_some, better]
  split <;> rfl

end Best

section Back

def posBack (ntraceback storePos i : Nat) : Nat :=
  (storePos + i * (ntraceback - 1)) % ntraceback

def backState (ppresult : Buffer UInt8) (ntraceback storePos beststate : Nat) : Nat → Nat
  | 0 => beststate
  | i + 1 => (ppresult.cell (64 * posBack ntraceback storePos i +
      backState ppresult ntraceback storePos beststate i)).toNat / 4

variable {ppresult : Buffer UInt8} {ntraceback storePos beststate : Nat}

theorem backState_lt (ppresult : Buffer UInt8) (ntraceback storePos : Nat)
    (h : beststate < 64) (i : Nat) :
    backState ppresult ntraceback storePos beststate i < 64 := by
  cases i with
  | zero => exact h
  | succ i =>
    have hbyte := (ppresult.cell (64 * posBack ntraceback storePos i +
      backState ppresult ntraceback storePos beststate i)).toNat_lt
    simp only [backState]
    omega

/-- A path byte divided by 4 is a state, so the way back stays inside the ring. -/
theorem traceBack_eq (hsize : ppresult.size = tracebackMax * 64) (hpos : storePos < ntraceback)
    (hmax : ntraceback ≤ tracebackMax) (hbest : beststate < 64) :
    traceBack ppresult ntraceback storePos beststate =
      some (posBack ntraceback storePos (ntraceback - 1),
        backState ppresult ntraceback storePos beststate (ntraceback - 1)) := by
  have hpos0 : 0 < ntraceback := Nat.zero_lt_of_lt hpos
  have hsize' : ppresult.size = 1536 := hsize
  have hmax' : ntraceback ≤ 24 := hmax
  have hends : ∃ t, traceBack ppresult ntraceback storePos beststate = some t ∧
      t = (posBack ntraceback storePos (ntraceback - 1),
        backState ppresult ntraceback storePos beststate (ntraceback - 1)) := by
    refine foldlM_range_ends (ntraceback - 1) (fun i t => t = (posBack ntraceback storePos i,
      backState ppresult ntraceback storePos beststate i)) ?_ ?_
    · rw [posBack, Nat.zero_mul, Nat.add_zero, Nat.mod_eq_of_lt hpos]
      rfl
    · intro i _ t ht
      subst ht
      have hlt : posBack ntraceback storePos i < ntraceback := Nat.mod_lt _ hpos0
      have hstate := backState_lt ppresult ntraceback storePos hbest i
      have hnext : (posBack ntraceback storePos i + ntraceback - 1) % ntraceback =
          posBack ntraceback storePos (i + 1) := by
        rw [posBack, posBack, Nat.add_sub_assoc hpos0, Nat.mod_add_mod, Nat.succ_mul, Nat.add_assoc]
      refine ⟨_, ?_, rfl⟩
      simp only [row, if_pos hstate]
      rw [Buffer.load_eq (by omega)]
      simp only [Option.bind_eq_bind, Option.bind_some, hnext, backState]
      rw [UInt8.toNat_shiftRight, Nat.shiftRight_eq_div_pow]
      rfl
  obtain ⟨t, ht, rfl⟩ := hends
  exact ht

end Back

section Output
variable {d d' : Decoder} {ntraceback : Nat} {c : UInt8}

def rowAt (ntraceback : Nat) (d : Decoder) : Nat := (d.storePos + 1) % ntraceback

structure Emitted (ntraceback : Nat) (d d' : Decoder) (c : UInt8) : Prop where
  shaped : Shaped d'
  storePos : d'.storePos = rowAt ntraceback d
  stored : ∀ s < 64, d'.ppresult.cell (64 * rowAt ntraceback d + s) = d.path0.cell s
  kept : ∀ k, (k < 64 * rowAt ntraceback d ∨ 64 * rowAt ntraceback d + 64 ≤ k) →
    d'.ppresult.cell k = d.ppresult.cell k
  output : ∃ best < 64, (∀ s < 64, (d.metric0.cell s).toNat ≤ (d.metric0.cell best).toNat) ∧
    c = d'.ppresult.cell (64 * posBack ntraceback (rowAt ntraceback d) (ntraceback - 1) +
      backState d'.ppresult ntraceback (rowAt ntraceback d) best (ntraceback - 1))
  metric : ∃ minmetric : UInt8, (∀ s < 64, minmetric.toNat ≤ (d.metric0.cell s).toNat) ∧
    (∃ s < 64, minmetric = d.metric0.cell s) ∧
    ∀ s < 64, (d'.metric0.cell s).toNat = (d.metric0.cell s).toNat - minmetric.toNat
  path : ∀ s < 64, d'.path0.cell s = 0
  rest : d'.ntraceback = d.ntraceback ∧ d'.k = d.k ∧ d'.depuncturePattern = d.depuncturePattern ∧
    d'.depunctured = d.depunctured ∧ d'.decoded = d.decoded ∧ d'.branchtab27 = d.branchtab27

theorem copies_eq (h : Shaped d) {r : Nat} (hr : r < tracebackMax) :
    (List.range 4).foldlM (fun s i =>
      (List.range 16).foldlM (fun (s : Buffer UInt8 × Buffer UInt8) j => do
        let mmresult ← s.1.store (i * 16 + j) (← d.metric0.load (i * 16 + j))
        let ppresult ← s.2.store (64 * r + (i * 16 + j)) (← d.path0.load (i * 16 + j))
        some (mmresult, ppresult)) s) (d.mmresult, d.ppresult) =
      some (fill d.mmresult 0 64 d.metric0.cell, fill d.ppresult (64 * r) 64 d.path0.cell) := by
  have hr' : r < 24 := hr
  have hpp : d.ppresult.size = 1536 := h.ppresult
  have hmm := h.mmresult
  have hm0 := h.metric0
  have hp0 := h.path0
  have hcopyM : (List.range 64).foldlM (fun (c : Buffer UInt8) i => do
      c.store (0 + i) (← d.metric0.load i)) d.mmresult =
        some (fill d.mmresult 0 64 d.metric0.cell) :=
    foldlM_fill_values (by omega) fun i hi => Buffer.load_eq (by omega)
  have hcopyP : (List.range 64).foldlM (fun (c : Buffer UInt8) i => do
      c.store (64 * r + i) (← d.path0.load i)) d.ppresult =
        some (fill d.ppresult (64 * r) 64 d.path0.cell) :=
    foldlM_fill_values (by omega) fun i hi => Buffer.load_eq (by omega)
  refine (foldlM_range_nest (fun (s : Buffer UInt8 × Buffer UInt8) k => do
    let mmresult ← s.1.store k (← d.metric0.load k)
    let ppresult ← s.2.store (64 * r + k) (← d.path0.load k)
    some (mmresult, ppresult)) 4 16 _).trans (foldlM_pair ?_ hcopyM hcopyP)
  intro u v j
  rw [Nat.zero_add]
  cases d.metric0.load j with
  | none => rfl
  | some x =>
    cases hu : u.store j x with
    | none => simp [hu]
    | some u' =>
      cases d.path0.load j with
      | none => simp [hu]
      | some y => cases hv : v.store (64 * r + j) y <;> simp [hu, hv]

theorem normalize_eq (h : Shaped d) (minmetric : UInt8) :
    (List.range 4).foldlM (fun s i =>
      (List.range 16).foldlM (fun (s : Buffer UInt8 × Buffer UInt8) j => do
        let path0 ← s.1.store (i * 16 + j) 0
        let metric0 ← s.2.store (i * 16 + j) ((← s.2.load (i * 16 + j)) - minmetric)
        some (path0, metric0)) s) (d.path0, d.metric0) =
      some (fill d.path0 0 64 fun _ => 0,
        fill d.metric0 0 64 fun s => d.metric0.cell s - minmetric) := by
  have hm0 := h.metric0
  have hp0 := h.path0
  have hclear : (List.range 64).foldlM (fun (c : Buffer UInt8) i => c.store (0 + i) 0) d.path0 =
      some (fill d.path0 0 64 fun _ => 0) :=
    foldlM_fill 64 (by omega) fun _ _ _ _ _ => rfl
  have hnorm : (List.range 64).foldlM (fun (c : Buffer UInt8) i => do
      c.store (0 + i) ((← c.load i) - minmetric)) d.metric0 =
      some (fill d.metric0 0 64 fun s => d.metric0.cell s - minmetric) := by
    refine foldlM_fill 64 (by omega) ?_
    intro i hi c hc hsame
    rw [Buffer.load_eq (by omega), hsame i (by omega)]
    rfl
  refine (foldlM_range_nest (fun (s : Buffer UInt8 × Buffer UInt8) k => do
    let path0 ← s.1.store k 0
    let metric0 ← s.2.store k ((← s.2.load k) - minmetric)
    some (path0, metric0)) 4 16 _).trans (foldlM_pair ?_ hclear hnorm)
  intro u v j
  rw [Nat.zero_add]
  cases u.store j 0 with
  | none => simp
  | some u' =>
    cases v.load j with
    | none => simp
    | some x => cases hw : v.store j (x - minmetric) <;> simp [hw]

theorem viterbiGetOutputGeneric_ends (h : Shaped d) (hpos : 0 < ntraceback)
    (hmax : ntraceback ≤ tracebackMax) :
    ∃ d' c, viterbiGetOutputGeneric ntraceback d = some (d', c) ∧
      Emitted ntraceback d d' c := by
  have hrow : rowAt ntraceback d < ntraceback := Nat.mod_lt _ hpos
  have hmax' : ntraceback ≤ 24 := hmax
  have hpp : d.ppresult.size = 1536 := h.ppresult
  let pp := fill d.ppresult (64 * rowAt ntraceback d) 64 d.path0.cell
  have hsize : pp.size = 1536 := hpp
  obtain ⟨⟨bestmetric, best, minmetric⟩, hfind, hbest⟩ :=
    findBest_ends (show (fill d.mmresult 0 64 d.metric0.cell).size = 64 from h.mmresult)
  have hcell (s : Nat) (hs : s < 64) :
      (fill d.mmresult 0 64 d.metric0.cell).cell s = d.metric0.cell s := by
    rw [← Nat.zero_add s, fill_inside hs, Nat.zero_add]
  have hstate : best < 64 := hbest.state
  have htrace : traceBack pp ntraceback (rowAt ntraceback d) best = _ :=
    traceBack_eq hpp hrow hmax hstate
  have hlast : backState pp ntraceback (rowAt ntraceback d) best (ntraceback - 1) < 64 :=
    backState_lt pp ntraceback (rowAt ntraceback d) hstate _
  have hposlt : posBack ntraceback (rowAt ntraceback d) (ntraceback - 1) < ntraceback :=
    Nat.mod_lt _ hpos
  let outbuf := pp.cell (64 * posBack ntraceback (rowAt ntraceback d) (ntraceback - 1) +
    backState pp ntraceback (rowAt ntraceback d) best (ntraceback - 1))
  have hload : pp.load (64 * posBack ntraceback (rowAt ntraceback d) (ntraceback - 1) +
      backState pp ntraceback (rowAt ntraceback d) best (ntraceback - 1)) = some outbuf :=
    Buffer.load_eq (by rw [hsize]; omega)
  let metric0 := fill d.metric0 0 64 fun s => d.metric0.cell s - minmetric
  have hmetric (s : Nat) (hs : s < 64) : metric0.cell s = d.metric0.cell s - minmetric := by
    rw [← Nat.zero_add s, fill_inside hs, Nat.zero_add]
  refine ⟨{ d with
    storePos := rowAt ntraceback d, mmresult := fill d.mmresult 0 64 d.metric0.cell
    ppresult := pp, path0 := fill d.path0 0 64 fun _ => 0, metric0 := metric0 }, outbuf, ?_, ?_⟩
  · have hcopy := copies_eq h (hrow.trans_le hmax)
    have hfinish := normalize_eq h minmetric
    simp only [Option.bind_eq_bind] at hcopy hfinish
    have hrowAt : (d.storePos + 1) % ntraceback = rowAt ntraceback d := rfl
    have hpp' : fill d.ppresult (64 * rowAt ntraceback d) 64 d.path0.cell = pp := rfl
    simp only [viterbiGetOutputGeneric, hrowAt, Option.bind_eq_bind]
    rw [hcopy, hpp']
    simp only [Option.bind_some, hfind, htrace, row, if_pos hlast, hload, hfinish]
    rfl
  · refine ⟨⟨h.mmresult, hpp, h.depunctured, h.decoded, h.branchtab27, h.metric0, h.metric1,
      h.path0, h.path1⟩, rfl, ?_, ?_, ⟨best, hstate, ?_, rfl⟩, ⟨minmetric, ?_, ?_, ?_⟩, ?_,
      rfl, rfl, rfl, rfl, rfl, rfl⟩
    · exact fun s hs => fill_inside hs
    · exact fun k hk => fill_outside hk
    · intro s hs
      have hmost := hbest.most s hs
      rwa [hbest.metric, hcell s hs, hcell best hstate] at hmost
    · intro s hs
      rw [← hcell s hs]
      exact hbest.least s hs
    · obtain ⟨s, hs, heq⟩ := hbest.attained
      exact ⟨s, hs, by rw [← hcell s hs]; exact heq⟩
    · intro s hs
      have hle : minmetric ≤ d.metric0.cell s := by
        rw [UInt8.le_iff_toNat_le, ← hcell s hs]
        exact hbest.least s hs
      rw [hmetric s hs]
      exact UInt8.toNat_sub_of_le _ _ hle
    · intro s hs
      have hzero : (fill d.path0 0 64 fun _ => 0).cell (0 + s) = 0 := fill_inside hs
      rwa [Nat.zero_add] at hzero

end Output

end EspDrivers.Viterbi
