import EspDrivers.ViterbiCalls

/-! The loop of decode. Before each call the metrics and the path words are those of exact
arithmetic, the ring holds the words of the last outputs, and the bits that have been put out
are those of a traceback from a best state. -/
namespace EspDrivers.Viterbi
open Buffers Checked Fills Trellis

section Ring
variable {init : State → Nat} {sym : Nat → UInt8} {ntb p0 m : Nat} {d d' : Decoder} {c : UInt8}

theorem posBack_mod {x i : Nat} (hpos : 0 < ntb) (hi : i ≤ x) :
    posBack ntb (x % ntb) i = (x - i) % ntb := by
  have hsplit : i * ntb = i * (ntb - 1) + i := by
    rw [← Nat.mul_succ, Nat.succ_eq_add_one, Nat.sub_add_cancel hpos]
  have hsum : x + i * (ntb - 1) = x - i + i * ntb := by omega
  rw [posBack, Nat.mod_add_mod, hsum, Nat.add_mul_mod_self_right]

theorem ring_apart {q : Nat} (hq : q < m) (hm : m < q + ntb) :
    (p0 + 1 + q) % ntb ≠ (p0 + 1 + m) % ntb := by
  intro heq
  have hdvd := (Nat.modEq_iff_dvd' (by omega)).mp (show Nat.ModEq ntb (p0 + 1 + q) _ from heq)
  have hle := Nat.le_of_dvd (by omega) hdvd
  omega

/-- The rows of the last `ntb` of the `m` outputs. -/
structure Ring (init : State → Nat) (sym : Nat → UInt8) (ntb p0 m : Nat) (d : Decoder) : Prop where
  next : (d.storePos + 1) % ntb = (p0 + 1 + m) % ntb
  rows : ∀ q < m, m ≤ q + ntb → ∀ s : State,
    (d.ppresult.cell (64 * ((p0 + 1 + q) % ntb) + s)).toNat =
      pathWord (survivors init sym) (8 * q - 2) (8 * q + 6) s

theorem emitted_ring (ht : Tracked init sym (8 * m - 2) (8 * m + 6) d)
    (hr : Ring init sym ntb p0 m d) (he : Emitted ntb d d' c) :
    Ring init sym ntb p0 (m + 1) d' := by
  have hrow : rowAt ntb d = (p0 + 1 + m) % ntb := hr.next
  constructor
  · rw [he.storePos, hrow, Nat.mod_add_mod, Nat.add_assoc]
  · intro q hq hlast s
    cases Nat.lt_or_eq_of_le (Nat.le_of_lt_succ hq) with
    | inl hlt =>
      have hne : (p0 + 1 + q) % ntb ≠ rowAt ntb d := hrow ▸ ring_apart hlt (by omega)
      have hs := s.isLt
      rw [he.kept _ (by omega)]
      exact hr.rows q hlt (by omega) s
    | inr heq =>
      subst heq
      rw [← hrow, he.stored s s.isLt]
      exact ht.path s

theorem survivors_edge (init : State → Nat) (sym : Nat → UInt8) (n : Nat) (s : State) :
    Edge (survivors init sym n s) s := (table init sym (n + 1)).edge n (Nat.lt_succ_self n) s

theorem backState_eq (hpos : 0 < ntb) (hr : Ring init sym ntb p0 (m + 1) d) (best : State) {i : Nat}
    (hi : i < ntb) (him : i ≤ m) :
    backState d.ppresult ntb ((p0 + 1 + m) % ntb) best i =
      (trace (survivors init sym) (8 * m + 6) best (8 * (m - i) + 6)).val := by
  induction i with
  | zero => rw [Nat.sub_zero, trace_self, backState]
  | succ i ih =>
    have hpred : 8 * (m - (i + 1)) + 6 = 8 * (m - i) - 2 := by omega
    have hword : 8 * (m - i) + 6 = 8 * (m - i) - 2 + 8 := by omega
    have hrow : p0 + 1 + m - i = p0 + 1 + (m - i) := by omega
    have hback := pathWord_back (survivors_edge init sym) (8 * (m - i) - 2)
      (trace (survivors init sym) (8 * m + 6) best (8 * (m - i) + 6))
    rw [backState, ih (by omega) (by omega), posBack_mod hpos (by omega), hrow,
      hr.rows (m - i) (by omega) (by omega), hpred]
    rw [← hword, trace_trace (by omega) (by omega)] at hback
    exact hback

/-- The byte of an output holds eight bits of the way back from a best state. -/
theorem emitted_byte (hntb : 2 ≤ ntb) (hm : ntb ≤ m)
    (ht : Tracked init sym (8 * m - 2) (8 * m + 6) d) (hr : Ring init sym ntb p0 m d)
    (he : Emitted ntb d d' c) :
    ∃ best : State, (∀ r, metrics init sym (8 * m + 6) r ≤ metrics init sym (8 * m + 6) best) ∧
      ∀ i < 8, c.toNat / 2 ^ (7 - i) % 2 = oldest (trace (survivors init sym) (8 * m + 6) best
        (8 * (m - ntb) + 6 + i)) := by
  obtain ⟨base, hbase⟩ := ht.metric
  obtain ⟨best, hbest, hmost, hc⟩ := he.output
  have hnew := emitted_ring ht hr he
  have hrow : rowAt ntb d = (p0 + 1 + m) % ntb := hr.next
  refine ⟨⟨best, hbest⟩, ?_, ?_⟩
  · intro r
    have hle := hmost r r.isLt
    rw [← hbase r, ← hbase ⟨best, hbest⟩]
    exact Nat.add_le_add_right hle base
  · intro i hi
    have hstate : backState d'.ppresult ntb ((p0 + 1 + m) % ntb) best (ntb - 1) =
        (trace (survivors init sym) (8 * m + 6) ⟨best, hbest⟩ (8 * (m - (ntb - 1)) + 6)).val :=
      backState_eq (by omega) hnew ⟨best, hbest⟩ (by omega) (by omega)
    have hstage : m - (ntb - 1) = m - ntb + 1 := by omega
    have hat : p0 + 1 + m - (ntb - 1) = p0 + 1 + (m - ntb + 1) := by omega
    have hpos : posBack ntb ((p0 + 1 + m) % ntb) (ntb - 1) = (p0 + 1 + m - (ntb - 1)) % ntb :=
      posBack_mod (by omega) (by omega)
    rw [hrow] at hc
    rw [hc, hstate, hpos, hat, hstage,
      hnew.rows (m - ntb + 1) (by omega) (by omega)]
    have hexp : 7 - i = 8 * (m - ntb + 1) + 6 - 1 - (8 * (m - ntb) + 6 + i) := by omega
    have hfirst : 8 * (m - ntb + 1) - 2 ≤ 8 * (m - ntb) + 6 + i := by omega
    have hlast : 8 * (m - ntb) + 6 + i < 8 * (m - ntb + 1) + 6 := by omega
    rw [hexp, pathWord_bit hfirst hlast, trace_trace hlast.le (by omega)]

end Ring

section Stores
variable {s : Loop} {c : UInt8}

theorem bit_toNat (c : UInt8) {i : Nat} (hi : i < 8) :
    ((c >>> UInt8.ofNat (7 - i)) &&& 0x1).toNat = c.toNat / 2 ^ (7 - i) % 2 := by
  have hone : (1 : UInt8).toNat = 1 := rfl
  have hshift : (UInt8.ofNat (7 - i)).toNat % 8 = 7 - i := by
    rw [UInt8.toNat_ofNat_of_lt' (show 7 - i < 256 by omega)]
    omega
  rw [UInt8.toNat_and, UInt8.toNat_shiftRight, hshift, hone, Nat.and_one_is_mod,
    Nat.shiftRight_eq_div_pow]

def Loop.stored (s : Loop) (c : UInt8) : Loop :=
  { s with
    decoder := { s.decoder with
      decoded := fill s.decoder.decoded ((s.outCount - s.decoder.ntraceback) * 8) 8 fun i =>
        (c >>> UInt8.ofNat (7 - i)) &&& 0x1 }
    nDecoded := s.nDecoded + 8
    outCount := s.outCount + 1 }

theorem storeByte_late (h : s.decoder.ntraceback ≤ s.outCount)
    (hroom : (s.outCount - s.decoder.ntraceback) * 8 + 8 ≤ s.decoder.decoded.size) :
    storeByte s c = some (s.stored c) := by
  let value (i : Nat) : UInt8 := (c >>> UInt8.ofNat (7 - i)) &&& 0x1
  have hstore : (List.range 8).foldlM (fun (b : Buffer UInt8) i =>
      b.store ((s.outCount - s.decoder.ntraceback) * 8 + i) (value i)) s.decoder.decoded =
      some (fill s.decoder.decoded ((s.outCount - s.decoder.ntraceback) * 8) 8 value) :=
    foldlM_fill 8 hroom fun _ _ _ _ _ => rfl
  have hcount : (List.range 8).foldlM (fun n (_ : Nat) => some (n + 1)) s.nDecoded =
      some (s.nDecoded + 8) := by
    simp [List.range_succ]
  have hloop : (List.range 8).foldlM (fun (x : Buffer UInt8 × Nat) i => do
      let decoded ← x.1.store ((s.outCount - s.decoder.ntraceback) * 8 + i) (value i)
      some (decoded, x.2 + 1)) (s.decoder.decoded, s.nDecoded) =
      some (fill s.decoder.decoded ((s.outCount - s.decoder.ntraceback) * 8) 8 value,
        s.nDecoded + 8) :=
    foldlM_pair (fun _ _ _ => rfl) hstore hcount
  simp only [storeByte, if_pos h]
  rw [hloop]
  rfl

theorem storeByte_early (h : s.outCount < s.decoder.ntraceback) :
    storeByte s c = some { s with outCount := s.outCount + 1 } :=
  if_neg (Nat.not_le.mpr h)

end Stores

section Running
variable {init : State → Nat} {sym : Nat → UInt8} {ntb p0 : Nat}

def Written (init : State → Nat) (sym : Nat → UInt8) (ntb m : Nat) (decoded : Buffer UInt8) :
    Prop :=
  ∀ q, ntb ≤ q → q < m → ∃ best : State,
    (∀ r, metrics init sym (8 * q + 6) r ≤ metrics init sym (8 * q + 6) best) ∧
    ∀ i < 8, (decoded.cell ((q - ntb) * 8 + i)).toNat =
      oldest (trace (survivors init sym) (8 * q + 6) best (8 * (q - ntb) + 6 + i))

def outputs (c : Nat) : Nat := (c + 1) / 4

structure Running (init : State → Nat) (sym : Nat → UInt8) (ntb p0 c : Nat) (s : Loop) : Prop where
  shaped : Shaped s.decoder
  tabled : Tabled s.decoder
  ntraceback : s.decoder.ntraceback = ntb
  tracked : Tracked init sym (8 * outputs c - 2) (2 * c) s.decoder
  ring : Ring init sym ntb p0 (outputs c) s.decoder
  written : Written init sym ntb (outputs c) s.decoder.decoded
  outCount : s.outCount = outputs c
  nDecoded : s.nDecoded = 8 * (outputs c - ntb)

theorem written_succ {m : Nat} {decoded : Buffer UInt8} {c : UInt8} {best : State}
    (h : Written init sym ntb m decoded)
    (hbest : ∀ r, metrics init sym (8 * m + 6) r ≤ metrics init sym (8 * m + 6) best)
    (hbyte : ∀ i < 8, c.toNat / 2 ^ (7 - i) % 2 =
      oldest (trace (survivors init sym) (8 * m + 6) best (8 * (m - ntb) + 6 + i))) :
    Written init sym ntb (m + 1) (fill decoded ((m - ntb) * 8) 8 fun i =>
      (c >>> UInt8.ofNat (7 - i)) &&& 0x1) := by
  intro q hq hlt
  cases Nat.lt_or_eq_of_le (Nat.le_of_lt_succ hlt) with
  | inl hold =>
    obtain ⟨best', hbest', hbits⟩ := h q hq hold
    refine ⟨best', hbest', ?_⟩
    intro i hi
    rw [fill_outside (by omega)]
    exact hbits i hi
  | inr heq =>
    subst heq
    refine ⟨best, hbest, ?_⟩
    intro i hi
    rw [fill_inside hi, bit_toNat c hi]
    exact hbyte i hi

end Running

end EspDrivers.Viterbi
