import EspDrivers.ViterbiDecode

/-! One frame after the other. The variables of the file keep the symbols and the metrics of the
frames before; no frame makes the next one fail, and every byte is read off a likeliest path. -/
namespace EspDrivers.Viterbi
open Buffers Trellis

section Likelihood
variable {init : State → Nat} {sym : Nat → UInt8} {ntb F T : Nat}

/-- No path up to the time `T` agrees with more of the symbols received, with the metrics at the
start counted in. -/
structure Likeliest (init : State → Nat) (sym : Nat → UInt8) (T : Nat) (y : Nat → State) :
    Prop where
  path : (received sym).Path y 0 T
  most : ∀ x, (received sym).Path x 0 T →
    init (x 0) + (received sym).total x 0 T ≤ init (y 0) + (received sym).total y 0 T

theorem trace_likeliest {best : State}
    (hbest : ∀ r, metrics init sym T r ≤ metrics init sym T best) :
    Likeliest init sym T (trace (survivors init sym) T best) := by
  have htable := table init sym T
  refine ⟨htable.trace_path le_rfl best, ?_⟩
  intro x hx
  have hpath := htable.path_metric hx (Nat.zero_le T) le_rfl
  have htrace := htable.trace_metric le_rfl best (Nat.zero_le T) le_rfl
  rw [trace_self] at htrace
  calc init (x 0) + (received sym).total x 0 T
      ≤ metrics init sym T (x T) := hpath
    _ ≤ metrics init sym T best := hbest (x T)
    _ = init (trace (survivors init sym) T best 0) +
        (received sym).total (trace (survivors init sym) T best) 0 T := htrace.symm

theorem oldest_trace {prev : Nat → State → State} (hedge : ∀ n s, Edge (prev n s) s) {n j : Nat}
    (hn : j + 6 ≤ n) (s : State) :
    oldest (trace prev n s (j + 6)) = (trace prev n s (j + 1)).val % 2 :=
  trace_shift (a := j + 1) (j := 5) hedge (by decide) hn s

theorem written_likeliest {decoded : Buffer UInt8} (h : Written init sym ntb F decoded)
    (hntb : 2 ≤ ntb) {k : Nat} (hk : k + ntb < F) :
    ∃ y, Likeliest init sym (8 * (k + ntb) + 6) y ∧
      ∀ i < 8, (decoded.cell (8 * k + i)).toNat = (y (8 * k + i + 1)).val % 2 := by
  obtain ⟨best, hbest, hbits⟩ := h (k + ntb) (Nat.le_add_left ntb k) hk
  refine ⟨_, trace_likeliest hbest, ?_⟩
  intro i hi
  have hbit := hbits i hi
  have hcell : (k + ntb - ntb) * 8 + i = 8 * k + i := by omega
  have htime : 8 * (k + ntb - ntb) + 6 + i = 8 * k + i + 6 := by omega
  rw [hcell, htime, oldest_trace (survivors_edge init sym) (by omega)] at hbit
  exact hbit

end Likelihood

section Erasures
variable {pattern : List UInt8} {p n : Nat}

theorem sent_period (pattern : List UInt8) (i r : Nat) :
    sent pattern (pattern.length * i + r) = sent pattern pattern.length * i + sent pattern r := by
  have hshift (m : Nat) : sent pattern (pattern.length + m) =
      sent pattern pattern.length + sent pattern m := by
    have hkeeps : (fun k => Keeps pattern (pattern.length + k)) = Keeps pattern := by
      funext k
      rw [Keeps, Keeps, Nat.add_mod_left]
    have hadd := Nat.count_add (Keeps pattern) pattern.length m
    simp only [hkeeps] at hadd
    exact hadd
  induction i with
  | zero => rw [Nat.mul_zero, Nat.mul_zero, Nat.zero_add, Nat.zero_add]
  | succ i ih =>
    have hnext : pattern.length * (i + 1) + r = pattern.length + (pattern.length * i + r) := by
      rw [Nat.mul_succ]
      omega
    rw [hnext, hshift, ih, Nat.mul_succ]
    omega

theorem keeps_one (e : Encoding) (k : Nat) : Keeps e.settings.2.1 (2 * k) ∨
    Keeps e.settings.2.1 (2 * k + 1) ∧ sent e.settings.2.1 (2 * k + 1) % 4 = 3 := by
  have hmod12 : 2 * k % 2 = 0 := by omega
  have hcases23 : 2 * k % 4 = 0 ∨ 2 * k % 4 = 2 := by omega
  have hcases34 : 2 * k % 6 = 0 ∨ 2 * k % 6 = 2 ∨ 2 * k % 6 = 4 := by omega
  cases e with
  | BPSK_1_2 | QPSK_1_2 | QAM16_1_2 =>
    refine Or.inl ?_
    change puncture12.getD (2 * k % 2) 0 ≠ 0
    rw [hmod12]
    decide
  | QAM64_2_3 =>
    refine Or.inl ?_
    change puncture23.getD (2 * k % 4) 0 ≠ 0
    cases hcases23 with
    | inl h => rw [h]; decide
    | inr h => rw [h]; decide
  | BPSK_3_4 | QPSK_3_4 | QAM16_3_4 | QAM64_3_4 =>
    change puncture34.getD (2 * k % 6) 0 ≠ 0 ∨
      puncture34.getD ((2 * k + 1) % 6) 0 ≠ 0 ∧ sent puncture34 (2 * k + 1) % 4 = 3
    obtain h | h | h := hcases34
    · rw [h]
      exact Or.inl (by decide)
    · rw [h]
      exact Or.inl (by decide)
    · have hnext : (2 * k + 1) % 6 = 5 := by omega
      have hpos : 2 * k + 1 = 6 * (2 * k / 6) + 5 := by omega
      have hsent : sent puncture34 (6 * (2 * k / 6) + 5) = 4 * (2 * k / 6) + 3 :=
        sent_period puncture34 (2 * k / 6) 5
      refine Or.inr ⟨?_, ?_⟩
      · rw [hnext]
        decide
      · rw [hpos, hsent]
        omega

end Erasures

section Frames

/-- What is handed to decode for a frame. -/
structure Reception where
  ofdm : OfdmParam
  frame : FrameParam
  bits : Buffer UInt8

abbrev Reception.outputs (r : Reception) : Nat :=
  frameOutputs r.ofdm.encoding.settings.1 r.frame.nDataBits

abbrev Reception.symbols (r : Reception) (d : Decoder) : Nat → UInt8 :=
  stream r.ofdm.encoding (r.frame.nSym * r.ofdm.nCbps) r.bits.cell d.depunctured.cell

/-- The arrays are large enough for the frame, the symbols are bits, and the last of a punctured
frame is not the third of four. -/
structure Reception.Valid (r : Reception) : Prop where
  size : r.bits.size = maxEncodedBits
  bits : ∀ p < maxEncodedBits, (r.bits.cell p).toNat ≤ 1
  fits : 16 * r.outputs + 56 ≤ maxEncodedBits
  coded : r.ofdm.encoding.settings.1 ≠ 5 →
    r.frame.nSym * r.ofdm.nCbps ≤ sent r.ofdm.encoding.settings.2.1 maxEncodedBits
  whole : r.ofdm.encoding.settings.1 ≠ 5 → r.frame.nSym * r.ofdm.nCbps % 4 ≠ 3

/-- Between two frames the decoder holds small metrics, and symbols that it can read again. -/
structure Sound (d : Decoder) : Prop where
  ready : Ready d
  symbols : ∀ k, 2 * k + 1 < maxEncodedBits →
    Received (d.depunctured.cell (2 * k)) (d.depunctured.cell (2 * k + 1))

theorem received_of_bit {a b : UInt8} (ha : a.toNat ≤ 1) (hb : b.toNat ≤ 2) : Received a b := by
  refine ⟨by omega, hb, ?_⟩
  intro h
  rw [h.1] at ha
  exact absurd ha (by decide)

theorem received_swap {a b : UInt8} (ha : a.toNat ≤ 2) (hb : b.toNat ≤ 1) : Received a b := by
  refine ⟨ha, by omega, ?_⟩
  intro h
  rw [h.2] at hb
  exact absurd hb (by decide)

variable {r : Reception} {d : Decoder}

theorem symbolAt_received {e : Encoding} {bits old : Nat → UInt8} {n k : Nat}
    (hbits : ∀ p < maxEncodedBits, (bits p).toNat ≤ 1)
    (hold : ∀ k, 2 * k + 1 < maxEncodedBits → Received (old (2 * k)) (old (2 * k + 1)))
    (hn : n % 4 ≠ 3) (hk : 2 * k + 1 < maxEncodedBits) :
    Received (symbolAt e.settings.2.1 bits old n (2 * k))
      (symbolAt e.settings.2.1 bits old n (2 * k + 1)) := by
  have hsent (p : Nat) (hp : p < maxEncodedBits) :
      (bits (sent e.settings.2.1 p)).toNat ≤ 1 := hbits _ ((Nat.count_le _).trans_lt hp)
  have hsmall (p : Nat) (hp : p = 2 * k ∨ p = 2 * k + 1) :
      (symbolAt e.settings.2.1 bits old n p).toNat ≤ 2 := by
    simp only [symbolAt]
    split
    · split
      · exact Nat.le_succ_of_le (hsent p (by omega))
      · exact le_rfl
    · cases hp with
      | inl h => exact h ▸ (hold k hk).1
      | inr h => exact h ▸ (hold k hk).2.1
  have hmono := sent_mono e.settings.2.1 (Nat.le_succ (2 * k + 1))
  by_cases hfirst : sent e.settings.2.1 (2 * k + 1) ≤ n
  · cases keeps_one e k with
    | inl hkeeps =>
      refine received_of_bit ?_ (hsmall _ (Or.inr rfl))
      rw [symbolAt, if_pos hfirst, if_pos hkeeps]
      exact hsent _ (by omega)
    | inr hkeeps =>
      have hsucc := sent_succ hkeeps.1
      have hsecond : sent e.settings.2.1 (2 * k + 1 + 1) ≤ n := by omega
      refine received_swap (hsmall _ (Or.inl rfl)) ?_
      rw [symbolAt, if_pos hsecond, if_pos hkeeps.1]
      exact hsent _ hk
  · have hsecond : ¬sent e.settings.2.1 (2 * k + 1 + 1) ≤ n := fun h => hfirst (hmono.trans h)
    rw [symbolAt, if_neg hfirst, symbolAt, if_neg hsecond]
    exact hold k hk

theorem Sound.received {k : Nat} (hd : Sound d) (hr : r.Valid) (hk : 2 * k + 1 < maxEncodedBits) :
    Received (r.symbols d (2 * k)) (r.symbols d (2 * k + 1)) := by
  simp only [Reception.symbols, stream]
  split
  · exact received_of_bit (hr.bits _ (by omega)) (Nat.le_succ_of_le (hr.bits _ hk))
  · next hcoded => exact symbolAt_received hr.bits hd.symbols (hr.whole hcoded) hk

theorem Sound.decodable (hd : Sound d) (hr : r.Valid) : Decodable r.ofdm r.frame r.bits d := by
  refine ⟨hr.size, hr.fits, hr.coded, ?_⟩
  intro k hk
  have hfits := hr.fits
  change k < 8 * r.outputs - 2 at hk
  exact hd.received hr (by omega)

theorem Sound.outcome {d' : Decoder} (hd : Sound d) (hr : r.Valid)
    (h : Outcome r.ofdm r.frame r.bits d d') : Sound d' := by
  refine ⟨h.ready, ?_⟩
  intro k hk
  rw [h.depunctured]
  split
  · exact hd.symbols k hk
  · exact hd.received hr hk

/-- A frame of which every third symbol is a one. -/
def thirdsFrame (e : Encoding) (nCbps nSym n : Nat) : Reception :=
  ⟨⟨e, nCbps⟩, ⟨nSym, n⟩, ⟨maxEncodedBits, fun p => bitByte (p % 3 == 0)⟩⟩

theorem thirdsFrame_valid (e : Encoding) {nCbps nSym n : Nat} (hn : n ≤ 12000)
    (hsym : nSym * nCbps ≤ 16000) (hwhole : e.settings.1 ≠ 5 → nSym * nCbps % 4 ≠ 3) :
    (thirdsFrame e nCbps nSym n).Valid := by
  have hmany : 16000 ≤ sent e.settings.2.1 maxEncodedBits := by
    have h12 : sent puncture12 (2 * 12390 + 0) = 2 * 12390 + 0 := sent_period puncture12 12390 0
    have h23 : sent puncture23 (4 * 6195 + 0) = 3 * 6195 + 0 := sent_period puncture23 6195 0
    have h34 : sent puncture34 (6 * 4130 + 0) = 4 * 4130 + 0 := sent_period puncture34 4130 0
    cases e with
    | BPSK_1_2 | QPSK_1_2 | QAM16_1_2 => exact h12 ▸ (by decide)
    | QAM64_2_3 => exact h23 ▸ (by decide)
    | BPSK_3_4 | QPSK_3_4 | QAM16_3_4 | QAM64_3_4 => exact h34 ▸ (by decide)
  have hbits (bit : Bool) : (bitByte bit).toNat ≤ 1 := by cases bit <;> decide
  refine ⟨rfl, fun _ _ => hbits _, ?_, fun _ => hsym.trans hmany, hwhole⟩
  have hntb : e.settings.1 ≤ 10 := by cases e <;> decide
  change 16 * (if n = 0 then 0 else e.settings.1 + (n + 7) / 8) + 56 ≤ 24780
  split <;> omega

theorem start_sound : Sound Decoder.start :=
  ⟨⟨⟨rfl, rfl, rfl, rfl, rfl, rfl, rfl, rfl, rfl⟩, fun _ _ => Nat.zero_le _, fun _ _ => rfl⟩,
    fun _ _ => show Received 0 0 by decide⟩

end Frames

section Runs
variable {d : Decoder} {mem : Buffer UInt8} {fuel : Nat}

def decodeOne (fuel : Nat) (mem : Buffer UInt8) (d : Decoder) (r : Reception) : Option Decoder :=
  decode butterfly2Soft none fuel mem r.ofdm r.frame r.bits d

def decodeAll (fuel : Nat) (mem : Buffer UInt8) (rs : List Reception) (d : Decoder) :
    Option Decoder :=
  rs.foldlM (decodeOne fuel mem) d

theorem decodeOne_ends (hfuel : maxEncodedBits ≤ fuel) (hd : Sound d) {r : Reception}
    (hr : r.Valid) (mem : Buffer UInt8) :
    ∃ d', decodeOne fuel mem d r = some d' ∧ Outcome r.ofdm r.frame r.bits d d' := by
  have hfits := hr.fits
  obtain ⟨d', hrun, hout⟩ := decode_ends hd.ready (hd.decodable hr) mem
  exact ⟨d', hrun fuel ((show 16 * r.outputs < maxEncodedBits by omega).trans_le hfuel), hout⟩

theorem decodeAll_ends (hfuel : maxEncodedBits ≤ fuel) (hd : Sound d) (rs : List Reception)
    (hrs : ∀ r ∈ rs, r.Valid) (mem : Buffer UInt8) :
    ∃ d', decodeAll fuel mem rs d = some d' ∧ Sound d' := by
  refine foldlM_ends rs (fun _ d => Sound d) hd ?_
  intro done r rest hsplit d hd
  have hr : r.Valid := hrs r (by simp [hsplit])
  obtain ⟨d', hrun, hout⟩ := decodeOne_ends hfuel hd hr mem
  exact ⟨d', hrun, hd.outcome hr hout⟩

/-- In every run, whatever was decoded before a frame: decode comes to its end inside its arrays,
its metrics of 8 bits are the exact ones up to a constant, and every byte of its output is read
off a path that agrees with as many of the symbols as any. -/
theorem every_frame_decoded (hfuel : maxEncodedBits ≤ fuel) (before : List Reception)
    (r : Reception) (hbefore : ∀ r ∈ before, r.Valid) (hr : r.Valid) (mem : Buffer UInt8) :
    ∃ d d', decodeAll fuel mem before Decoder.start = some d ∧
      decodeOne fuel mem d r = some d' ∧ (∀ s < 64, (d'.metric0.cell s).toNat ≤ 12) ∧
      (∃ base, ∀ s : State, (d'.metric0.cell s).toNat + base =
        metrics (startMetrics d) (r.symbols d) (8 * r.outputs - 2) s) ∧
      ∀ k, 8 * k < r.frame.nDataBits → ∃ y,
        Likeliest (startMetrics d) (r.symbols d) (8 * (k + r.ofdm.encoding.settings.1) + 6) y ∧
        ∀ i < 8, (d'.decoded.cell (8 * k + i)).toNat = (y (8 * k + i + 1)).val % 2 := by
  obtain ⟨d, hall, hd⟩ := decodeAll_ends hfuel start_sound before hbefore mem
  obtain ⟨d', hrun, hout⟩ := decodeOne_ends hfuel hd hr mem
  obtain ⟨-, -, -, -, hntb, -⟩ := settings_patterned r.ofdm.encoding
  refine ⟨d, d', hall, hrun, hout.ready.metric, hout.metric, ?_⟩
  intro k hk
  refine written_likeliest hout.written hntb ?_
  rw [frameOutputs, if_neg (by omega)]
  omega

theorem every_frame_decoded_two : ∃ d d',
    decodeAll maxEncodedBits (zeros 384) [thirdsFrame .QAM64_3_4 288 4 800] Decoder.start =
      some d ∧
    decodeOne maxEncodedBits (zeros 384) d (thirdsFrame .QAM64_2_3 192 1 100) = some d' ∧
    (∀ s < 64, (d'.metric0.cell s).toNat ≤ 12) ∧
    (∃ base, ∀ s : State, (d'.metric0.cell s).toNat + base =
      metrics (startMetrics d) ((thirdsFrame .QAM64_2_3 192 1 100).symbols d) 174 s) ∧
    ∀ k, 8 * k < 100 → ∃ y,
      Likeliest (startMetrics d) ((thirdsFrame .QAM64_2_3 192 1 100).symbols d)
        (8 * (k + 9) + 6) y ∧
      ∀ i < 8, (d'.decoded.cell (8 * k + i)).toNat = (y (8 * k + i + 1)).val % 2 := by
  have hbefore : ∀ r ∈ [thirdsFrame .QAM64_3_4 288 4 800], r.Valid := by
    intro r hr
    rw [List.mem_singleton.mp hr]
    exact thirdsFrame_valid .QAM64_3_4 (by decide) (by decide) (by decide)
  exact every_frame_decoded le_rfl _ _ hbefore
    (thirdsFrame_valid .QAM64_2_3 (by decide) (by decide) (by decide)) (zeros 384)

end Runs

end EspDrivers.Viterbi
