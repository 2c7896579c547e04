import EspDrivers.ViterbiDistance
import EspDrivers.ViterbiRuns

/-! What decode makes of a code word that is received with faults: where the faults are few in
every stretch, the bits that come out are the bits that were sent. -/
namespace EspDrivers.Viterbi
open Buffers Trellis RegisterWalks

section Stretches
variable {pattern : List UInt8} {sym : Nat → UInt8} {x : Nat → State} {m : Margin} {T a b : Nat}

/-- Up to the time `T`, any `window + 1` steps have `faults` faults at most. -/
def FewFaults (pattern : List UInt8) (m : Margin) (sym : Nat → UInt8) (x : Nat → State) (T : Nat) :
    Prop :=
  ∀ a b, a ≤ b → b ≤ a + (m.window + 1) → b ≤ T → faults pattern sym x a b ≤ m.faults

theorem faults_add (pattern : List UInt8) (sym : Nat → UInt8) (x : Nat → State) {c : Nat}
    (hab : a ≤ b) (hbc : b ≤ c) :
    faults pattern sym x a b + faults pattern sym x b c = faults pattern sym x a c :=
  Finset.sum_Ico_consecutive _ hab hbc

theorem FewFaults.stretch (first : Nat) (h : FewFaults pattern m sym x T)
    (hfirst : ∀ b, a ≤ b → b ≤ a + (m.window + 1) → b ≤ T → faults pattern sym x a b ≤ first)
    (q : Nat) (hab : a ≤ b) (hlen : b ≤ a + (q + 1) * (m.window + 1)) (hb : b ≤ T) :
    faults pattern sym x a b ≤ first + q * m.faults := by
  induction q generalizing b with
  | zero =>
    rw [Nat.zero_mul]
    exact hfirst b hab (by omega) hb
  | succ q ih =>
    rw [Nat.succ_mul] at hlen
    rw [Nat.succ_mul]
    by_cases hshort : b ≤ a + (m.window + 1)
    · have hle := hfirst b hab hshort hb
      omega
    · have hrest := ih (b := b - (m.window + 1)) (by omega) (by omega) (by omega)
      have hlast := h (b - (m.window + 1)) b (by omega) (by omega) hb
      have hsum := faults_add pattern sym x (a := a) (b := b - (m.window + 1)) (c := b)
        (by omega) (by omega)
      omega

end Stretches

section Traceback
variable {pattern : List UInt8} {sym : Nat → UInt8} {x y : Nat → State} {m : Margin}
  {k depth T a b j : Nat} {z : Nat → Nat}

theorem few_windows {q t : Nat} (h : q * (4 * t + 1) ≤ 2 * (t + q * t)) : q = 0 := by
  cases q with
  | zero => rfl
  | succ q =>
    have hexpand : (q + 1) * (4 * t + 1) = 4 * ((q + 1) * t) + (q + 1) := by ring
    have hmore : t ≤ (q + 1) * t := Nat.le_mul_of_pos_left t q.succ_pos
    omega

theorem exists_windows {W : Nat} (hW : 0 < W) (n : Nat) :
    ∃ q, q = n / W ∧ q * W ≤ n ∧ n < (q + 1) * W := by
  refine ⟨n / W, rfl, Nat.div_mul_le_self n W, ?_⟩
  rw [Nat.mul_comm]
  exact Nat.lt_mul_div_succ n hW

theorem free_le (hpos : 0 < k) (hlength : pattern.length = 2 * k) (hm : Ample pattern m depth)
    (hz : Walk 32 T z) (hodd : z (j + 1) % 2 = 1) (haj : a ≤ j) (hjb : j < b) (hb : b ≤ T)
    (hend : z b = 0 ∨ j + 1 + depth ≤ b) :
    (if z j = 0 then 2 * m.faults else 2 * m.first) < weight (weights pattern) z a b := by
  have hj := hz.small j (by omega)
  have htaken : taken z j = 2 * z j + 1 := by rw [taken, hodd]
  have hnext : z (j + 1) = (2 * z j + 1) % 64 := by
    have hwalk := hz.next (show j < T by omega)
    omega
  have hfree := hm.free j (z j) (by omega)
  have hrest := costs_free_le (L := depth) (weights_complete hpos hlength) hz (n := j + 1) hjb hb
    hend
  have hhead := weight_head (weights pattern) z hjb
  have hlayer := layer_weights hpos hlength (n := j) (r := taken z j) (by omega)
  have hmono := weight_mono (weights pattern) z haj hjb.le le_rfl
  rw [← hnext] at hfree
  rw [hlayer, htaken] at hhead
  omega

theorem no_detour (hpos : 0 < k) (hlength : pattern.length = 2 * k) (hm : Ample pattern m depth)
    (hwindow : 0 < m.window) (hfew : FewFaults pattern m sym x T) (hz : Walk 32 T z)
    (hweight : weight (weights pattern) z a b ≤ 2 * faults pattern sym x a b)
    (hstart : z a = 0) (hab : a + 1 < b) (hb : b ≤ T) (hend : z b = 0 ∨ a + 1 + depth ≤ b)
    (haway : ∀ i, a < i → i < b → z i ≠ 0) : False := by
  obtain ⟨q, -, hle, hlt⟩ := exists_windows hwindow (b - a - 2)
  have hspan : (q + 1) * (m.window + 1) = (q + 1) * m.window + (q + 1) := by ring
  have hwindows := windows_le (weights_complete hpos hlength) hz hm.window q (a := a + 1)
    (by omega) fun i hi hlast => haway i (by omega) (by omega)
  have hmono : weight (weights pattern) z (a + 1) (a + 1 + q * m.window) ≤
      weight (weights pattern) z a b := weight_mono _ z (by omega) (by omega) (by omega)
  have hfaults := hfew.stretch m.faults (a := a) (b := b) (hfew a) q (by omega) (by omega) hb
  have hzero : q = 0 := few_windows (t := m.faults) (by omega)
  have hodd : z (a + 1) % 2 = 1 := by
    have hshift := hz.shift a (by omega)
    have hne := haway (a + 1) (by omega) hab
    rw [hstart] at hshift
    omega
  have hfree := free_le hpos hlength hm hz hodd le_rfl (by omega) hb hend
  rw [if_pos hstart] at hfree
  rw [hzero, Nat.zero_mul, Nat.add_zero] at hfaults
  omega

/-- What is known of the metrics that the decoding starts from: they are alike, and the first
window has few faults, or the bit is late enough for their spread `β` to be made up for. -/
def Settled (pattern : List UInt8) (m : Margin) (sym : Nat → UInt8) (x : Nat → State)
    (T β j : Nat) : Prop :=
  (β = 0 ∧ ∀ b ≤ m.window + 1, b ≤ T → faults pattern sym x 0 b ≤ m.first) ∨
    2 * m.faults + β < (j + 1) / m.window * (2 * m.faults + 1)

theorem no_late_start {β : Nat} (hpos : 0 < k) (hlength : pattern.length = 2 * k)
    (hm : Ample pattern m depth) (hwindow : 0 < m.window) (hfirst : m.first ≤ m.faults)
    (hfew : FewFaults pattern m sym x T) (hz : Walk 32 T z)
    (hweight : weight (weights pattern) z 0 b ≤ 2 * faults pattern sym x 0 b + β)
    (hsettled : Settled pattern m sym x T β j) (hodd : z (j + 1) % 2 = 1) (hjb : j + 1 < b)
    (hb : b ≤ T) (hend : z b = 0 ∨ j + 1 + depth ≤ b) (haway : ∀ i < b, z i ≠ 0) : False := by
  obtain ⟨q, hq, hle, hlt⟩ := exists_windows hwindow (b - 1)
  have hspan : (q + 1) * (m.window + 1) = (q + 1) * m.window + (q + 1) := by ring
  have hwindows := windows_le (weights_complete hpos hlength) hz hm.window q (a := 0)
    (by omega) fun i _ hlast => haway i (by omega)
  have hmono : weight (weights pattern) z 0 (0 + q * m.window) ≤
      weight (weights pattern) z 0 b := weight_mono _ z le_rfl (by omega) (by omega)
  cases hsettled with
  | inl h =>
    obtain ⟨hβ, hstart⟩ := h
    have hfaults := hfew.stretch m.first (a := 0) (b := b)
      (fun c _ hlen hc => hstart c (by omega) hc) q (by omega) (by omega) hb
    have hzero : q = 0 := few_windows (t := m.faults) (by omega)
    have hfree := free_le hpos hlength hm hz hodd (Nat.zero_le j) (by omega) hb hend
    rw [if_neg (haway j (by omega))] at hfree
    rw [hzero, Nat.zero_mul, Nat.add_zero] at hfaults
    omega
  | inr h =>
    have hfaults := hfew.stretch m.faults (a := 0) (b := b) (hfew 0) q (by omega) (by omega) hb
    have hlate : (j + 1) / m.window ≤ q := hq ▸ Nat.div_le_div_right (by omega)
    have hmany := Nat.mul_le_mul_right (2 * m.faults + 1) hlate
    have hexpand : q * (4 * m.faults + 1) = q * (2 * m.faults + 1) + 2 * (q * m.faults) := by ring
    omega

theorem traceback_bit {M : Nat → State → Nat} {prev : Nat → State → State} {best : State} {β : Nat}
    (hpos : 0 < k) (hlength : pattern.length = 2 * k) (hm : Ample pattern m depth)
    (hwindow : 0 < m.window) (hfirst : m.first ≤ m.faults) (hdepth : 0 < depth)
    (htable : Table (received sym) T M prev) (hbest : ∀ r, M T r ≤ M T best)
    (hstart : ∀ r s, M 0 r ≤ M 0 s + β) (hx : (received sym).Path x 0 T)
    (hfew : FewFaults pattern m sym x T) (hsettled : Settled pattern m sym x T β j)
    (hj : j + 1 + depth ≤ T) :
    (trace prev T best (j + 1)).val % 2 = (x (j + 1)).val % 2 := by
  by_contra hne
  let y := trace prev T best
  let z := difference x y
  have hy : (received sym).Path y 0 T := htable.trace_path le_rfl best
  have hz : Walk 32 T z := difference_walk hx hy
  have hodd : z (j + 1) % 2 = 1 := by
    have hxor : z (j + 1) % 2 = ((x (j + 1)).val + (y (j + 1)).val) % 2 := Nat.xor_mod_two_eq
    change ¬(y (j + 1)).val % 2 = (x (j + 1)).val % 2 at hne
    omega
  have hnonzero : z (j + 1) ≠ 0 := by omega
  obtain ⟨a, ha, hleft, hbefore⟩ := stretch_before z (j + 1)
  obtain ⟨b, hjb, hb, hright, hafter⟩ := stretch_after z (show j + 1 ≤ T by omega)
  have haj : a ≤ j := by
    by_contra hlate
    obtain rfl : a = j + 1 := by omega
    exact hnonzero (hleft.resolve_left (by omega))
  have hjb' : j + 1 < b := by
    by_contra hearly
    obtain rfl : b = j + 1 := by omega
    exact hnonzero (hright.resolve_left (by omega))
  have haway (i : Nat) (hi : a < i) (hlt : i < b) : z i ≠ 0 := by
    by_cases hbound : i ≤ j + 1
    · exact hbefore i hi hbound
    · exact hafter i (by omega) hlt
  have hend : z b = 0 ∨ j + 1 + depth ≤ b := by
    cases hright with
    | inl h => exact Or.inr (h ▸ hj)
    | inr h => exact Or.inl h
  have hlast : M b (x b) ≤ M b (trace prev T best b) := by
    cases hright with
    | inl h =>
      rw [h, trace_self]
      exact hbest _
    | inr h => exact (congrArg (M b) (difference_eq_zero.mp h)).le
  have hpath : (received sym).Path x a b := hx.mono (Nat.zero_le a) hb
  have htotal := weight_total sym x y hpos hlength (show a ≤ b by omega)
  by_cases hzero : z a = 0
  · have hgain := htable.total_le_trace le_rfl (β := 0) hpath (by omega) hb
      (congrArg (M a) (difference_eq_zero.mp hzero)).symm.le hlast
    refine no_detour hpos hlength hm hwindow hfew hz ?_ hzero (by omega) hb ?_ haway
    · change (received sym).total x a b ≤ (received sym).total y a b + 0 at hgain
      change weight (weights pattern) (difference x y) a b ≤ _
      omega
    · exact hend.imp_right fun h => by omega
  · obtain rfl : a = 0 := hleft.resolve_right hzero
    have hgain := htable.total_le_trace le_rfl (β := β) hpath (by omega) hb (hstart _ _) hlast
    refine no_late_start hpos hlength hm hwindow hfirst hfew hz ?_ hsettled hodd hjb' hb hend ?_
    · change (received sym).total x 0 b ≤ (received sym).total y 0 b + β at hgain
      change weight (weights pattern) (difference x y) 0 b ≤ _
      omega
    · intro i hlt
      cases Nat.eq_zero_or_pos i with
      | inl h => exact h ▸ hzero
      | inr h => exact haway i h hlt

end Traceback

section Bits

def encoder (x0 : State) (u : Nat → Bool) : Nat → State
  | 0 => x0
  | n + 1 => follow (encoder x0 u n) (u n)

theorem encoder_bit (x0 : State) (u : Nat → Bool) (n : Nat) :
    (encoder x0 u (n + 1)).val % 2 = (u n).toNat := by
  have hbit := Bool.toNat_le (u n)
  simp only [encoder, follow]
  omega

theorem encoder_path (sym : Nat → UInt8) (x0 : State) (u : Nat → Bool) (a b : Nat) :
    (received sym).Path (encoder x0 u) a b :=
  fun n _ _ => edge_follow (encoder x0 u n) (u n)

def outputTime (ntb j : Nat) : Nat := 8 * (j / 8 + ntb) + 6

theorem written_bit {init : State → Nat} {sym : Nat → UInt8} {e : Encoding} {F β j : Nat}
    {decoded : Buffer UInt8} {x0 : State} {u : Nat → Bool}
    (hw : Written init sym e.settings.1 F decoded) (hinit : ∀ r s, init r ≤ init s + β)
    (hj : j / 8 + e.settings.1 < F)
    (hfew : FewFaults e.settings.2.1 e.margin sym (encoder x0 u) (outputTime e.settings.1 j))
    (hsettled : Settled e.settings.2.1 e.margin sym (encoder x0 u) (outputTime e.settings.1 j) β j) :
    (decoded.cell j).toNat = (u j).toNat := by
  obtain ⟨hpos, hlength, -, -, hntb, -⟩ := settings_patterned e
  obtain ⟨best, hbest, hbyte⟩ := hw (j / 8 + e.settings.1) (by omega) hj
  have hbit := hbyte (j % 8) (Nat.mod_lt j (by decide))
  have hcell : (j / 8 + e.settings.1 - e.settings.1) * 8 + j % 8 = j := by omega
  have htime : 8 * (j / 8 + e.settings.1 - e.settings.1) + 6 + j % 8 = j + 6 := by omega
  have hmargin : 0 < e.margin.window ∧ e.margin.first ≤ e.margin.faults := by cases e <;> decide
  have hsent := traceback_bit hpos hlength (margin_ample e) hmargin.1 hmargin.2 (by omega)
    (table init sym (outputTime e.settings.1 j)) hbest hinit (encoder_path sym x0 u 0 _) hfew
    hsettled (by simp only [outputTime]; omega)
  rw [encoder_bit] at hsent
  rw [hcell, htime, oldest_trace (survivors_edge init sym) (by omega)] at hbit
  exact hbit.trans hsent

/-- The bits `u`, sent from the state `x0` on, are received with few faults before the output that
the bit `j` is in. -/
def Reception.Well (r : Reception) (d : Decoder) (x0 : State) (u : Nat → Bool) (j : Nat) : Prop :=
  FewFaults r.ofdm.encoding.settings.2.1 r.ofdm.encoding.margin (r.symbols d) (encoder x0 u)
    (outputTime r.ofdm.encoding.settings.1 j)

/-- And with fewer in the first window. -/
def Reception.WellFrom (r : Reception) (d : Decoder) (x0 : State) (u : Nat → Bool) (j : Nat) :
    Prop :=
  ∀ b ≤ r.ofdm.encoding.margin.window + 1, b ≤ outputTime r.ofdm.encoding.settings.1 j →
    faults r.ofdm.encoding.settings.2.1 (r.symbols d) (encoder x0 u) 0 b ≤
      r.ofdm.encoding.margin.first

theorem output_before {n j : Nat} (ntb : Nat) (hj : j < n) : j / 8 + ntb < frameOutputs ntb n := by
  rw [frameOutputs, if_neg (by omega)]
  omega

variable {r : Reception} {d d' : Decoder} {fuel : Nat}

theorem outcome_bit {β j : Nat} (h : Outcome r.ofdm r.frame r.bits d d')
    (hspread : ∀ s t, startMetrics d s ≤ startMetrics d t + β) (x0 : State) (u : Nat → Bool)
    (hj : j < r.frame.nDataBits) (hwell : r.Well d x0 u j)
    (hsettled : Settled r.ofdm.encoding.settings.2.1 r.ofdm.encoding.margin (r.symbols d)
      (encoder x0 u) (outputTime r.ofdm.encoding.settings.1 j) β j) :
    (d'.decoded.cell j).toNat = (u j).toNat :=
  written_bit h.written hspread (output_before r.ofdm.encoding.settings.1 hj) hwell hsettled

/-- The first frame: every bit comes out as it was sent. -/
theorem first_frame_exact (hfuel : maxEncodedBits ≤ fuel) (hr : r.Valid) (mem : Buffer UInt8) :
    ∃ d', decodeOne fuel mem Decoder.start r = some d' ∧
      ∀ x0 u, ∀ j < r.frame.nDataBits, r.Well Decoder.start x0 u j →
        r.WellFrom Decoder.start x0 u j → (d'.decoded.cell j).toNat = (u j).toNat := by
  obtain ⟨d', hrun, hout⟩ := decodeOne_ends hfuel start_sound hr mem
  have hzero (s : State) : startMetrics Decoder.start s = 0 := by
    rw [startMetrics]
    split <;> rfl
  refine ⟨d', hrun, ?_⟩
  intro x0 u j hj hwell hstart
  refine outcome_bit (β := 0) hout ?_ x0 u hj hwell (Or.inl ⟨rfl, hstart⟩)
  intro s t
  rw [hzero s, hzero t]

/-- `n` bits in BPSK_1_2; the symbols at the positions `flipped` are received wrong. -/
def noisyFrame (n : Nat) (u : Nat → Bool) (flipped : List Nat) : Reception where
  ofdm := ⟨.BPSK_1_2, 48⟩
  frame := ⟨(n + 23) / 24, n⟩
  bits := ⟨maxEncodedBits, fun p =>
    bitByte (label (if p % 2 = 0 then polys0 else polys1)
      (register (encoder 0 u (p / 2)) (encoder 0 u (p / 2 + 1))) ^^ flipped.contains p)⟩

def everyThird (n : Nat) : Bool := n % 3 == 0

theorem noisyFrame_valid {n : Nat} (hn : n ≤ 800) (u : Nat → Bool) (flipped : List Nat) :
    (noisyFrame n u flipped).Valid := by
  refine ⟨rfl, ?_, ?_, fun h => absurd rfl h, fun h => absurd rfl h⟩
  · intro p _
    have hbit (bit : Bool) : (bitByte bit).toNat ≤ 1 := by cases bit <;> decide
    exact hbit _
  · change 16 * (if n = 0 then 0 else 5 + (n + 7) / 8) + 56 ≤ 24780
    split <;> omega

theorem faults_le {pattern : List UInt8} {sym : Nat → UInt8} {x : Nat → State} {T t a b : Nat}
    (h : faults pattern sym x 0 T ≤ t) (hab : a ≤ b) (hb : b ≤ T) : faults pattern sym x a b ≤ t := by
  have hfront := faults_add pattern sym x (Nat.zero_le a) hab
  have hback := faults_add pattern sym x (Nat.zero_le b) hb
  omega

theorem first_frame_exact_noisy : ∃ d', decodeOne maxEncodedBits (zeros 384) Decoder.start
    (noisyFrame 16 everyThird [3, 20]) = some d' ∧
      ∀ j < 16, (d'.decoded.cell j).toNat = (everyThird j).toNat := by
  obtain ⟨d', hrun, hbits⟩ := first_frame_exact le_rfl
    (noisyFrame_valid (show 16 ≤ 800 by decide) everyThird [3, 20]) (zeros 384)
  refine ⟨d', hrun, ?_⟩
  intro j hj
  have hall : faults puncture12 ((noisyFrame 16 everyThird [3, 20]).symbols Decoder.start)
      (encoder 0 everyThird) 0 54 ≤ 2 := by decide +kernel
  have htime : outputTime 5 j ≤ 54 := by
    simp only [outputTime]
    omega
  refine hbits 0 everyThird j hj ?_ ?_
  · intro a b hab _ hb
    exact (faults_le hall hab (hb.trans htime)).trans (by decide)
  · intro b _ hb
    exact faults_le hall (Nat.zero_le b) (hb.trans htime)

/-- The bits at the beginning of a frame that the metrics of the frame before may spoil. -/
def Encoding.unsettled : Encoding → Nat
  | .BPSK_1_2 | .QPSK_1_2 | .QAM16_1_2 => 173
  | .QAM64_2_3 => 279
  | .BPSK_3_4 | .QPSK_3_4 | .QAM16_3_4 | .QAM64_3_4 => 419

theorem unsettled_windows (e : Encoding) {j : Nat} (hj : e.unsettled ≤ j) :
    2 * e.margin.faults + 12 < (j + 1) / e.margin.window * (2 * e.margin.faults + 1) := by
  cases e <;> simp only [Encoding.unsettled, Encoding.margin] at hj ⊢ <;> omega

/-- A frame that others went before, whose metrics viterbiChunksInitGeneric does not all clear. -/
theorem later_frame_exact (hfuel : maxEncodedBits ≤ fuel) (before : List Reception)
    (hbefore : ∀ r ∈ before, r.Valid) (hr : r.Valid) (mem : Buffer UInt8) :
    ∃ d d', decodeAll fuel mem before Decoder.start = some d ∧
      decodeOne fuel mem d r = some d' ∧
      ∀ x0 u, ∀ j < r.frame.nDataBits, r.ofdm.encoding.unsettled ≤ j → r.Well d x0 u j →
        (d'.decoded.cell j).toNat = (u j).toNat := by
  obtain ⟨d, hall, hd⟩ := decodeAll_ends hfuel start_sound before hbefore mem
  obtain ⟨d', hrun, hout⟩ := decodeOne_ends hfuel hd hr mem
  refine ⟨d, d', hall, hrun, ?_⟩
  intro x0 u j hj hlate hwell
  refine outcome_bit (β := 12) hout ?_ x0 u hj hwell
    (Or.inr (unsettled_windows r.ofdm.encoding hlate))
  intro s t
  have hle : startMetrics d s ≤ 12 := by
    rw [startMetrics]
    split
    · exact Nat.zero_le _
    · exact hd.ready.metric s s.isLt
  omega

theorem later_frame_exact_noisy : ∃ d d', decodeAll maxEncodedBits (zeros 384)
      [noisyFrame 16 everyThird [3, 20]] Decoder.start = some d ∧
    decodeOne maxEncodedBits (zeros 384) d (noisyFrame 176 everyThird [40, 41, 42, 300]) = some d' ∧
      ∀ j < 176, 173 ≤ j → (d'.decoded.cell j).toNat = (everyThird j).toNat := by
  have hbefore : ∀ r ∈ [noisyFrame 16 everyThird [3, 20]], r.Valid := by
    intro r hr
    rw [List.mem_singleton.mp hr]
    exact noisyFrame_valid (show 16 ≤ 800 by decide) everyThird [3, 20]
  obtain ⟨d, d', hall, hrun, hbits⟩ := later_frame_exact le_rfl _ hbefore
    (noisyFrame_valid (show 176 ≤ 800 by decide) everyThird [40, 41, 42, 300]) (zeros 384)
  refine ⟨d, d', hall, hrun, ?_⟩
  intro j hj hlate
  have hfaults : faults puncture12 ((noisyFrame 176 everyThird [40, 41, 42, 300]).symbols
      Decoder.start) (encoder 0 everyThird) 0 214 ≤ 4 := by decide +kernel
  have htime : outputTime 5 j ≤ 214 := by
    simp only [outputTime]
    omega
  refine hbits 0 everyThird j hj hlate ?_
  intro a b hab _ hb
  exact faults_le hfaults hab (hb.trans htime)

end Bits

end EspDrivers.Viterbi
