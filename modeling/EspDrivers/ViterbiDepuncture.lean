import EspDrivers.ConvolutionalCode
import EspDrivers.Fills

/-! depuncture puts the bits received back to the positions that the pattern keeps, and erasures
between them. -/
namespace EspDrivers.Viterbi
open Buffers Checked Fills

section Patterns
variable {pattern : List UInt8} {p q : Nat}

def Keeps (pattern : List UInt8) (p : Nat) : Prop := pattern.getD (p % pattern.length) 0 ≠ 0

instance (pattern : List UInt8) : DecidablePred (Keeps pattern) :=
  fun _ => inferInstanceAs (Decidable (_ ≠ _))

def sent (pattern : List UInt8) (p : Nat) : Nat := Nat.count (Keeps pattern) p

theorem sent_skip (hpq : p ≤ q) (h : ∀ i, p ≤ i → i < q → ¬Keeps pattern i) :
    sent pattern q = sent pattern p := by
  induction q, hpq using Nat.le_induction with
  | base => rfl
  | succ q hpq ih =>
    rw [← ih fun i hle hlt => h i hle (Nat.lt_succ_of_lt hlt), sent, Nat.count_succ,
      if_neg (h q hpq (Nat.lt_succ_self q))]
    rfl

theorem sent_succ (h : Keeps pattern p) : sent pattern (p + 1) = sent pattern p + 1 := by
  rw [sent, Nat.count_succ, if_pos h]
  rfl

theorem keeps_soon (h : Keeps pattern 0) (hpos : 0 < pattern.length) (p : Nat) :
    ∃ q, p ≤ q ∧ q < p + pattern.length ∧ Keeps pattern q := by
  have hp := Nat.mod_lt p hpos
  refine ⟨p + (pattern.length - p % pattern.length) % pattern.length, Nat.le_add_right _ _,
    Nat.add_lt_add_left (Nat.mod_lt _ hpos) p, ?_⟩
  have hmod : (p + (pattern.length - p % pattern.length) % pattern.length) % pattern.length = 0 := by
    have hsum : p + (pattern.length - p % pattern.length) =
        pattern.length * (p / pattern.length + 1) := by
      have hdiv := Nat.div_add_mod p pattern.length
      rw [Nat.mul_succ]
      omega
    rw [Nat.add_mod_mod, hsum, Nat.mul_mod_right]
  rw [Keeps, hmod]
  rwa [Keeps, Nat.zero_mod] at h

theorem sent_mono (pattern : List UInt8) : Monotone (sent pattern) := Nat.count_monotone _

theorem lt_iff_sent {count : Nat} (h : Keeps pattern count) :
    p < count ↔ sent pattern (p + 1) ≤ sent pattern count := by
  constructor
  · exact fun hlt => sent_mono pattern hlt
  · intro hle
    by_contra hge
    have hmono := sent_mono pattern (Nat.succ_le_succ (Nat.le_of_not_lt hge))
    rw [Nat.succ_eq_add_one, sent_succ h] at hmono
    exact absurd (hmono.trans hle) (Nat.not_succ_le_self _)

/-- The symbols that are transmitted of the first `P` of a code word. -/
def puncture (pattern : List UInt8) (code : Nat → UInt8) (P : Nat) : List UInt8 :=
  ((List.range P).filter (Keeps pattern ·)).map code

theorem length_puncture (pattern : List UInt8) (code : Nat → UInt8) (P : Nat) :
    (puncture pattern code P).length = sent pattern P := by
  rw [puncture, List.length_map, ← List.countP_eq_length_filter]
  rfl

theorem getElem?_puncture {code : Nat → UInt8} {P : Nat} (hp : p < P) (h : Keeps pattern p) :
    (puncture pattern code P)[sent pattern p]? = some (code p) := by
  induction P with
  | zero => exact absurd hp (Nat.not_lt_zero p)
  | succ P ih =>
    have hsplit : puncture pattern code (P + 1) =
        puncture pattern code P ++ ([P].filter (Keeps pattern ·)).map code := by
      rw [puncture, List.range_succ, List.filter_append, List.map_append]
      rfl
    cases Nat.lt_or_eq_of_le (Nat.le_of_lt_succ hp) with
    | inl hlt =>
      have hfront : sent pattern p < (puncture pattern code P).length := by
        rw [length_puncture]
        exact Nat.count_strict_mono h hlt
      rw [hsplit, List.getElem?_append_left hfront]
      exact ih hlt
    | inr heq =>
      subst heq
      have hlast : sent pattern p = (puncture pattern code p).length := by rw [length_puncture]
      have hone : [p].filter (Keeps pattern ·) = [p] := by simp [h]
      rw [hsplit, hlast, List.getElem?_append_right le_rfl, Nat.sub_self, hone]
      rfl

end Patterns

section Skipping
variable {d : Decoder} {b : Buffer UInt8} {count stop : Nat}

/-- The pattern in use has a period of `2 * k` and keeps its first position. -/
structure Patterned (d : Decoder) : Prop where
  pos : 0 < d.k
  length : d.depuncturePattern.length = 2 * d.k
  first : Keeps d.depuncturePattern 0

theorem skipPunctured_ends (hd : Patterned d) (hstop : Keeps d.depuncturePattern stop)
    (hle : count ≤ stop) (hsize : stop ≤ b.size) :
    ∃ next, skipPunctured d (b, count) = some (fill b count (next - count) fun _ => 2, next) ∧
      count ≤ next ∧ next ≤ stop ∧ Keeps d.depuncturePattern next ∧
      ∀ i, count ≤ i → i < next → ¬Keeps d.depuncturePattern i := by
  have hk := hd.pos
  have hlength := hd.length
  obtain ⟨q, hq, hsoon, hkq⟩ := keeps_soon hd.first (by omega) count
  have hex : ∃ next, count ≤ next ∧ Keeps d.depuncturePattern next := ⟨q, hq, hkq⟩
  let next := Nat.find hex
  have hnext : count ≤ next ∧ Keeps d.depuncturePattern next := Nat.find_spec hex
  have hnextq : next ≤ q := Nat.find_min' hex ⟨hq, hkq⟩
  have hnextstop : next ≤ stop := Nat.find_min' hex ⟨hle, hstop⟩
  have hnot (i : Nat) (hi : count ≤ i) (hlt : i < next) : ¬Keeps d.depuncturePattern i :=
    fun h => Nat.find_min hex hlt ⟨hi, h⟩
  have hload (p : Nat) : d.depuncturePattern[p % (2 * d.k)]? =
      some (d.depuncturePattern.getD (p % d.depuncturePattern.length) 0) := by
    have hlt : p % (2 * d.k) < d.depuncturePattern.length := by
      rw [hd.length]
      exact Nat.mod_lt _ (by omega)
    rw [hd.length, List.getD_eq_getElem?_getD, List.getElem?_eq_getElem hlt, Option.getD_some]
  let test (s : Buffer UInt8 × Nat) : Option Bool := do
    some (decide ((← d.depuncturePattern[s.2 % (2 * d.k)]?) = 0))
  let body (s : Buffer UInt8 × Nat) : Option (Buffer UInt8 × Nat) := do
    some (← s.1.store s.2 2, s.2 + 1)
  have hkept (p : Nat) (h : Keeps d.depuncturePattern p) (c : Buffer UInt8) :
      test (c, p) = some false := by
    simp only [test, hload, Option.bind_eq_bind, Option.bind_some]
    exact congrArg some (decide_eq_false h)
  have hskipped (p : Nat) (h : ¬Keeps d.depuncturePattern p) (c : Buffer UInt8) :
      test (c, p) = some true := by
    simp only [test, hload, Option.bind_eq_bind, Option.bind_some]
    exact congrArg some (decide_eq_true (not_not.mp h))
  have hround (s : Buffer UInt8 × Nat)
      (hs : s.1 = fill b count (s.2 - count) (fun _ => 2) ∧ count ≤ s.2 ∧ s.2 ≤ next) :
      test s = some false ∨ test s = some true ∧ ∃ t, body s = some t ∧
        (t.1 = fill b count (t.2 - count) (fun _ => 2) ∧ count ≤ t.2 ∧ t.2 ≤ next) ∧
        next - t.2 < next - s.2 := by
    obtain ⟨c, p⟩ := s
    obtain ⟨hc, hge, hlast⟩ := hs
    simp only at hc hge hlast
    cases Nat.lt_or_eq_of_le hlast with
    | inl hlt =>
      have hin : p < c.size := by
        rw [hc]
        exact hlt.trans_le (hnextstop.trans hsize)
      have hlen : p + 1 - count = p - count + 1 := by omega
      have hat : count + (p - count) = p := by omega
      have hcell := update_fill b count (p - count) fun _ => 2
      rw [hat] at hcell
      refine Or.inr ⟨hskipped p (hnot p hge hlt) c, (fill b count (p + 1 - count) fun _ => 2, p + 1),
        ?_, ⟨rfl, Nat.le_succ_of_le hge, hlt⟩, ?_⟩
      · simp only [body]
        rw [Buffer.store_eq hin, hlen, ← hcell, hc]
        rfl
      · simp only
        omega
    | inr heq => exact Or.inl (hkept p (heq ▸ hnext.2) c)
  obtain ⟨t, ht, ⟨hfill, hge, hlast⟩, htest⟩ := whileLoop_ends _ (fun s => next - s.2) hround
    (s := (b, count)) ⟨by rw [Nat.sub_self, fill_zero], le_rfl, hnext.1⟩
  have hend : t.2 = next := by
    by_contra hne
    have hgo := hskipped t.2 (hnot t.2 hge (by omega)) t.1
    rw [htest] at hgo
    cases hgo
  have hrun := ht (2 * d.k + 1) (by simp only; omega)
  refine ⟨next, ?_, hnext.1, hnextstop, hnext.2, hnot⟩
  rw [← hend, ← hfill]
  exact hrun

end Skipping

section Frames
variable {d : Decoder}

/-- `n` bits are back at their positions below `count`, with erasures between them. -/
structure Restored (pattern : List UInt8) (bits : Nat → UInt8) (old : Buffer UInt8) (n : Nat)
    (s : Buffer UInt8 × Nat) : Prop where
  size : s.1.size = old.size
  total : sent pattern s.2 = n
  filled : ∀ p < s.2, s.1.cell p = if Keeps pattern p then bits (sent pattern p) else 2
  kept : ∀ p, s.2 ≤ p → s.1.cell p = old.cell p

variable {pattern : List UInt8} {old b : Buffer UInt8} {f : Nat → UInt8} {n count next : Nat}

theorem Restored.skip (h : Restored pattern f old n (b, count)) (hle : count ≤ next)
    (hnot : ∀ i, count ≤ i → i < next → ¬Keeps pattern i) :
    Restored pattern f old n (fill b count (next - count) (fun _ => 2), next) := by
  refine ⟨h.size, (sent_skip hle hnot).trans h.total, ?_, ?_⟩
  · intro p hp
    simp only at hp
    by_cases hold : p < count
    · rw [fill_outside (Or.inl hold)]
      exact h.filled p hold
    · have hat : p = count + (p - count) := by omega
      rw [if_neg (hnot p (by omega) hp)]
      simp only
      rw [hat, fill_inside (by omega)]
  · intro p hp
    simp only at hp
    rw [fill_outside (by omega)]
    exact h.kept p (hle.trans hp)

theorem Restored.insert (h : Restored pattern f old n (b, count)) (hkeeps : Keeps pattern count) :
    Restored pattern f old (n + 1) (⟨b.size, Function.update b.cell count (f n)⟩, count + 1) := by
  have hsent : sent pattern count = n := h.total
  refine ⟨h.size, (sent_succ hkeeps).trans (congrArg (· + 1) hsent), ?_, ?_⟩
  · intro p hp
    cases Nat.lt_or_eq_of_le (Nat.le_of_lt_succ hp) with
    | inl hlt =>
      rw [← h.filled p hlt]
      exact Function.update_of_ne hlt.ne _ _
    | inr heq =>
      subst heq
      rw [if_pos hkeeps, hsent]
      exact Function.update_self _ _ _
  · intro p hp
    rw [← h.kept p (Nat.le_of_succ_le hp)]
    exact Function.update_of_ne (Nat.ne_of_gt hp) _ _

/-- The symbol that the decoder finds at the position `p` when `n` bits have been received. -/
def symbolAt (pattern : List UInt8) (bits old : Nat → UInt8) (n p : Nat) : UInt8 :=
  if sent pattern (p + 1) ≤ n then if Keeps pattern p then bits (sent pattern p) else 2 else old p

theorem depuncture_ends (ofdm : OfdmParam) (frame : FrameParam) (bits : Buffer UInt8)
    (hd : Patterned d) (hnt : d.ntraceback ≠ 5)
    (hstop : Keeps d.depuncturePattern d.depunctured.size)
    (hbits : frame.nSym * ofdm.nCbps ≤ bits.size)
    (hfit : frame.nSym * ofdm.nCbps ≤ sent d.depuncturePattern d.depunctured.size) :
    ∃ b, depuncture ofdm frame d bits = some ({ d with depunctured := b }, b) ∧
      b.size = d.depunctured.size ∧ ∀ p, b.cell p = symbolAt d.depuncturePattern bits.cell
        d.depunctured.cell (frame.nSym * ofdm.nCbps) p := by
  let body (s : Buffer UInt8 × Nat) (j : Nat) : Option (Buffer UInt8 × Nat) := do
    let s ← skipPunctured d s
    let depunctured ← s.1.store s.2 (← bits.load j)
    skipPunctured d (depunctured, s.2 + 1)
  have hround (j : Nat) (hj : j < frame.nSym * ofdm.nCbps) (s : Buffer UInt8 × Nat)
      (hs : Restored d.depuncturePattern bits.cell d.depunctured j s ∧
        s.2 ≤ d.depunctured.size ∧ Keeps d.depuncturePattern s.2) :
      ∃ t, body s j = some t ∧ Restored d.depuncturePattern bits.cell d.depunctured (j + 1) t ∧
        t.2 ≤ d.depunctured.size ∧ Keeps d.depuncturePattern t.2 := by
    obtain ⟨c, p⟩ := s
    obtain ⟨hs, hp, -⟩ := hs
    have hsize : c.size = d.depunctured.size := hs.size
    obtain ⟨next, hskip, hge, hle, hkeeps, hnot⟩ := skipPunctured_ends (b := c) hd hstop hp hsize.ge
    have hs' := hs.skip hge hnot
    have hlt : next < d.depunctured.size := by
      refine Nat.lt_of_le_of_ne hle ?_
      intro heq
      have hsent : sent d.depuncturePattern next = j := hs'.total
      rw [heq] at hsent
      omega
    have hins := hs'.insert hkeeps
    obtain ⟨next', hskip', hge', hle', hkeeps', hnot'⟩ := skipPunctured_ends
      (b := ⟨c.size, Function.update (fill c p (next - p) fun _ => 2).cell next (bits.cell j)⟩)
      hd hstop (Nat.succ_le_of_lt hlt) hsize.ge
    refine ⟨_, ?_, hins.skip hge' hnot', hle', hkeeps'⟩
    simp only [body, hskip, Option.bind_eq_bind, Option.bind_some]
    rw [Buffer.load_eq (hj.trans_le hbits), Option.bind_some,
      Buffer.store_eq (by rw [fill_size, hsize]; exact hlt), Option.bind_some]
    exact hskip'
  have hstart : Restored d.depuncturePattern bits.cell d.depunctured 0 (d.depunctured, 0) :=
    ⟨rfl, Nat.count_zero _, fun p hp => absurd hp (Nat.not_lt_zero p), fun _ _ => rfl⟩
  obtain ⟨⟨b, count⟩, hrun, hend, -, hkeeps⟩ := foldlM_range_ends (frame.nSym * ofdm.nCbps)
    (fun j s => Restored d.depuncturePattern bits.cell d.depunctured j s ∧
      s.2 ≤ d.depunctured.size ∧ Keeps d.depuncturePattern s.2)
    ⟨hstart, Nat.zero_le _, hd.first⟩ hround
  rw [← foldlM_range_nest] at hrun
  refine ⟨b, ?_, hend.size, ?_⟩
  · rw [depuncture, if_neg hnt]
    simp only [body] at hrun
    rw [hrun]
    rfl
  · intro p
    have htotal : sent d.depuncturePattern count = frame.nSym * ofdm.nCbps := hend.total
    simp only [symbolAt, ← htotal, ← lt_iff_sent hkeeps]
    by_cases hp : p < count
    · rw [if_pos hp]
      exact hend.filled p hp
    · rw [if_neg hp]
      exact hend.kept p (Nat.le_of_not_lt hp)

end Frames

end EspDrivers.Viterbi
