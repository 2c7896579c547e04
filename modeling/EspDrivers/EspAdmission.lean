import EspDrivers.EspAccounting

/-! The choice between LLC and NONE for an AUTO access that does not fit the L2. The sum of
the footprints and the size of the LLC are compared by their lower 32 bits. -/
namespace EspDrivers.Esp
open ContigAlloc (bind_ok)
open Trace

section LowerBits

/-- The upper bits are the same, or the lower 32 bits are ordered as the upper bits are. -/
def LowerBitsDecide (a b : Nat) : Prop :=
  a / 2 ^ 32 = b / 2 ^ 32 ∨ (a / 2 ^ 32 < b / 2 ^ 32 ∧ a % 2 ^ 32 ≤ b % 2 ^ 32) ∨
    (b / 2 ^ 32 < a / 2 ^ 32 ∧ b % 2 ^ 32 < a % 2 ^ 32)

instance (a b : Nat) : Decidable (LowerBitsDecide a b) :=
  inferInstanceAs (Decidable (_ ∨ _))

theorem lowerBitsDecide_iff (a b : Nat) :
    LowerBitsDecide a b ↔ (a % 2 ^ 32 ≤ b % 2 ^ 32 ↔ a ≤ b) := by
  unfold LowerBitsDecide
  omega

end LowerBits

section Capacity

def accountedFootprint (s : Status) (esp : Fields) : Nat :=
  if esp.allocPolicy.onOneNode then
    if h : esp.ddrNode < nMem then (s.activeFootprintSplit ⟨esp.ddrNode, h⟩).toNat else 0
  else s.activeFootprint.toNat

def llcCapacity (c : CacheParams) (esp : Fields) : Nat :=
  if esp.allocPolicy.onOneNode then c.llcBankSize else c.llcSize

def activeWith (s : System) : Nat := s.flights.countP Flight.isAuto + 1

/-- The request gets LLC when fewer than 6 accesses are active and the footprints fit
together, and NONE otherwise. -/
def RespectsCapacity (c : CacheParams) (s : System) (esp : Fields) : Prop :=
  ∃ t esp', espRuntimeConfig c s.status esp = .ok (t, esp') ∧ esp'.coherence =
    if activeWith s < 6 ∧
      accountedFootprint s.status esp + esp.footprint.toNat ≤ llcCapacity c esp then .llc
    else .none

/-- Six accesses are active, or the lower 32 bits of the sum and of the size decide. -/
def Comparable (c : CacheParams) (s : System) (esp : Fields) : Prop :=
  6 ≤ activeWith s ∨
    LowerBitsDecide (accountedFootprint s.status esp + esp.footprint.toNat) (llcCapacity c esp)

variable {c : CacheParams} {s : System} {esp : Fields} {d : DevT}

theorem evaluateFootprint_eq (hnode : esp.ddrNode < nMem) (st : Status) :
    ∃ r, evaluateFootprint c st esp = .ok r ∧
      r.1.toNat = (accountedFootprint st esp + esp.footprint.toNat) % 2 ^ 32 ∧
      r.2.toNat = llcCapacity c esp % 2 ^ 32 := by
  by_cases hone : esp.allocPolicy.onOneNode = true
  · have hidx : splitIndex esp.ddrNode = .ok ⟨esp.ddrNode, hnode⟩ := dif_pos hnode
    refine ⟨(st.activeFootprintSplit ⟨esp.ddrNode, hnode⟩ + esp.footprint,
      BitVec.ofNat 32 c.llcBankSize), ?_, ?_, ?_⟩
    · rw [evaluateFootprint, if_pos hone, hidx]
      rfl
    · rw [accountedFootprint, if_pos hone, dif_pos hnode, BitVec.toNat_add]
    · rw [llcCapacity, if_pos hone, BitVec.toNat_ofNat]
  · refine ⟨(st.activeFootprint + esp.footprint, BitVec.ofNat 32 c.llcSize), ?_, ?_, ?_⟩
    · rw [evaluateFootprint, if_neg hone]
    · rw [accountedFootprint, if_neg hone, BitVec.toNat_add]
    · rw [llcCapacity, if_neg hone, BitVec.toNat_ofNat]

/-- The device of the request is not among those that are counted, so the counter does not
wrap around. -/
theorem InFlight.cnt_succ (hs : InFlight c s) (hd : d ≠ 0) (hfree : d ∉ s.flights.map Flight.dev) :
    (s.status.activeAccCnt + 1).toNat = activeWith s := by
  have hnodup : (0 :: d :: s.flights.map Flight.dev).Nodup := by
    have hold := List.nodup_cons.mp hs.devs
    rw [List.nodup_cons, List.nodup_cons, List.mem_cons, not_or]
    exact ⟨⟨hd.symm, hold.1⟩, hfree, hold.2⟩
  have hcard := hnodup.length_le_card
  rw [List.length_cons, List.length_cons, List.length_map, Fintype.card_fin] at hcard
  have hle : s.flights.countP Flight.isAuto ≤ s.flights.length := List.countP_le_length
  have hone : (1 : BitVec 32).toNat = 1 := rfl
  rw [BitVec.toNat_add, hs.accounted.cnt, hone, activeWith]
  exact Nat.mod_eq_of_lt (by omega)

/-- The decision as the code makes it, by the lower 32 bits. -/
theorem InFlight.decision_eq (hs : InFlight c s) (hd : d ≠ 0)
    (hfree : d ∉ s.flights.map Flight.dev) (hauto : esp.coherence = .auto)
    (hnode : esp.ddrNode < nMem) (hl2 : c.l2Size ≤ esp.footprint.toNat) :
    decision c s.status esp = if activeWith s < 6 ∧
      (accountedFootprint s.status esp + esp.footprint.toNat) % 2 ^ 32 ≤
        llcCapacity c esp % 2 ^ 32 then .llc else .none := by
  obtain ⟨r, hr, hsum, hsize⟩ := @evaluateFootprint_eq c _ hnode s.status
  have hcnt := hs.cnt_succ hd hfree
  rw [decision_auto hauto hr, chooseCoherence, if_neg (by omega)]
  have hsix : (6 : BitVec 32) ≤ s.status.activeAccCnt + 1 ↔ 6 ≤ activeWith s := by
    rw [BitVec.le_def, hcnt]
    rfl
  have hover : r.2 < r.1 ↔ llcCapacity c esp % 2 ^ 32 <
      (accountedFootprint s.status esp + esp.footprint.toNat) % 2 ^ 32 := by
    rw [BitVec.lt_def, hsum, hsize]
  simp only [hsix, hover]
  by_cases hmany : 6 ≤ activeWith s
  · rw [if_pos hmany, if_neg (by omega)]
  · rw [if_neg hmany]
    by_cases hbig : llcCapacity c esp % 2 ^ 32 <
        (accountedFootprint s.status esp + esp.footprint.toNat) % 2 ^ 32
    · rw [if_pos hbig, if_neg (by omega)]
    · rw [if_neg hbig, if_pos (by omega)]

theorem llc_or_none (p q : Prop) [Decidable p] [Decidable q] :
    ((if p then Coherence.llc else .none) = if q then .llc else .none) ↔ (p ↔ q) := by
  by_cases hp : p
  · simp [hp]
  · simp [hp]

/-- Over every interleaving and for every AUTO request of a device that has none in flight. -/
theorem admission_respects_capacity {s₀ : System} {es : List Event} (h₀ : start c = .ok s₀)
    (h : run (step c) s₀ es = some s) (hd : d ≠ 0) (hfree : d ∉ s.flights.map Flight.dev)
    (hauto : esp.coherence = .auto) (hnode : esp.ddrNode < nMem)
    (hl2 : c.l2Size ≤ esp.footprint.toNat) :
    RespectsCapacity c s esp ↔ Comparable c s esp := by
  have hs := inFlight_run h₀ h
  have hfits : Fits c esp := ⟨fun _ => hnode, fun _ => start_banks h₀⟩
  obtain ⟨⟨t, esp'⟩, hrun⟩ := espRuntimeConfig_inBounds (Or.inl hauto) (hfits.inBounds (s := s.status))
  have hmode := (espRuntimeConfig_decision (Or.inl hauto) hrun).1
  rw [hs.decision_eq hd hfree hauto hnode hl2] at hmode
  have hiff : RespectsCapacity c s esp ↔ esp'.coherence = if activeWith s < 6 ∧
      accountedFootprint s.status esp + esp.footprint.toNat ≤ llcCapacity c esp then .llc
      else .none := by
    constructor
    · rintro ⟨t', esp'', hrun', hmode'⟩
      rw [hrun] at hrun'
      obtain ⟨-, rfl⟩ := Prod.mk.inj (Except.ok.inj hrun')
      exact hmode'
    · intro hmode'
      exact ⟨t, esp', hrun, hmode'⟩
  rw [hiff, hmode, llc_or_none, Comparable, lowerBitsDecide_iff, and_congr_right_iff,
    imp_iff_not_or, not_lt]

def fillingAccess : Fields := ⟨.auto, 262144, .balanced, 0, 0, 0⟩

/-- With a request that fills the LLC the footprints add up to 2 ^ 32. -/
def wrappingAccess : Fields := ⟨.auto, 4294705152, .balanced, 0, 0, 0⟩

theorem admission_respects_capacity_full : ∃ s₀ s, start .default = .ok s₀ ∧
    run (step .default) s₀ [.config 1 fillingAccess] = some s ∧
      RespectsCapacity .default s balancedAccess := by
  have hrun : ∃ s₀ s, start .default = .ok s₀ ∧
      run (step .default) s₀ [.config 1 fillingAccess] = some s ∧
        s.flights.map Flight.dev = [1] ∧ Comparable .default s balancedAccess :=
    ⟨_, _, rfl, rfl, rfl, Or.inr (by decide)⟩
  obtain ⟨s₀, s, h₀, h, hdevs, hcmp⟩ := hrun
  refine ⟨s₀, s, h₀, h, ?_⟩
  exact (admission_respects_capacity (d := 2) h₀ h (by decide) (by rw [hdevs]; decide) rfl
    (by decide) (by decide)).mpr hcmp

theorem wrapped_sum_admitted : ¬ ∀ (c : CacheParams) (s₀ s : System) (es : List Event) (d : DevT)
    (esp : Fields), start c = .ok s₀ → run (step c) s₀ es = some s → d ≠ 0 →
      d ∉ s.flights.map Flight.dev → esp.coherence = .auto → esp.ddrNode < nMem →
        c.l2Size ≤ esp.footprint.toNat → RespectsCapacity c s esp := by
  intro h
  have hrun : ∃ s₀ s, start .default = .ok s₀ ∧
      run (step .default) s₀ [.config 1 fillingAccess] = some s ∧
        s.flights.map Flight.dev = [1] ∧
          accountedFootprint s.status wrappingAccess = 262144 ∧
            ((espRuntimeConfig .default s.status wrappingAccess).map fun r => r.2.coherence).toOption =
              some .llc := ⟨_, _, rfl, rfl, rfl, by decide, by decide⟩
  obtain ⟨s₀, s, h₀, h', hdevs, hsum, hllc⟩ := hrun
  obtain ⟨t, esp', hconfig, hmode⟩ := h .default s₀ s _ 2 wrappingAccess h₀ h' (by decide)
    (by rw [hdevs]; decide) rfl (by decide) (by decide)
  rw [hconfig] at hllc
  have hchosen : esp'.coherence = .llc := by simpa [Except.map, Except.toOption] using hllc
  have hover : ¬ 262144 + wrappingAccess.footprint.toNat ≤ llcCapacity .default wrappingAccess := by
    decide
  rw [hchosen, hsum, if_neg fun hfit => hover hfit.2] at hmode
  cases hmode

end Capacity

end EspDrivers.Esp
