import EspDrivers.EspAdmission
import EspDrivers.SynthChain

/-! The footprint that config_thread hands to the driver counts words, and
esp_runtime_config compares it with sizes of caches in bytes. -/
namespace EspDrivers.Synth
open Esp
open Trace

section Code
variable {δ : Type}

/-- What alloc_phase sets for an accelerator, once the buffer of its thread is allocated. -/
def allocLink (coherence : Coherence) (policy : Policy) (mostAllocated : Fin nMem) (contig : Nat)
    (l : Link δ) : Link δ :=
  { l with desc := { l.desc with esp := { l.desc.esp with
      run := true
      coherence := coherence
      contig := contig
      allocPolicy := policy
      ddrNode := mostAllocated.val
      p2pStore := false
      p2pNsrcs := 0 } } }

def SynthCfg.elements (c : SynthCfg) : Nat :=
  (c.inSize >>> c.accessFactor).toNat + if c.inPlace = 0 then c.outSize.toNat else 0

def SynthCfg.bytesTouched (c : SynthCfg) : Nat := 4 * c.elements

def GrantsFull (c : CacheParams) (s : Status) (esp : Fields) : Prop :=
  ∃ t esp', espRuntimeConfig c s esp = .ok (t, esp') ∧ esp'.coherence = .full

/-- No accelerator that touches the size of the L2 or more is made fully coherent. -/
def FullFitsL2 (c : CacheParams) (s : Status) (l : Link δ) : Prop :=
  GrantsFull c s l.desc.esp.fields → l.desc.cfg.bytesTouched < c.l2Size

/-- What is compared with the sizes of the caches counts bytes. -/
structure ComparesBytes (c : CacheParams) (s : Status) (l : Link δ) : Prop where
  footprint : l.desc.esp.fields.footprint.toNat = l.desc.cfg.bytesTouched
  full : FullFitsL2 c s l

end Code

section Units
variable {δ : Type} {init : δ → SynthCfg} {rand : Nat → Nat} {v : Sizes} {info info' : ThreadInfo δ}
  {l link : Link δ} {t u : Totals} {c : CacheParams} {s : System}

theorem configAcc_footprint {r : Nat} {inSize outSize : BitVec 32}
    (h : configAcc init r inSize outSize t link = some (l, u)) :
    l.desc.esp.footprint.toNat = l.desc.cfg.elements % 2 ^ 32 := by
  by_cases hfactor : (init link.devid).accessFactor.toNat < 32
  · simp only [configAcc, shiftRight, if_pos hfactor, Option.bind_eq_bind, Option.bind_some] at h
    obtain ⟨rfl, -⟩ := Prod.mk.inj (Option.some.inj h)
    by_cases hplace : (init link.devid).inPlace = 0
    · simp only [SynthCfg.elements, hplace, if_true, BitVec.toNat_add]
    · simp only [SynthCfg.elements, hplace, if_false, Nat.add_zero]
      exact (Nat.mod_eq_of_lt (BitVec.isLt _)).symm
  · simp [configAcc, shiftRight, hfactor] at h

theorem configLoop_footprint {acc : Nat} {chain ls : List (Link δ)}
    (h : configLoop init rand v acc t chain = some (ls, u)) :
    ∀ l ∈ ls, l.desc.esp.footprint.toNat = l.desc.cfg.elements % 2 ^ 32 := by
  induction chain generalizing acc t ls with
  | nil =>
    obtain ⟨rfl, -⟩ := Prod.mk.inj (Option.some.inj h)
    intro l hl
    cases hl
  | cons link chain ih =>
    simp only [configLoop, Option.bind_eq_bind, Option.bind_eq_some_iff] at h
    obtain ⟨⟨first, s⟩, hfirst, ⟨rest, w⟩, hrest, h⟩ := h
    obtain ⟨rfl, rfl⟩ := Prod.mk.inj (Option.some.inj h)
    intro l hl
    cases List.mem_cons.mp hl with
    | inl he =>
      rw [he]
      exact configAcc_footprint hfirst
    | inr hmem => exact ih hrest l hmem

theorem configThread_footprint (h : configThread init rand v info = some info')
    (hl : l ∈ info'.chain) : l.desc.esp.footprint.toNat = l.desc.cfg.elements % 2 ^ 32 := by
  simp only [configThread, Option.bind_eq_bind, Option.bind_eq_some_iff] at h
  obtain ⟨⟨ls, w⟩, hls, h⟩ := h
  obtain rfl := Option.some.inj h
  exact configLoop_footprint hls l hl

theorem grantsFull_iff {s₀ : System} {es : List Event} {esp : Fields} (h₀ : start c = .ok s₀)
    (h : run (step c) s₀ es = some s) (hauto : esp.coherence = .auto) (hnode : esp.ddrNode < nMem) :
    GrantsFull c s.status esp ↔
      esp.footprint.toNat < c.l2Size ∧ ∀ f ∈ s.flights, f.isFull = false := by
  have hs := inFlight_run h₀ h
  have hfits : Fits c esp := ⟨fun _ => hnode, fun _ => start_banks h₀⟩
  obtain ⟨⟨t, esp'⟩, hrun⟩ := espRuntimeConfig_inBounds (Or.inl hauto) (hfits.inBounds (s := s.status))
  obtain ⟨r, hr, -⟩ := @evaluateFootprint_eq c esp hnode s.status
  have hmode := (espRuntimeConfig_decision (Or.inl hauto) hrun).1
  have hgrant : GrantsFull c s.status esp ↔ decision c s.status esp = .full := by
    rw [← hmode]
    constructor
    · rintro ⟨t', esp'', hrun', hfull⟩
      rw [hrun] at hrun'
      obtain ⟨-, rfl⟩ := Prod.mk.inj (Except.ok.inj hrun')
      exact hfull
    · exact fun hfull => ⟨t, esp', hrun, hfull⟩
  have hnone : s.status.activeAccCntFull < 1 ↔ ∀ f ∈ s.flights, f.isFull = false := by
    have hone : (1 : BitVec 32).toNat = 1 := rfl
    rw [BitVec.lt_def, hone, hs.accounted.full, Nat.lt_one_iff, List.countP_eq_zero]
    simp
  rw [hgrant, decision_auto hauto hr, chooseCoherence, ← hnone]
  by_cases hsmall : esp.footprint.toNat < c.l2Size
  · simp [hsmall]
  · simp only [hsmall, if_false, false_and, iff_false]
    split
    · simp
    · split <;> simp

theorem fullFitsL2_iff {words : Nat} (hgrant : GrantsFull c s.status l.desc.esp.fields ↔
    words < c.l2Size ∧ ∀ f ∈ s.flights, f.isFull = false) :
    FullFitsL2 c s.status l ↔ (∃ f ∈ s.flights, f.isFull = true) ∨ c.l2Size ≤ words ∨
      l.desc.cfg.bytesTouched < c.l2Size := by
  rw [FullFitsL2, hgrant]
  by_cases hany : ∃ f ∈ s.flights, f.isFull = true
  · obtain ⟨f, hf, hff⟩ := hany
    refine iff_of_true ?_ (Or.inl ⟨f, hf, hff⟩)
    rintro ⟨-, hnone⟩
    rw [hnone f hf] at hff
    cases hff
  · have hnone : ∀ f ∈ s.flights, f.isFull = false := by simpa using hany
    constructor
    · intro himp
      by_cases hsmall : words < c.l2Size
      · exact Or.inr (Or.inr (himp ⟨hsmall, hnone⟩))
      · exact Or.inr (Or.inl (Nat.le_of_not_lt hsmall))
    · rintro (hsome | hlarge | hfits) ⟨hsmall, -⟩
      · exact absurd hsome hany
      · omega
      · exact hfits

theorem eq_zero_of_words_eq_bytes {e : Nat} (h : e % 2 ^ 32 = 4 * e) : e = 0 := by
  have hle : 4 * e ≤ e := h.symm.le.trans (Nat.mod_le e (2 ^ 32))
  clear h
  omega

/-- For every chain that config_thread configures, every accelerator of it with AUTO and every
esp_status that a run reaches: bytes are compared exactly when there are none, and FULL is
kept from an accelerator that touches the size of the L2 exactly when another access has it,
when already its words are that many, or when its bytes are fewer. -/
theorem comparesBytes_iff {s₀ : System} {es : List Event} (h₀ : start c = .ok s₀)
    (h : run (step c) s₀ es = some s) (hc : configThread init rand v info = some info')
    (hl : l ∈ info'.chain) (policy : Policy) (node : Fin nMem) (contig : Nat) :
    (ComparesBytes c s.status (allocLink .auto policy node contig l) ↔
      l.desc.cfg.bytesTouched = 0) ∧
    (FullFitsL2 c s.status (allocLink .auto policy node contig l) ↔
      (∃ f ∈ s.flights, f.isFull = true) ∨ c.l2Size ≤ l.desc.cfg.elements % 2 ^ 32 ∨
        l.desc.cfg.bytesTouched < c.l2Size) := by
  have hfoot := configThread_footprint hc hl
  have hcfg : (allocLink .auto policy node contig l).desc.cfg = l.desc.cfg := rfl
  have hgrant : GrantsFull c s.status (allocLink .auto policy node contig l).desc.esp.fields ↔ _ :=
    grantsFull_iff h₀ h rfl node.isLt
  have hfield : (allocLink .auto policy node contig l).desc.esp.fields.footprint.toNat =
      l.desc.cfg.elements % 2 ^ 32 := hfoot
  rw [hfield] at hgrant
  have hfull := fullFitsL2_iff hgrant
  rw [hcfg] at hfull
  refine ⟨?_, hfull⟩
  constructor
  · intro hcmp
    have heq := hcmp.footprint
    rw [hfield, hcfg, SynthCfg.bytesTouched] at heq
    rw [SynthCfg.bytesTouched, eq_zero_of_words_eq_bytes heq]
  · intro hzero
    have hnothing : l.desc.cfg.elements = 0 :=
      (Nat.mul_eq_zero.mp hzero).resolve_left (by decide)
    refine ⟨?_, hfull.mpr (Or.inr ?_)⟩
    · rw [hfield, hcfg, hzero, hnothing, Nat.zero_mod]
    · rw [hzero, hnothing, Nat.zero_mod]
      exact (Nat.eq_zero_or_pos c.l2Size).imp Nat.le_of_eq id

end Units

section Instance

/-- A chain of synth.9 alone, which stores as much as it reads. -/
def oneThread : ThreadInfo (Fin nDev) := .ofDevices (fun _ => ⟨9, by decide⟩) 1 (fun _ => blankAccess) 0

def sameSizes (size : BitVec 32) : Sizes := ⟨fun _ => size, fun _ => size⟩

theorem oneThread_configured (size : BitVec 32) : ∃ info l,
    configThread (synthCfgInit 0) (fun _ => 0) (sameSizes size) oneThread = some info ∧
      l ∈ info.chain ∧ l.desc.cfg.elements = size.toNat + size.toNat := by
  refine ⟨_, _, rfl, List.mem_cons_self, ?_⟩
  change (size >>> (0 : BitVec 32)).toNat + size.toNat = _
  simp

theorem comparesBytes_small : ∃ s₀ info l, start .default = .ok s₀ ∧
    configThread (synthCfgInit 0) (fun _ => 0) (sameSizes 1024) oneThread = some info ∧
      l ∈ info.chain ∧ FullFitsL2 .default s₀.status (allocLink .auto .balanced 0 0 l) := by
  obtain ⟨info, l, hc, hl, helements⟩ := oneThread_configured 1024
  have h₀ : ∃ s₀, start .default = .ok s₀ := ⟨_, rfl⟩
  obtain ⟨s₀, h₀⟩ := h₀
  have hrun : run (step .default) s₀ [] = some s₀ := rfl
  have hbytes : l.desc.cfg.bytesTouched < CacheParams.default.l2Size := by
    rw [SynthCfg.bytesTouched, helements]
    decide
  exact ⟨s₀, info, l, h₀, hc, hl,
    (comparesBytes_iff h₀ hrun hc hl .balanced 0 0).2.mpr (Or.inr (Or.inr hbytes))⟩

theorem full_beyond_l2 : ∃ s₀ info l, start .default = .ok s₀ ∧
    configThread (synthCfgInit 0) (fun _ => 0) (sameSizes 8192) oneThread = some info ∧
      l ∈ info.chain ∧ l.desc.cfg.bytesTouched = 65536 ∧ CacheParams.default.l2Size = 32768 ∧
      GrantsFull .default s₀.status (allocLink .auto .balanced 0 0 l).desc.esp.fields ∧
      ¬ ComparesBytes .default s₀.status (allocLink .auto .balanced 0 0 l) := by
  obtain ⟨info, l, hc, hl, helements⟩ := oneThread_configured 8192
  have h₀ : ∃ s₀, start .default = .ok s₀ ∧ s₀.flights = [] := ⟨_, rfl, rfl⟩
  obtain ⟨s₀, h₀, hflights⟩ := h₀
  have hrun : run (step .default) s₀ [] = some s₀ := rfl
  have hbytes : l.desc.cfg.bytesTouched = 65536 := by
    rw [SynthCfg.bytesTouched, helements]
    decide
  have hfull : GrantsFull .default s₀.status (allocLink .auto .balanced 0 0 l).desc.esp.fields := by
    refine (grantsFull_iff h₀ hrun rfl (Fin.isLt (0 : Fin nMem))).mpr ⟨?_, ?_⟩
    · change l.desc.esp.footprint.toNat < _
      rw [configThread_footprint hc hl, helements]
      decide
    · rw [hflights]
      intro f hf
      cases hf
  refine ⟨s₀, info, l, h₀, hc, hl, hbytes, by decide, hfull, ?_⟩
  intro hcmp
  have hfits : l.desc.cfg.bytesTouched < CacheParams.default.l2Size := hcmp.full hfull
  rw [hbytes] at hfits
  exact absurd hfits (by decide)

end Instance

end EspDrivers.Synth
