import EspDrivers.EspCharge
import EspDrivers.Ledger
import EspDrivers.Trace

/-! Any number of devices share esp_status, each with one access in flight at most.
However their decisions and updates interleave, esp_status is the sum of what the
accesses in flight were charged. -/
namespace EspDrivers.Esp
open ContigAlloc (Fault bind_ok)
open Ledger Trace

section Machine

/-- A device goes by its dev_t, 32 bits and not 0. -/
abbrev DevT := Fin (2 ^ 32)

/-- An access between its two steps: what it asked for, and the device's fields after
the decision. -/
structure Flight where
  dev : DevT
  requested : Coherence
  fields : Fields
  deriving DecidableEq

structure System where
  status : Status
  flights : List Flight

inductive Event where
  | config (dev : DevT) (esp : Fields)
  | update (dev : DevT)

def step (c : CacheParams) (s : System) : Event → Option System
  | .config d esp =>
    if d = 0 ∨ d ∈ s.flights.map Flight.dev then none
    else if esp.coherence.usesStatus then
      match espRuntimeConfig c s.status esp with
      | .error _ => none
      | .ok (t, esp') => some ⟨t, ⟨d, esp.coherence, esp'⟩ :: s.flights⟩
    else some ⟨s.status, ⟨d, esp.coherence, esp⟩ :: s.flights⟩
  | .update d =>
    match s.flights.find? (fun f => f.dev = d) with
    | none => none
    | some f =>
      if f.requested.usesStatus then
        match espUpdateStatus c s.status f.fields (f.requested = .auto) with
        | .error _ => none
        | .ok t => some ⟨t, s.flights.erase f⟩
      else some ⟨s.status, s.flights.erase f⟩

def start (c : CacheParams) : Except Fault System := do
  let s ← espStatusInit c Status.zero
  .ok ⟨s, []⟩

def Flight.isAuto (f : Flight) : Bool := f.requested = .auto
def Flight.isFull (f : Flight) : Bool := f.fields.coherence = .full

def Flight.counted (f : Flight) : Bool := f.isAuto && f.fields.coherence != .none

def Flight.charge (c : CacheParams) (f : Flight) : Status := Esp.charge c f.isAuto f.fields

/-- esp_status as a function of the accesses in flight. -/
structure Accounted (c : CacheParams) (s : System) : Prop where
  cnt : s.status.activeAccCnt.toNat = s.flights.countP Flight.isAuto
  full : s.status.activeAccCntFull.toNat = s.flights.countP Flight.isFull
  one : s.status.activeAccCntFull = 0 ∨ s.status.activeAccCntFull = 1
  footprint : s.status.activeFootprint =
    (s.flights.map fun f => if f.counted then f.fields.footprint else 0).sum
  split : ∀ b, s.status.activeFootprintSplit b =
    (s.flights.map fun f => if f.counted then share c f.fields b else 0).sum

structure InFlight (c : CacheParams) (s : System) : Prop where
  balanced : Balanced (Flight.charge c) s.status s.flights
  devs : (0 :: s.flights.map Flight.dev).Nodup
  one : s.flights.countP Flight.isFull ≤ 1
  plain : ∀ f ∈ s.flights, f.requested.usesStatus = false → f.fields.coherence = f.requested
  fits : ∀ f ∈ s.flights, f.counted = true → Fits c f.fields

variable {c : CacheParams} {s t : System} {f : Flight}

theorem InFlight.length_lt (hs : InFlight c s) : s.flights.length < 2 ^ 32 := by
  have hcard := hs.devs.length_le_card
  rw [List.length_cons, List.length_map, Fintype.card_fin] at hcard
  omega

theorem countP_toNat (hs : InFlight c s) (p : Flight → Bool) :
    ((s.flights.countP p : Nat) : BitVec 32).toNat = s.flights.countP p := by
  have hle : s.flights.countP p ≤ s.flights.length := List.countP_le_length
  have hlt := hs.length_lt
  have hmod : s.flights.countP p % 2 ^ 32 = s.flights.countP p := Nat.mod_eq_of_lt (by omega)
  simpa using hmod

theorem InFlight.cnt_eq (hs : InFlight c s) :
    s.status.activeAccCnt = (s.flights.countP Flight.isAuto : Nat) := by
  have h := hs.balanced.map (Counter.hom .cnt)
  rw [← sum_indicator]
  exact h

theorem InFlight.full_eq (hs : InFlight c s) :
    s.status.activeAccCntFull = (s.flights.countP Flight.isFull : Nat) := by
  have h := hs.balanced.map (Counter.hom .full)
  rw [← sum_indicator]
  refine Eq.trans h (congrArg List.sum (List.map_congr_left ?_))
  intro f _
  change (if f.fields.coherence = .full then (1 : BitVec 32) else 0) = if f.isFull then 1 else 0
  simp [Flight.isFull]

theorem InFlight.accounted (hs : InFlight c s) : Accounted c s := by
  have hfull : s.status.activeAccCntFull.toNat = s.flights.countP Flight.isFull := by
    rw [hs.full_eq, countP_toNat hs]
  refine ⟨?_, hfull, ?_, hs.balanced.map (Counter.hom .footprint),
    fun b => hs.balanced.map (Counter.hom (.split b))⟩
  · rw [hs.cnt_eq, countP_toNat hs]
  · have hone := hs.one
    rw [hs.full_eq]
    cases hc : s.flights.countP Flight.isFull with
    | zero => exact Or.inl rfl
    | succ n =>
      have hz : n = 0 := by omega
      rw [hz]
      exact Or.inr rfl

theorem Flight.charge_plain (hu : f.requested.usesStatus = false)
    (hp : f.fields.coherence = f.requested) : f.charge c = 0 := by
  have hauto : f.requested ≠ .auto := by
    intro h
    simp [Coherence.usesStatus, h] at hu
  have hfull : f.fields.coherence ≠ .full := by
    intro h
    simp [Coherence.usesStatus, ← hp, h] at hu
  apply status_ext
  intro i
  rw [map_zero]
  cases i <;> simp [Counter.read, Flight.charge, Flight.isAuto, Esp.charge, hauto, hfull]

theorem InFlight.isFull_zero (hs : InFlight c s) (h : s.status.activeAccCntFull < 1) :
    s.flights.countP Flight.isFull = 0 := by
  have hnat : s.status.activeAccCntFull.toNat < 1 := h
  rw [hs.full_eq, countP_toNat hs] at hnat
  omega

/-- An access that begins adds its charge; FULL only when no other one is. -/
theorem InFlight.add (hs : InFlight c s) {st : Status} (hst : st = s.status + f.charge c)
    (hdev : f.dev ≠ 0) (hnew : f.dev ∉ s.flights.map Flight.dev)
    (hfull : f.isFull = true → s.status.activeAccCntFull < 1)
    (hplain : f.requested.usesStatus = false → f.fields.coherence = f.requested)
    (hfits : f.counted = true → Fits c f.fields) : InFlight c ⟨st, f :: s.flights⟩ := by
  have hold := List.nodup_cons.mp hs.devs
  refine ⟨?_, ?_, ?_, ?_, ?_⟩
  · subst hst
    exact hs.balanced.cons
  · rw [List.map_cons, List.nodup_cons, List.nodup_cons, List.mem_cons, not_or]
    exact ⟨⟨hdev.symm, hold.1⟩, hnew, hold.2⟩
  · dsimp only
    rw [List.countP_cons]
    cases hf : f.isFull with
    | true => simp [hs.isFull_zero (hfull hf)]
    | false => simpa using hs.one
  · intro g hg
    cases List.mem_cons.mp hg with
    | inl heq => exact heq ▸ hplain
    | inr hmem => exact hs.plain g hmem
  · intro g hg
    cases List.mem_cons.mp hg with
    | inl heq => exact heq ▸ hfits
    | inr hmem => exact hs.fits g hmem

theorem InFlight.remove (hs : InFlight c s) {st : Status} (hst : st = s.status - f.charge c)
    (hf : f ∈ s.flights) : InFlight c ⟨st, s.flights.erase f⟩ := by
  have hsub : (s.flights.erase f).Sublist s.flights := List.erase_sublist
  refine ⟨?_, ?_, ?_, ?_, ?_⟩
  · subst hst
    exact hs.balanced.erase hf
  · exact hs.devs.sublist ((hsub.map Flight.dev).cons_cons 0)
  · exact le_trans hsub.countP_le hs.one
  · exact fun g hg => hs.plain g (hsub.subset hg)
  · exact fun g hg => hs.fits g (hsub.subset hg)

theorem InFlight.config (hs : InFlight c s) {d : DevT} {esp : Fields}
    (h : step c s (.config d esp) = some t) : InFlight c t := by
  simp only [step] at h
  split at h
  · cases h
  · next hnew =>
    have hfresh : d ≠ 0 ∧ d ∉ s.flights.map Flight.dev := not_or.mp hnew
    split at h
    · next huses =>
      have hmode : esp.coherence = .auto ∨ esp.coherence = .full := by
        simpa [Coherence.usesStatus] using huses
      split at h
      · cases h
      · next t' esp' hrun =>
        have heq := Option.some.inj h
        subst heq
        obtain ⟨hcharge, hdec, hfit⟩ := espRuntimeConfig_ok hmode hrun
        apply hs.add (f := ⟨d, esp.coherence, esp'⟩) hcharge hfresh.1 hfresh.2
        · intro hfull
          exact hdec.alone (by simpa [Flight.isFull] using hfull)
        · intro hno
          rw [huses] at hno
          cases hno
        · intro hcounted
          have hboth : esp.coherence = .auto ∧ esp'.coherence ≠ .none := by
            simpa [Flight.counted, Flight.isAuto] using hcounted
          exact hfit hboth.1 hboth.2
    · next hplain =>
      have heq := Option.some.inj h
      subst heq
      have hno : esp.coherence.usesStatus = false := by simpa using hplain
      have hmodes : esp.coherence ≠ .auto ∧ esp.coherence ≠ .full := by
        simpa [Coherence.usesStatus] using hno
      apply hs.add (f := ⟨d, esp.coherence, esp⟩) _ hfresh.1 hfresh.2
      · simp [Flight.isFull, hmodes.2]
      · exact fun _ => rfl
      · simp [Flight.counted, Flight.isAuto, hmodes.1]
      · rw [Flight.charge_plain hno rfl, add_zero]

theorem InFlight.update (hs : InFlight c s) {d : DevT}
    (h : step c s (.update d) = some t) : InFlight c t := by
  simp only [step] at h
  split at h
  · cases h
  · next f hfind =>
    have hmem : f ∈ s.flights := List.mem_of_find?_eq_some hfind
    split at h
    · split at h
      · cases h
      · next st hupd =>
        have heq := Option.some.inj h
        subst heq
        exact hs.remove (espUpdateStatus_ok hupd) hmem
    · next hplain =>
      have heq := Option.some.inj h
      subst heq
      have hno : f.requested.usesStatus = false := by simpa using hplain
      apply hs.remove _ hmem
      rw [Flight.charge_plain hno (hs.plain f hmem hno), sub_zero]

theorem inFlight_step {e : Event} (hs : InFlight c s) (h : step c s e = some t) :
    InFlight c t := by
  cases e with
  | config d esp => exact hs.config h
  | update d => exact hs.update h

theorem inFlight_start (h : start c = .ok s) : InFlight c s := by
  obtain ⟨st, hinit, h⟩ := bind_ok.mp h
  obtain rfl := Except.ok.inj h
  obtain ⟨split, hsplit, hinit⟩ := bind_ok.mp hinit
  obtain rfl := Except.ok.inj hinit
  have hzero : split = fun _ => 0 := by
    rw [forBanks_eq] at hsplit
    split at hsplit
    · rw [← Except.ok.inj hsplit]
      funext b
      simp [Status.zero]
    · cases hsplit
  refine ⟨?_, by simp, by simp, by simp, by simp⟩
  subst hzero
  exact Balanced.nil

theorem inFlight_run {s₀ : System} {es : List Event} (h₀ : start c = .ok s₀)
    (h : run (step c) s₀ es = some s) : InFlight c s :=
  run_invariant (fun _ _ _ hs he => inFlight_step hs he) (inFlight_start h₀) h

theorem start_banks (h₀ : start c = .ok s₀) : c.llcBanks ≤ nMem := by
  obtain ⟨t, ht, -⟩ := bind_ok.mp h₀
  exact espStatusInit_ok.mp ⟨t, ht⟩

theorem config_possible {d : DevT} {esp : Fields} (hd : d ≠ 0)
    (hfree : d ∉ s.flights.map Flight.dev) (hf : Fits c esp) :
    ∃ t, step c s (.config d esp) = some t := by
  simp only [step]
  rw [if_neg (by simp [hd, hfree])]
  split
  · next huses =>
    have hmode : esp.coherence = .auto ∨ esp.coherence = .full := by
      simpa [Coherence.usesStatus] using huses
    obtain ⟨⟨t, esp'⟩, hrun⟩ := espRuntimeConfig_inBounds hmode (Fits.inBounds (s := s.status) hf)
    rw [hrun]
    exact ⟨_, rfl⟩
  · exact ⟨_, rfl⟩

theorem InFlight.update_possible (hs : InFlight c s) {d : DevT}
    (hd : d ∈ s.flights.map Flight.dev) : ∃ t, step c s (.update d) = some t := by
  obtain ⟨g, hg, rfl⟩ := List.mem_map.mp hd
  simp only [step]
  cases hfind : s.flights.find? (fun f => f.dev = g.dev) with
  | none =>
    have hnot := List.find?_eq_none.mp hfind g hg
    simp at hnot
  | some f =>
    have hmem : f ∈ s.flights := List.mem_of_find?_eq_some hfind
    dsimp only
    split
    · have hfits : decide (f.requested = .auto) = true → f.fields.coherence ≠ .none →
          Fits c f.fields := by
        intro ha hn
        apply hs.fits f hmem
        simpa [Flight.counted, Flight.isAuto, hn] using ha
      obtain ⟨st, hst⟩ := espUpdateStatus_total s.status _ hfits
      rw [hst]
      exact ⟨_, rfl⟩
    · exact ⟨_, rfl⟩

/-- Over every interleaving esp_status accounts for the accesses in flight, it is back
to zero when there are none, and no step is held up. -/
theorem esp_status_accounted {s₀ : System} {es : List Event} (h₀ : start c = .ok s₀)
    (h : run (step c) s₀ es = some s) :
    Accounted c s ∧ (s.flights = [] → s.status = Status.zero) ∧
      (∀ d esp, d ≠ 0 → d ∉ s.flights.map Flight.dev → esp.ddrNode < nMem →
        ∃ t, step c s (.config d esp) = some t) ∧
      ∀ d ∈ s.flights.map Flight.dev, ∃ t, step c s (.update d) = some t := by
  have hs := inFlight_run h₀ h
  refine ⟨hs.accounted, ?_, ?_, fun d hd => hs.update_possible hd⟩
  · intro hnil
    have hbal := hs.balanced
    rw [hnil] at hbal
    exact hbal.empty
  · intro d esp hd hfree hnode
    exact config_possible hd hfree ⟨fun _ => hnode, fun _ => start_banks h₀⟩

def balancedAccess : Fields := ⟨.auto, 40000, .balanced, 0, 0, 0⟩

/-- Two accesses that overlap: the second one asks for FULL and outlives the first. -/
def overlapping : List Event :=
  [.config 1 balancedAccess, .config 2 ⟨.full, 500, .preferred, 1, 0, 0⟩, .update 1]

theorem overlapping_accounted : ∃ s₀ s, start .default = .ok s₀ ∧
    run (step .default) s₀ overlapping = some s ∧ Accounted .default s ∧
    s.status.activeAccCnt = 0 ∧ s.status.activeAccCntFull = 1 := by
  refine ⟨_, _, rfl, rfl, ?_, ?_⟩
  · exact (@esp_status_accounted .default _ _ overlapping rfl rfl).1
  · decide

theorem absent_bank_uncharged : ∃ s₀ s, start .default = .ok s₀ ∧
    run (step .default) s₀ [.config 1 balancedAccess] = some s ∧
    s.status.activeFootprintSplit 1 ≠ (s.flights.map fun f =>
      if f.counted then bankShare .default f.fields.footprint else 0).sum := by
  refine ⟨_, _, rfl, rfl, ?_⟩
  decide

end Machine

end EspDrivers.Esp
