import EspDrivers.ContigMoves
import EspDrivers.EspStatus

/-! The counters of esp_status form a group. What esp_runtime_config adds to them is a
function of the decision that it makes, and esp_update_status takes that away. -/
namespace EspDrivers.Esp
open ContigAlloc (Fault bind_ok bind_total)

section Group

def statusEquiv : Status ≃ BitVec 32 × BitVec 32 × BitVec 32 × (Fin nMem → BitVec 32) where
  toFun s := (s.activeAccCnt, s.activeAccCntFull, s.activeFootprint, s.activeFootprintSplit)
  invFun p := ⟨p.1, p.2.1, p.2.2.1, p.2.2.2⟩
  left_inv _ := rfl
  right_inv _ := rfl

/-- The counters wrap around, so they form a group under addition. -/
instance : AddCommGroup Status := statusEquiv.addCommGroup

/-- The counters, and the footprint in a bank. -/
inductive Counter where
  | cnt
  | full
  | footprint
  | split (b : Fin nMem)

def Counter.read : Counter → Status → BitVec 32
  | .cnt, s => s.activeAccCnt
  | .full, s => s.activeAccCntFull
  | .footprint, s => s.activeFootprint
  | .split b, s => s.activeFootprintSplit b

def Counter.hom (i : Counter) : Status →+ BitVec 32 where
  toFun := i.read
  map_zero' := by cases i <;> rfl
  map_add' := by cases i <;> exact fun _ _ => rfl

theorem status_ext {s t : Status} (h : ∀ i : Counter, i.hom s = i.hom t) : s = t :=
  Status.ext (h .cnt) (h .full) (h .footprint) (funext fun b => h (.split b))

@[simp] theorem Counter.hom_apply (i : Counter) (s : Status) : i.hom s = i.read s := rfl

end Group

section Charge

/-- The share of bank `b` in a footprint. The loop over the banks stops at
cache_llc_banks. -/
def share (c : CacheParams) (esp : Fields) (b : Fin nMem) : BitVec 32 :=
  if esp.allocPolicy.onOneNode then if esp.ddrNode = b then esp.footprint else 0
  else if b.val < c.llcBanks then bankShare c esp.footprint else 0

/-- What an access is charged, once its mode is decided. -/
def charge (c : CacheParams) (auto : Bool) (esp : Fields) : Status where
  activeAccCnt := if auto then 1 else 0
  activeAccCntFull := if esp.coherence = .full then 1 else 0
  activeFootprint := if auto && esp.coherence != .none then esp.footprint else 0
  activeFootprintSplit b := if auto && esp.coherence != .none then share c esp b else 0

variable {c : CacheParams} {s t : Status} {esp esp' : Fields}

theorem splitIndex_ok {i : Nat} {b : Fin nMem} (h : splitIndex i = .ok b) : i = b.val := by
  rw [splitIndex] at h
  split at h
  · rw [← Except.ok.inj h]
  · cases h

/-- The loop over the banks: all banks at once, or an index outside the array. -/
theorem forBanks_eq (banks : Nat) (f : BitVec 32 → BitVec 32) (g : Fin nMem → BitVec 32) :
    forBanks banks (fun x => .ok (f x)) g = if banks ≤ nMem then
      .ok (fun b => if b.val < banks then f (g b) else g b) else .error .oob := by
  induction banks with
  | zero => rfl
  | succ n ih =>
    have hsplit : forBanks (n + 1) (fun x => .ok (f x)) g =
        (forBanks n (fun x => .ok (f x)) g).bind fun h =>
          (splitIndex n).bind fun b => .ok (Function.update h b (f (h b))) := by
      rw [forBanks]
      rw [List.range_succ, List.foldlM_append]
      simp only [List.foldlM_cons, List.foldlM_nil, bind_pure]
      rfl
    rw [hsplit, ih]
    by_cases hn : n < nMem
    · rw [if_pos hn.le, if_pos (Nat.succ_le_of_lt hn)]
      have hidx : splitIndex n = .ok ⟨n, hn⟩ := dif_pos hn
      simp only [Except.bind, hidx, Except.ok.injEq]
      funext b
      by_cases hb : b = ⟨n, hn⟩
      · subst hb
        simp
      · have hne : b.val ≠ n := fun he => hb (Fin.ext he)
        rw [Function.update_of_ne hb]
        have hiff : b.val < n ↔ b.val < n + 1 := by omega
        simp only [hiff]
    · rw [if_neg (by omega : ¬ n + 1 ≤ nMem)]
      by_cases hle : n ≤ nMem
      · have hidx : splitIndex n = .error .oob := dif_neg hn
        simp only [if_pos hle, Except.bind, hidx]
      · simp only [if_neg hle, Except.bind]

theorem espStatusInit_ok : (∃ t, espStatusInit c s = .ok t) ↔ c.llcBanks ≤ nMem := by
  unfold espStatusInit
  rw [forBanks_eq]
  split
  · next hle => exact iff_of_true ⟨_, rfl⟩ hle
  · next hle =>
    refine iff_of_false ?_ hle
    intro hex
    cases hex with
    | intro t h => cases h

/-- The division is in the loop, which no round is made of without banks. -/
theorem forBanks_divide (op : BitVec 32 → BitVec 32 → BitVec 32) (footprint : BitVec 32)
    (g : Fin nMem → BitVec 32) :
    forBanks c.llcBanks (fun x => op x <$> divideByBanks c footprint) g =
      forBanks c.llcBanks (fun x => .ok (op x (bankShare c footprint))) g := by
  by_cases hbanks : c.llcBanks = 0
  · rw [hbanks]
    rfl
  · rw [divideByBanks, if_neg hbanks]
    rfl

theorem chargeSplit_ok {op : BitVec 32 → BitVec 32 → BitVec 32} {g h : Fin nMem → BitVec 32}
    (hop : ∀ x, op x 0 = x) (hs : chargeSplit c op esp g = .ok h) :
    (∀ b, h b = op (g b) (share c esp b)) ∧
      (esp.allocPolicy.onOneNode = true → esp.ddrNode < nMem) ∧
      (esp.allocPolicy.onOneNode = false → c.llcBanks ≤ nMem) := by
  rw [chargeSplit] at hs
  split at hs
  · next hone =>
    obtain ⟨i, hi, hs⟩ := bind_ok.mp hs
    have hval := splitIndex_ok hi
    have heq := Except.ok.inj hs
    refine ⟨?_, fun _ => by rw [hval]; exact i.isLt, fun hf => by rw [hone] at hf; cases hf⟩
    intro b
    rw [← heq, share, if_pos hone]
    by_cases hb : b = i
    · subst hb
      simp [hval]
    · have hne : ¬ esp.ddrNode = b.val := fun he => hb (Fin.ext (he.symm.trans hval))
      rw [Function.update_of_ne hb, if_neg hne, hop]
  · next hone =>
    rw [forBanks_divide, forBanks_eq] at hs
    split at hs
    · next hle =>
      have heq := Except.ok.inj hs
      refine ⟨?_, fun ht => absurd ht hone, fun _ => hle⟩
      intro b
      rw [← heq, share, if_neg hone]
      dsimp only
      by_cases hb : b.val < c.llcBanks
      · rw [if_pos hb, if_pos hb]
      · rw [if_neg hb, if_neg hb, hop]
    · cases hs

theorem full_only (mode : Coherence) (s : Status) (x : BitVec 32) :
    (if mode = .full then { s with activeAccCntFull := x } else s) =
      { s with activeAccCntFull := if mode = .full then x else s.activeAccCntFull } := by
  split
  · rfl
  · rfl

def Fits (c : CacheParams) (esp : Fields) : Prop :=
  (esp.allocPolicy.onOneNode = true → esp.ddrNode < nMem) ∧
    (esp.allocPolicy.onOneNode = false → c.llcBanks ≤ nMem)

theorem chooseCoherence_cases (footprint threshold : BitVec 32) :
    (chooseCoherence c s esp footprint threshold = .full ∧ s.activeAccCntFull < 1) ∨
      chooseCoherence c s esp footprint threshold = .llc ∨
      chooseCoherence c s esp footprint threshold = .none := by
  rw [chooseCoherence]
  split
  · split
    · next h => exact Or.inl ⟨rfl, h⟩
    · exact Or.inr (Or.inl rfl)
  · split
    · exact Or.inr (Or.inr rfl)
    · split
      · exact Or.inr (Or.inr rfl)
      · exact Or.inr (Or.inl rfl)

structure Decided (s : Status) (esp esp' : Fields) : Prop where
  same : esp' = { esp with coherence := esp'.coherence }
  mode : esp'.coherence = .full ∨ esp'.coherence = .llc ∨ esp'.coherence = .none
  alone : esp'.coherence = .full → s.activeAccCntFull < 1
  notNone : esp.coherence = .full → esp'.coherence ≠ .none

/-- esp_runtime_config adds the charge of the decision that it makes. -/
theorem espRuntimeConfig_ok (ha : esp.coherence = .auto ∨ esp.coherence = .full)
    (h : espRuntimeConfig c s esp = .ok (t, esp')) :
    t = s + charge c (esp.coherence = .auto) esp' ∧ Decided s esp esp' ∧
      (esp.coherence = .auto → esp'.coherence ≠ .none → Fits c esp') := by
  rw [espRuntimeConfig] at h
  by_cases hfull : esp.coherence = .full
  · rw [if_pos hfull] at h
    by_cases hcnt : 1 ≤ s.activeAccCntFull
    · rw [if_pos hcnt] at h
      obtain ⟨rfl, rfl⟩ := Prod.mk.inj (Except.ok.inj h)
      refine ⟨?_, ⟨rfl, by simp, by simp, by simp⟩, by simp [hfull]⟩
      apply status_ext
      intro i
      rw [map_add]
      cases i <;> simp [Counter.read, charge, hfull]
    · rw [if_neg hcnt] at h
      obtain ⟨rfl, rfl⟩ := Prod.mk.inj (Except.ok.inj h)
      refine ⟨?_, ⟨rfl, Or.inl hfull, fun _ => BitVec.not_le.mp hcnt, by simp [hfull]⟩,
        by simp [hfull]⟩
      apply status_ext
      intro i
      rw [map_add]
      cases i <;> simp [Counter.read, charge, hfull]
  · rw [if_neg hfull] at h
    have hauto : esp.coherence = .auto := ha.resolve_right hfull
    obtain ⟨⟨footprint, threshold⟩, hev, h⟩ := bind_ok.mp h
    have hmode := @chooseCoherence_cases c { s with activeAccCnt := s.activeAccCnt + 1 } esp
      footprint threshold
    dsimp only at h
    generalize chooseCoherence c { s with activeAccCnt := s.activeAccCnt + 1 } esp footprint
      threshold = mode at h hmode
    by_cases hnone : mode = .none
    · subst hnone
      simp only [reduceCtorEq, if_false, if_true] at h
      obtain ⟨rfl, rfl⟩ := Prod.mk.inj (Except.ok.inj h)
      refine ⟨?_, ⟨rfl, by simp, by simp, by simp [hauto]⟩, by simp⟩
      apply status_ext
      intro i
      rw [map_add]
      cases i <;> simp [Counter.read, charge, hauto]
    · simp only [if_neg hnone] at h
      obtain ⟨split, hsplit, h⟩ := bind_ok.mp h
      obtain ⟨hval, hone, hbanks⟩ := chargeSplit_ok (by simp) hsplit
      obtain ⟨rfl, rfl⟩ := Prod.mk.inj (Except.ok.inj h)
      have hmem : mode = .full ∨ mode = .llc ∨ mode = .none := hmode.imp_left And.left
      refine ⟨?_, ⟨rfl, hmem, ?_, by simp [hauto]⟩, fun _ _ => ⟨hone, hbanks⟩⟩
      · have honly := full_only mode { s with activeAccCnt := s.activeAccCnt + 1 }
          (s.activeAccCntFull + 1)
        rw [honly] at hval ⊢
        apply status_ext
        intro i
        rw [map_add]
        cases i <;> simp [Counter.read, charge, hauto, hnone, hval, add_ite]
      · intro hm
        cases hmode with
        | inl hf => exact hf.2
        | inr ho =>
          exfalso
          cases ho with
          | inl hl => simp [hl] at hm
          | inr hn => exact hnone hn

/-- esp_update_status takes away the charge of the decision in the device. -/
theorem espUpdateStatus_ok {auto : Bool} (h : espUpdateStatus c s esp auto = .ok t) :
    t = s - charge c auto esp := by
  rw [espUpdateStatus, full_only] at h
  cases auto with
  | false =>
    have heq := Except.ok.inj h
    rw [← heq]
    apply status_ext
    intro i
    rw [map_sub]
    cases i <;> simp [Counter.read, charge, sub_ite]
  | true =>
    by_cases hnone : esp.coherence = .none
    · simp only [hnone, reduceCtorEq, if_false, if_true, Bool.not_true, Bool.false_eq_true] at h
      have heq := Except.ok.inj h
      rw [← heq]
      apply status_ext
      intro i
      rw [map_sub]
      cases i <;> simp [Counter.read, charge, hnone]
    · simp only [Bool.not_true, Bool.false_eq_true, if_false, if_neg hnone] at h
      obtain ⟨split, hsplit, h⟩ := bind_ok.mp h
      have hval := (chargeSplit_ok (by simp) hsplit).1
      have heq := Except.ok.inj h
      rw [← heq]
      apply status_ext
      intro i
      rw [map_sub]
      cases i <;> simp [Counter.read, charge, hnone, hval, sub_ite]

theorem chargeSplit_total {op : BitVec 32 → BitVec 32 → BitVec 32} {g : Fin nMem → BitVec 32}
    (hf : Fits c esp) : ∃ h, chargeSplit c op esp g = .ok h := by
  rw [chargeSplit]
  split
  · next hone =>
    have hidx : splitIndex esp.ddrNode = .ok ⟨esp.ddrNode, hf.1 hone⟩ := dif_pos (hf.1 hone)
    rw [hidx]
    exact ⟨_, rfl⟩
  · next hone =>
    rw [forBanks_divide, forBanks_eq, if_pos (hf.2 (by simpa using hone))]
    exact ⟨_, rfl⟩

theorem espUpdateStatus_total (s : Status) (auto : Bool)
    (hf : auto = true → esp.coherence ≠ .none → Fits c esp) :
    ∃ t, espUpdateStatus c s esp auto = .ok t := by
  rw [espUpdateStatus]
  cases auto with
  | false => exact ⟨_, rfl⟩
  | true =>
    simp only [Bool.not_true, Bool.false_eq_true, if_false]
    split
    · exact ⟨_, rfl⟩
    · next hnone =>
      apply bind_total (chargeSplit_total (hf rfl hnone))
      intro split
      exact ⟨_, rfl⟩

def decision (c : CacheParams) (s : Status) (esp : Fields) : Coherence :=
  if esp.coherence = .full then if 1 ≤ s.activeAccCntFull then .llc else .full
  else if esp.coherence = .auto then
    match evaluateFootprint c s esp with
    | .ok (footprint, threshold) =>
      chooseCoherence c { s with activeAccCnt := s.activeAccCnt + 1 } esp footprint threshold
    | .error _ => .none
  else esp.coherence

def InBounds (c : CacheParams) (s : Status) (esp : Fields) : Prop :=
  esp.coherence = .auto →
    (esp.allocPolicy.onOneNode = true → esp.ddrNode < nMem) ∧
      (esp.allocPolicy.onOneNode = false → decision c s esp ≠ .none → c.llcBanks ≤ nMem)

theorem decision_auto (ha : esp.coherence = .auto) {r : BitVec 32 × BitVec 32}
    (h : evaluateFootprint c s esp = .ok r) : decision c s esp =
      chooseCoherence c { s with activeAccCnt := s.activeAccCnt + 1 } esp r.1 r.2 := by
  have hfull : esp.coherence ≠ .full := by simp [ha]
  rw [decision, if_neg hfull, if_pos ha, h]

theorem espRuntimeConfig_decision (ha : esp.coherence = .auto ∨ esp.coherence = .full)
    (h : espRuntimeConfig c s esp = .ok (t, esp')) :
    esp'.coherence = decision c s esp ∧ InBounds c s esp := by
  have hok := espRuntimeConfig_ok ha h
  rw [espRuntimeConfig] at h
  cases ha with
  | inr hfull =>
    refine ⟨?_, fun hauto => by simp [hauto] at hfull⟩
    rw [if_pos hfull] at h
    rw [decision, if_pos hfull]
    split at h
    · next hcnt =>
      rw [if_pos hcnt]
      have heq := Except.ok.inj h
      rw [← (Prod.mk.inj heq).2]
    · next hcnt =>
      rw [if_neg hcnt]
      have heq := Except.ok.inj h
      rw [← (Prod.mk.inj heq).2, hfull]
  | inl hauto =>
    have hfull : esp.coherence ≠ .full := by simp [hauto]
    rw [if_neg hfull] at h
    obtain ⟨r, hev, h⟩ := bind_ok.mp h
    have hsame : evaluateFootprint c s esp = .ok r := hev
    have hdec : esp'.coherence = decision c s esp := by
      rw [decision_auto hauto hsame]
      dsimp only at h
      split at h
      · have heq := Except.ok.inj h
        rw [← (Prod.mk.inj heq).2]
      · obtain ⟨split, _, h⟩ := bind_ok.mp h
        have heq := Except.ok.inj h
        rw [← (Prod.mk.inj heq).2]
    refine ⟨hdec, fun _ => ⟨?_, ?_⟩⟩
    · intro hone
      rw [evaluateFootprint] at hev
      rw [if_pos hone] at hev
      obtain ⟨b, hb, _⟩ := bind_ok.mp hev
      rw [splitIndex_ok hb]
      exact b.isLt
    · intro hone hnone
      have hfits := hok.2.2 hauto (by rw [hdec]; exact hnone)
      apply hfits.2
      rw [hok.2.1.same]
      exact hone

theorem Fits.inBounds (hf : Fits c esp) : InBounds c s esp :=
  fun _ => ⟨hf.1, fun hone _ => hf.2 hone⟩

theorem espRuntimeConfig_inBounds (ha : esp.coherence = .auto ∨ esp.coherence = .full)
    (hb : InBounds c s esp) : ∃ r, espRuntimeConfig c s esp = .ok r := by
  rw [espRuntimeConfig]
  cases ha with
  | inr hfull =>
    rw [if_pos hfull]
    split <;> exact ⟨_, rfl⟩
  | inl hauto =>
    have hfull : esp.coherence ≠ .full := by simp [hauto]
    rw [if_neg hfull]
    have hev : ∃ r, evaluateFootprint c s esp = .ok r := by
      rw [evaluateFootprint]
      split
      · next hone =>
        have hidx : splitIndex esp.ddrNode = .ok ⟨esp.ddrNode, (hb hauto).1 hone⟩ :=
          dif_pos ((hb hauto).1 hone)
        rw [hidx]
        exact ⟨_, rfl⟩
      · exact ⟨_, rfl⟩
    obtain ⟨r, hev⟩ := hev
    have hdec := decision_auto hauto hev
    have hsame : evaluateFootprint c { s with activeAccCnt := s.activeAccCnt + 1 } esp = .ok r := hev
    dsimp only
    rw [hsame]
    dsimp only [bind, Except.bind]
    split
    · exact ⟨_, rfl⟩
    · next hnone =>
      apply bind_total
      · apply chargeSplit_total
        refine ⟨(hb hauto).1, fun hone => (hb hauto).2 hone ?_⟩
        rw [hdec]
        exact hnone
      · intro split
        exact ⟨_, rfl⟩

end Charge

end EspDrivers.Esp
