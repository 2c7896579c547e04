import EspDrivers.EspDevice

/-! The synthetic accelerators of synth.c. main derives the sizes along a chain, and
config_thread lays the chain out in one buffer: its offset and the size of the buffer grow by
different rules, and every accelerator reads what the one before it has stored. Sizes and
offsets count words of 4 bytes. -/
namespace EspDrivers.Synth
open Esp (Access)

section Data

inductive SynthPattern where
  | streaming | strided | irregular
  deriving DecidableEq, Repr

structure SynthCfg where
  offset : BitVec 32
  pattern : SynthPattern
  inSize : BitVec 32
  accessFactor : BitVec 32
  burstLen : BitVec 32
  computeBoundFactor : BitVec 32
  irregularSeed : BitVec 32
  reuseFactor : BitVec 32
  ldStRatio : BitVec 32
  strideLen : BitVec 32
  outSize : BitVec 32
  inPlace : BitVec 32
  deriving DecidableEq

structure SynthAccess where
  esp : Access
  cfg : SynthCfg

/-- chain_t without the open file; a device goes by any identifier that has a configuration. -/
structure Link (δ : Type) where
  devid : δ
  desc : SynthAccess

/-- accelerator_thread_info_t as far as config_thread reads and sets it. -/
structure ThreadInfo (δ : Type) where
  chain : List (Link δ)
  memsz : BitVec 64

abbrev nDev : Nat := 12

def synthCfgInit : Fin 2 → Fin nDev → SynthCfg :=
  ![![⟨0, .streaming, 0, 0, 64, 1, 0, 2, 1, 0, 0, 0⟩,
      ⟨0, .strided, 0, 0, 4, 1, 0, 4, 2, 256, 0, 0⟩,
      ⟨0, .streaming, 0, 0, 32, 2, 0, 1, 4, 0, 0, 1⟩,
      ⟨0, .irregular, 0, 0, 4, 2, 0, 1, 1, 0, 0, 1⟩,
      ⟨0, .streaming, 0, 0, 128, 4, 0, 4, 2, 0, 0, 0⟩,
      ⟨0, .strided, 0, 0, 8, 2, 0, 1, 4, 32, 0, 1⟩,
      ⟨0, .streaming, 0, 0, 64, 8, 0, 1, 1, 0, 0, 0⟩,
      ⟨0, .irregular, 0, 2, 4, 2, 0, 4, 2, 0, 0, 0⟩,
      ⟨0, .streaming, 0, 0, 16, 16, 0, 1, 4, 0, 0, 1⟩,
      ⟨0, .strided, 0, 0, 4, 1, 0, 2, 1, 512, 0, 0⟩,
      ⟨0, .streaming, 0, 0, 32, 32, 0, 4, 2, 0, 0, 0⟩,
      ⟨0, .irregular, 0, 4, 4, 1, 0, 1, 1, 0, 0, 1⟩],
    ![⟨0, .streaming, 0, 0, 64, 1, 0, 2, 1, 0, 0, 0⟩,
      ⟨0, .strided, 0, 0, 4, 1, 0, 4, 1, 256, 0, 0⟩,
      ⟨0, .streaming, 0, 0, 32, 2, 0, 1, 1, 0, 0, 1⟩,
      ⟨0, .irregular, 0, 0, 4, 2, 0, 1, 1, 0, 0, 1⟩,
      ⟨0, .streaming, 0, 0, 128, 4, 0, 4, 1, 0, 0, 0⟩,
      ⟨0, .strided, 0, 0, 8, 2, 0, 1, 1, 32, 0, 1⟩,
      ⟨0, .streaming, 0, 0, 64, 8, 0, 1, 1, 0, 0, 0⟩,
      ⟨0, .irregular, 0, 0, 4, 2, 0, 4, 1, 0, 0, 0⟩,
      ⟨0, .streaming, 0, 0, 16, 16, 0, 1, 1, 0, 0, 1⟩,
      ⟨0, .strided, 0, 0, 4, 1, 0, 2, 1, 512, 0, 0⟩,
      ⟨0, .streaming, 0, 0, 32, 32, 0, 4, 1, 0, 0, 0⟩,
      ⟨0, .irregular, 0, 0, 4, 1, 0, 1, 1, 0, 0, 1⟩]]

end Data

section Code
variable {δ : Type}

/-- A shift by the width of the word or more has no meaning. -/
def shiftRight (x k : BitVec 32) : Option (BitVec 32) :=
  if k.toNat < 32 then some (x >>> k) else none

def divide (x y : BitVec 32) : Option (BitVec 32) := if y = 0 then none else some (x / y)

structure Sizes where
  inSize : Nat → BitVec 32
  outSize : Nat → BitVec 32

/-- in_size once entry `i` is set; the first entry is an input of main. -/
def Sizes.feed (v : Sizes) (i : Nat) : Nat → BitVec 32 :=
  if i ≠ 0 then Function.update v.inSize i (v.outSize (i - 1)) else v.inSize

def deriveStep (cfg : Nat → SynthCfg) (v : Sizes) (i : Nat) : Option Sizes := do
  let inSize := v.feed i
  let accessed ← shiftRight (inSize i) (cfg i).accessFactor
  let outSize ← divide accessed (cfg i).ldStRatio
  some ⟨inSize, Function.update v.outSize i outSize⟩

def deriveSizes (cfg : Nat → SynthCfg) (ndev : Nat) (v : Sizes) : Option Sizes :=
  (List.range ndev).foldlM (deriveStep cfg) v

def irregularSeedMax : Nat := 2048

structure Totals where
  memsz : BitVec 64
  offset : BitVec 32

/-- One iteration of config_thread; `rand` is what rand() returns in it. -/
def configAcc (init : δ → SynthCfg) (rand : Nat) (inSize outSize : BitVec 32) (t : Totals)
    (link : Link δ) : Option (Link δ × Totals) := do
  let c := init link.devid
  let cfg := { c with
    irregularSeed := if c.pattern = .irregular then BitVec.ofNat 32 (rand % irregularSeedMax)
      else c.irregularSeed
    inSize := inSize
    outSize := outSize
    offset := t.offset }
  let t := if c.inPlace = 0 then ⟨t.memsz + outSize.setWidth 64, t.offset + inSize⟩ else t
  let accessed ← shiftRight inSize cfg.accessFactor
  let footprint := if cfg.inPlace = 0 then accessed + outSize else accessed
  let esp := { link.desc.esp with
    footprint := footprint
    inPlace := c.inPlace
    reuseFactor := c.reuseFactor }
  some ({ link with desc := ⟨esp, cfg⟩ }, t)

def configLoop (init : δ → SynthCfg) (rand : Nat → Nat) (v : Sizes) :
    Nat → Totals → List (Link δ) → Option (List (Link δ) × Totals)
  | _, t, [] => some ([], t)
  | acc, t, link :: chain => do
    let (link, t) ← configAcc init (rand acc) (v.inSize acc) (v.outSize acc) t link
    let (chain, t) ← configLoop init rand v (acc + 1) t chain
    some (link :: chain, t)

/-- config_thread, with the row of synth_cfg_init that cfgid selects. -/
def configThread (init : δ → SynthCfg) (rand : Nat → Nat) (v : Sizes) (info : ThreadInfo δ) :
    Option (ThreadInfo δ) := do
  let (chain, t) ← configLoop init rand v 0 ⟨(v.inSize 0).setWidth 64, 0⟩ info.chain
  some ⟨chain, t.memsz * 4⟩

end Code

/-- What the sizes need of a configuration. -/
def SynthCfg.WellFormed (c : SynthCfg) : Prop := c.accessFactor.toNat < 32 ∧ c.ldStRatio ≠ 0

instance (c : SynthCfg) : Decidable c.WellFormed := inferInstanceAs (Decidable (_ ∧ _))

theorem synthCfgInit_wellFormed : ∀ i d, (synthCfgInit i d).WellFormed := by decide

section Sizes
variable {cfg : Nat → SynthCfg}

structure Derived (cfg : Nat → SynthCfg) (n : Nat) (v : Sizes) : Prop where
  out : ∀ i < n, v.outSize i = v.inSize i >>> (cfg i).accessFactor / (cfg i).ldStRatio
  next : ∀ i, i + 1 < n → v.inSize (i + 1) = v.outSize i

theorem feed_of_ne (v : Sizes) {n i : Nat} (h : i ≠ n) : v.feed n i = v.inSize i := by
  rw [Sizes.feed]
  split
  · rw [Function.update_of_ne h]
  · rfl

theorem feed_zero (v : Sizes) (n : Nat) : v.feed n 0 = v.inSize 0 := by
  by_cases hn : n = 0
  · simp [Sizes.feed, hn]
  · exact feed_of_ne v (Ne.symm hn)

theorem feed_succ (v : Sizes) (n : Nat) : v.feed (n + 1) (n + 1) = v.outSize n := by
  simp [Sizes.feed]

theorem Derived.step {n : Nat} {v : Sizes} (hv : Derived cfg n v) (hc : (cfg n).WellFormed) :
    ∃ w, deriveStep cfg v n = some w ∧ Derived cfg (n + 1) w ∧ w.inSize 0 = v.inSize 0 := by
  obtain ⟨hfactor, hratio⟩ := hc
  refine ⟨⟨v.feed n, Function.update v.outSize n
    (v.feed n n >>> (cfg n).accessFactor / (cfg n).ldStRatio)⟩, ?_, ⟨?_, ?_⟩, feed_zero v n⟩
  · simp only [deriveStep, shiftRight, divide, if_pos hfactor, if_neg hratio, Option.bind_eq_bind,
      Option.bind_some]
  · intro i hi
    by_cases he : i = n
    · rw [he]
      exact Function.update_self ..
    · dsimp only
      rw [Function.update_of_ne he, feed_of_ne v he]
      exact hv.out i (by omega)
  · intro i hi
    have hne : i ≠ n := by omega
    dsimp only
    rw [Function.update_of_ne hne]
    by_cases he : i + 1 = n
    · rw [← he, feed_succ]
    · rw [feed_of_ne v he]
      exact hv.next i (by omega)

theorem deriveSizes_derived {n : Nat} (hc : ∀ i < n, (cfg i).WellFormed) (v : Sizes) :
    ∃ w, deriveSizes cfg n v = some w ∧ Derived cfg n w ∧ w.inSize 0 = v.inSize 0 := by
  induction n with
  | zero => exact ⟨v, rfl, ⟨fun i hi => by omega, fun i hi => by omega⟩, rfl⟩
  | succ n ih =>
    obtain ⟨w, hw, hd, hzero⟩ := ih fun i hi => hc i (by omega)
    obtain ⟨u, hu, hd', hzero'⟩ := hd.step (hc n (by omega))
    refine ⟨u, ?_, hd', hzero'.trans hzero⟩
    rw [deriveSizes] at hw ⊢
    rw [List.range_succ, List.foldlM_append, hw]
    simp [hu]

theorem Derived.shrinks {n i : Nat} {v : Sizes} (hv : Derived cfg n v) (hi : i < n) :
    (v.outSize i).toNat ≤ (v.inSize i).toNat := by
  rw [hv.out i hi, BitVec.toNat_udiv, BitVec.ushiftRight_eq', BitVec.toNat_ushiftRight]
  refine (Nat.div_le_self _ _).trans ?_
  rw [Nat.shiftRight_eq_div_pow]
  exact Nat.div_le_self _ _

end Sizes

section Layout
variable {δ : Type}

/-- The input region of an accelerator: where it starts and how long it is. -/
def Link.input (l : Link δ) : Nat × Nat := (l.desc.cfg.offset.toNat, l.desc.cfg.inSize.toNat)

/-- Its output is stored over the input, or right after it. -/
def Link.output (l : Link δ) : Nat × Nat :=
  if l.desc.cfg.inPlace = 0 then
    (l.desc.cfg.offset.toNat + l.desc.cfg.inSize.toNat, l.desc.cfg.outSize.toNat)
  else (l.desc.cfg.offset.toNat, l.desc.cfg.outSize.toNat)

/-- The regions lie in the buffer, and each accelerator reads what the one before it stored. -/
structure ChainFits (info : ThreadInfo δ) : Prop where
  input : ∀ l ∈ info.chain, l.input.1 + l.input.2 ≤ info.memsz.toNat / 4
  output : ∀ l ∈ info.chain, l.output.1 + l.output.2 ≤ info.memsz.toNat / 4
  linked : info.chain.IsChain fun a b => b.input = a.output

def outOfPlace (init : δ → SynthCfg) (size : Nat → BitVec 32) : Nat → List (Link δ) → Nat
  | _, [] => 0
  | acc, link :: chain => (if (init link.devid).inPlace = 0 then (size acc).toNat else 0) +
      outOfPlace init size (acc + 1) chain

/-- No addition to the offset or to the size of the buffer wraps, nor does the product. -/
def NoOverflow (init : δ → SynthCfg) (v : Sizes) (chain : List (Link δ)) : Prop :=
  outOfPlace init v.inSize 0 chain < 2 ^ 32 ∧
    ((v.inSize 0).toNat + outOfPlace init v.outSize 0 chain) * 4 < 2 ^ 64

instance (init : δ → SynthCfg) (v : Sizes) (chain : List (Link δ)) :
    Decidable (NoOverflow init v chain) := inferInstanceAs (Decidable (_ ∧ _))

variable {init : δ → SynthCfg} {rand : Nat → Nat} {v : Sizes} {t : Totals} {link : Link δ}

/-- The device, its configuration but for the seed and the offset, and the flag of the request. -/
def Link.share (l : Link δ) : δ × SynthCfg × BitVec 32 :=
  (l.devid, { l.desc.cfg with irregularSeed := 0, offset := 0 }, l.desc.esp.inPlace)

/-- What accelerator `i` has to get: the entry of the table with its two sizes. -/
def Sizes.share (v : Sizes) (init : δ → SynthCfg) (devid : δ) (i : Nat) : δ × SynthCfg × BitVec 32 :=
  (devid, { init devid with
    irregularSeed := 0
    offset := 0
    inSize := v.inSize i
    outSize := v.outSize i }, (init devid).inPlace)

theorem configAcc_ok {r : Nat} {inSize outSize : BitVec 32}
    (hfactor : (init link.devid).accessFactor.toNat < 32)
    (hoff : t.offset.toNat + (if (init link.devid).inPlace = 0 then inSize.toNat else 0) < 2 ^ 32)
    (hmem : t.memsz.toNat + (if (init link.devid).inPlace = 0 then outSize.toNat else 0) < 2 ^ 64) :
    ∃ l u, configAcc init r inSize outSize t link = some (l, u) ∧
      l.share = Sizes.share ⟨fun _ => inSize, fun _ => outSize⟩ init link.devid 0 ∧
      l.input = (t.offset.toNat, inSize.toNat) ∧ l.output = (u.offset.toNat, outSize.toNat) ∧
      u.offset.toNat =
        t.offset.toNat + (if (init link.devid).inPlace = 0 then inSize.toNat else 0) ∧
      u.memsz.toNat =
        t.memsz.toNat + (if (init link.devid).inPlace = 0 then outSize.toNat else 0) := by
  simp only [configAcc, shiftRight, if_pos hfactor, Option.bind_eq_bind, Option.bind_some]
  by_cases hplace : (init link.devid).inPlace = 0
  · simp only [hplace, if_true] at hoff hmem ⊢
    have hwide : (outSize.setWidth 64).toNat = outSize.toNat := by
      rw [BitVec.toNat_setWidth]
      exact Nat.mod_eq_of_lt (by omega)
    have hsum : (t.offset + inSize).toNat = t.offset.toNat + inSize.toNat :=
      BitVec.toNat_add_of_lt hoff
    refine ⟨_, _, rfl, ?_, rfl, ?_, hsum, ?_⟩
    · simp only [Link.share, Sizes.share, hplace]
    · simp only [Link.output, if_true, hsum]
    · rw [← hwide]
      exact BitVec.toNat_add_of_lt (by omega)
  · simp only [hplace, if_false] at hoff hmem ⊢
    refine ⟨_, _, rfl, rfl, rfl, ?_, rfl, rfl⟩
    simp only [Link.output, hplace, if_false]

/-- What the rest of a chain has to find when the loop reaches accelerator `acc`. -/
structure Ready (init : δ → SynthCfg) (v : Sizes) (acc : Nat) (t : Totals) (chain : List (Link δ)) :
    Prop where
  factor : ∀ l ∈ chain, (init l.devid).accessFactor.toNat < 32
  shrinks : ∀ i, acc ≤ i → i < acc + chain.length → (v.outSize i).toNat ≤ (v.inSize i).toNat
  next : ∀ i, acc ≤ i → i + 1 < acc + chain.length → v.inSize (i + 1) = v.outSize i
  room : chain ≠ [] → t.offset.toNat + (v.inSize acc).toNat ≤ t.memsz.toNat
  offset : t.offset.toNat + outOfPlace init v.inSize acc chain < 2 ^ 32
  memsz : t.memsz.toNat + outOfPlace init v.outSize acc chain < 2 ^ 62

/-- One accelerator takes its input where the offset stands, within the size so far, and leaves
its output where the offset stands next. -/
theorem Ready.step {acc : Nat} {chain : List (Link δ)} (rand : Nat → Nat)
    (h : Ready init v acc t (link :: chain)) :
    ∃ l u, configAcc init (rand acc) (v.inSize acc) (v.outSize acc) t link = some (l, u) ∧
      l.share = v.share init link.devid acc ∧ l.input = (t.offset.toNat, (v.inSize acc).toNat) ∧
      l.output = (u.offset.toNat, (v.outSize acc).toNat) ∧
      u.offset.toNat = t.offset.toNat +
        (if (init link.devid).inPlace = 0 then (v.inSize acc).toNat else 0) ∧
      u.memsz.toNat + outOfPlace init v.outSize (acc + 1) chain =
        t.memsz.toNat + outOfPlace init v.outSize acc (link :: chain) ∧
      t.memsz.toNat ≤ u.memsz.toNat ∧ u.offset.toNat + (v.outSize acc).toNat ≤ u.memsz.toNat ∧
      Ready init v (acc + 1) u chain := by
  have hoff := h.offset
  have hmem := h.memsz
  have hroom := h.room (List.cons_ne_nil _ _)
  have hlen : (link :: chain).length = chain.length + 1 := rfl
  have hle := h.shrinks acc le_rfl (by omega)
  rw [outOfPlace] at hoff hmem
  obtain ⟨l, u, hl, hshare, hin, hout, hoffset, hmemsz⟩ := @configAcc_ok _ init t link (rand acc)
    (v.inSize acc) (v.outSize acc) (h.factor link List.mem_cons_self) (by omega) (by omega)
  have hfits : u.offset.toNat + (v.outSize acc).toNat ≤ u.memsz.toNat := by
    rw [hoffset, hmemsz]
    split <;> omega
  refine ⟨l, u, hl, hshare, hin, hout, hoffset, ?_, by omega, hfits, ?_⟩
  · rw [hmemsz, outOfPlace, Nat.add_assoc]
  · refine ⟨fun l hl => h.factor l (List.mem_cons_of_mem _ hl), ?_, ?_, ?_, by omega, by omega⟩
    · exact fun i hi hlt => h.shrinks i (by omega) (by omega)
    · exact fun i hi hlt => h.next i (by omega) (by omega)
    · intro hne
      have hpos := List.length_pos_iff.mpr hne
      rw [h.next acc le_rfl (by omega)]
      exact hfits

theorem Ready.run {acc : Nat} {chain : List (Link δ)} (rand : Nat → Nat)
    (h : Ready init v acc t chain) :
    ∃ ls u, configLoop init rand v acc t chain = some (ls, u) ∧
      ls.map Link.share = (chain.zipIdx acc).map (fun p => v.share init p.1.devid p.2) ∧
      ls.map (fun l => l.desc.cfg.offset.toNat) = (List.range chain.length).map
        (fun k => t.offset.toNat + outOfPlace init v.inSize acc (chain.take k)) ∧
      u.memsz.toNat = t.memsz.toNat + outOfPlace init v.outSize acc chain ∧
      (∀ l ∈ ls, l.input.1 + l.input.2 ≤ u.memsz.toNat ∧ l.output.1 + l.output.2 ≤ u.memsz.toNat) ∧
      ls.IsChain (fun a b => b.input = a.output) ∧
      ∀ l ∈ ls.head?, l.input = (t.offset.toNat, (v.inSize acc).toNat) := by
  induction chain generalizing acc t with
  | nil => exact ⟨[], t, rfl, rfl, rfl, rfl, by simp, List.isChain_nil, by simp⟩
  | cons link chain ih =>
    obtain ⟨l, s, hl, hshare, hin, hout, hoffset, htotal, hgrow, hfits, hready⟩ := h.step rand
    obtain ⟨ls, u, hls, hshares, hoffsets, hmemsz, hall, hchain, hhead⟩ := ih hready
    have hroom := h.room (List.cons_ne_nil _ _)
    have hlast : s.memsz.toNat ≤ u.memsz.toNat := by omega
    refine ⟨l :: ls, u, ?_, ?_, ?_, ?_, ?_, ?_, ?_⟩
    · simp only [configLoop, hl, hls, Option.bind_eq_bind, Option.bind_some]
    · rw [List.map_cons, List.zipIdx_cons, List.map_cons, hshares, hshare]
    · have hfirst : l.desc.cfg.offset.toNat = t.offset.toNat := congrArg Prod.fst hin
      rw [List.map_cons, List.length_cons, List.range_succ_eq_map, List.map_cons, List.map_map,
        hoffsets, hfirst]
      refine congrArg₂ List.cons rfl (List.map_congr_left ?_)
      intro k _
      simp only [Function.comp_apply, List.take_succ_cons, outOfPlace]
      omega
    · rw [hmemsz, htotal]
    · intro q hq
      cases List.mem_cons.mp hq with
      | inl he =>
        rw [he, hin, hout]
        exact ⟨by omega, by omega⟩
      | inr hmem => exact hall q hmem
    · refine List.isChain_cons.mpr ⟨?_, hchain⟩
      intro b hb
      have hlen := congrArg List.length hshares
      rw [List.length_map, List.length_map, List.length_zipIdx] at hlen
      have hpos : 0 < ls.length := by
        cases ls with
        | nil => cases hb
        | cons _ _ => exact Nat.zero_lt_succ _
      rw [hhead b hb, hout, h.next acc le_rfl (by rw [List.length_cons]; omega)]
    · intro q hq
      obtain rfl := Option.some.inj hq
      exact hin

def ThreadInfo.ofDevices (devid : Nat → δ) (ndev : Nat) (desc : Nat → SynthAccess)
    (memsz : BitVec 64) : ThreadInfo δ :=
  ⟨(List.range ndev).map fun acc => ⟨devid acc, desc acc⟩, memsz⟩

theorem toNat_widened (x : BitVec 32) : (x.setWidth 64).toNat = x.toNat := by
  rw [BitVec.toNat_setWidth]
  exact Nat.mod_eq_of_lt (by omega)

theorem Derived.ready {devid : Nat → δ} {ndev : Nat} {desc : Nat → SynthAccess} {memsz : BitVec 64}
    {w : Sizes} (hd : Derived (fun i => init (devid i)) ndev w)
    (hc : ∀ i < ndev, (init (devid i)).WellFormed)
    (hw : NoOverflow init w (ThreadInfo.ofDevices devid ndev desc memsz).chain) :
    Ready init w 0 ⟨(w.inSize 0).setWidth 64, 0⟩
      (ThreadInfo.ofDevices devid ndev desc memsz).chain := by
  obtain ⟨hoff, hmem⟩ := hw
  have hlen : (ThreadInfo.ofDevices devid ndev desc memsz).chain.length = ndev := by
    simp [ThreadInfo.ofDevices]
  refine ⟨?_, fun i _ hi => hd.shrinks (by omega), fun i _ hi => hd.next i (by omega), ?_, ?_, ?_⟩
  · intro l hl
    obtain ⟨i, hi, rfl⟩ := List.mem_map.mp hl
    exact (hc i (List.mem_range.mp hi)).1
  · intro _
    dsimp only
    rw [toNat_widened]
    exact (Nat.zero_add _).le
  · simpa using hoff
  · dsimp only
    rw [toNat_widened]
    omega

/-- For every chain, every first size and every configuration that the sizes can be derived
for, with any mix of accelerators in place: unless a sum wraps, config_thread lays out a chain
that has the configurations of the table with these sizes, with every offset the sum of the
inputs before it that are not in place, fits its buffer and is linked. -/
theorem configThread_fits (init : δ → SynthCfg) (rand : Nat → Nat) (devid : Nat → δ) (ndev : Nat)
    (desc : Nat → SynthAccess) (memsz : BitVec 64) (v : Sizes)
    (hc : ∀ i < ndev, (init (devid i)).WellFormed) :
    ∃ w, deriveSizes (fun i => init (devid i)) ndev v = some w ∧
      Derived (fun i => init (devid i)) ndev w ∧ w.inSize 0 = v.inSize 0 ∧
      (NoOverflow init w (ThreadInfo.ofDevices devid ndev desc memsz).chain →
        ∃ info, configThread init rand w (.ofDevices devid ndev desc memsz) = some info ∧
          info.chain.map Link.share = (List.range ndev).map (fun i => w.share init (devid i) i) ∧
          info.chain.map (fun l => l.desc.cfg.offset.toNat) = (List.range ndev).map (fun i =>
            outOfPlace init w.inSize 0
              ((ThreadInfo.ofDevices devid ndev desc memsz).chain.take i)) ∧
          ChainFits info) := by
  obtain ⟨w, hw, hd, hzero⟩ := @deriveSizes_derived (fun i => init (devid i)) ndev hc v
  refine ⟨w, hw, hd, hzero, ?_⟩
  intro hoverflow
  have hready := hd.ready hc hoverflow
  obtain ⟨ls, u, hls, hshares, hoffsets, hmemsz, hall, hchain, -⟩ := hready.run rand
  dsimp only at hmemsz
  rw [toNat_widened] at hmemsz
  obtain ⟨hoff, hmem⟩ := hoverflow
  have hbytes : (u.memsz * 4).toNat / 4 = u.memsz.toNat := by
    rw [BitVec.toNat_mul]
    have hfour : (4 : BitVec 64).toNat = 4 := rfl
    rw [hfour]
    omega
  refine ⟨⟨ls, u.memsz * 4⟩, ?_, ?_, ?_, ⟨?_, ?_, hchain⟩⟩
  · simp only [configThread, hls, Option.bind_eq_bind, Option.bind_some]
  · dsimp only
    rw [hshares]
    apply List.ext_getElem
    · simp [ThreadInfo.ofDevices]
    · intro i hi hi'
      simp [ThreadInfo.ofDevices]
  · dsimp only
    rw [hoffsets]
    simp [ThreadInfo.ofDevices]
  · intro l hl
    dsimp only
    rw [hbytes]
    exact (hall l hl).1
  · intro l hl
    dsimp only
    rw [hbytes]
    exact (hall l hl).2

def blankAccess : SynthAccess :=
  ⟨⟨0, false, false, 0, fun _ => [], .none, 0, .preferred, 0, 0, 0⟩,
    ⟨0, .streaming, 0, 0, 0, 0, 0, 0, 0, 0, 0, 0⟩⟩

/-- Three accelerators of the first configuration, of which the second works in place. -/
def mixedChain : Nat → Fin nDev := fun i => ![0, 2, 7] (Fin.ofNat 3 i)

def mixedThread : ThreadInfo (Fin nDev) := .ofDevices mixedChain 3 (fun _ => blankAccess) 0

theorem configThread_fits_mixed : ∃ w info,
    deriveSizes (fun i => synthCfgInit 0 (mixedChain i)) 3 ⟨fun _ => 262144, fun _ => 0⟩ = some w ∧
      configThread (synthCfgInit 0) (fun _ => 0) w mixedThread = some info ∧
      info.chain.map Link.share =
        (List.range 3).map (fun i => w.share (synthCfgInit 0) (mixedChain i) i) ∧
      info.chain.map (fun l => l.desc.cfg.offset.toNat) = [0, 262144, 262144] ∧
      ChainFits info := by
  obtain ⟨w, hw, -, hzero, hfits⟩ := configThread_fits (synthCfgInit 0) (fun _ => 0) mixedChain 3
    (fun _ => blankAccess) 0 ⟨fun _ => 262144, fun _ => 0⟩ (fun i _ => synthCfgInit_wellFormed 0 _)
  have hall : (deriveSizes (fun i => synthCfgInit 0 (mixedChain i)) 3
      ⟨fun _ => 262144, fun _ => 0⟩).all
        (fun w => decide (NoOverflow (synthCfgInit 0) w mixedThread.chain)) = true := by
    decide +kernel
  rw [hw, Option.all_some, decide_eq_true_iff] at hall
  obtain ⟨info, hinfo, hshares, hoffsets, hchain⟩ := hfits hall
  refine ⟨w, info, hw, hinfo, hshares, ?_, hchain⟩
  rw [hoffsets]
  have hfirst : (synthCfgInit 0 (mixedChain 0)).inPlace = 0 := by decide
  have hsecond : (synthCfgInit 0 (mixedChain 1)).inPlace = 1 := by decide
  simp [List.range_succ, ThreadInfo.ofDevices, outOfPlace, hfirst, hsecond, hzero]

end Layout

end EspDrivers.Synth
