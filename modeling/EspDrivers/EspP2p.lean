import EspDrivers.BitFields
import EspDrivers.EspDevice

/-! The register P2P_REG as the two drivers write it. Each macro puts one field into it by
reading it and writing it back; the fields do not overlap, so the order does not matter and
each is found again where it was put. -/
namespace EspDrivers.Esp
open BitFields
open ContigAlloc (Errno)

section BareMetal

abbrev BusId := Nat

abbrev Bus := BusId → Iomem

def Bus.write (bus : Bus) (d : BusId) (op : RegOp) : Bus := Function.update bus d (op.apply (bus d))

def getY (iomem : Iomem) : BitVec 32 := (7 : BitVec 32) &&& (iomem yxReg >>> 16)
def getX (iomem : Iomem) : BitVec 32 := (7 : BitVec 32) &&& (iomem yxReg >>> 0)

/-- esp_p2p_set_nsrcs with the `unsigned` count. -/
def p2pSetNsrcs (n : Nat) : RegOp := ioset (3 &&& (BitVec.ofNat 32 n - 1)) p2pReg

/-- The loop of esp_p2p_init of probe.c, from index `i` on. -/
def p2pInitSrcs (dev : BusId) : List BusId → Nat → Bus → Bus
  | [], _, bus => bus
  | src :: srcs, i, bus =>
    let bus := bus.write src espP2pEnableDst
    let bus := bus.write dev (espP2pSetY i (getY (bus src)))
    let bus := bus.write dev (espP2pSetX i (getX (bus src)))
    p2pInitSrcs dev srcs (i + 1) bus

/-- esp_p2p_init of probe.c, with nsrcs the length of `srcs`. -/
def p2pInit (dev : BusId) (srcs : List BusId) (bus : Bus) : Bus :=
  let bus := bus.write dev espP2pReset
  let bus := bus.write dev espP2pEnableSrc
  let bus := bus.write dev (p2pSetNsrcs srcs.length)
  p2pInitSrcs dev srcs 0 bus

end BareMetal

section Fields

def sourceFields (k : Nat) (yx : BitVec 32) : List Field :=
  [⟨7 + k * 6, 3, (yx.extractLsb' 16 3).toNat⟩, ⟨4 + k * 6, 3, (yx.extractLsb' 0 3).toNat⟩]

/-- The bit of the store, the bit that there are sources, and their number less one. -/
def controlFields (store : Bool) (n : Nat) : List Field :=
  [⟨3, 1, store.toNat⟩, ⟨2, 1, (decide (n ≠ 0)).toNat⟩, ⟨0, 2, n - 1⟩]

/-- Of these the ones that are put in: the others are zero already. -/
def enabledFields (store : Bool) (n : Nat) : List Field :=
  (if store then [⟨3, 1, 1⟩] else []) ++ if n ≠ 0 then [⟨2, 1, 1⟩, ⟨0, 2, n - 1⟩] else []

def p2pFields (store : Bool) (yxs : List (BitVec 32)) : List Field :=
  (yxs.zipIdx.flatMap fun p => sourceFields p.2 p.1) ++ controlFields store yxs.length

variable {store : Bool} {yxs : List (BitVec 32)} {k : Nat} {yx : BitVec 32}

theorem getLsbD_seven (j : Nat) : (7 : BitVec 32).getLsbD j = decide (j < 3) := by
  have hbit : (7 : BitVec 32).getLsbD j = (2 ^ 3 - 1).testBit j := by
    change (7#32).getLsbD j = _
    rw [BitVec.getLsbD_ofNat]
    by_cases hj : j < 32
    · simp [hj]
    · have hzero : (7 : Nat).testBit j = false := Nat.testBit_lt_two_pow
        (lt_of_lt_of_le (by norm_num) (Nat.pow_le_pow_right (by norm_num) (Nat.le_of_not_lt hj)))
      simp [hj, hzero]
  rw [hbit, Nat.testBit_two_pow_sub_one]

theorem mask_shift (v : BitVec 32) (pos lo : Nat) :
    (7 &&& (7 &&& (v >>> lo))) <<< pos = Field.word 32 ⟨pos, 3, (v.extractLsb' lo 3).toNat⟩ := by
  apply BitVec.eq_of_getLsbD_eq
  intro i hi
  have hcov (n : Nat) : Field.Covers ⟨pos, 3, n⟩ i ↔ ¬ i < pos ∧ i - pos < 3 := by
    change pos ≤ i ∧ i < pos + 3 ↔ _
    omega
  rw [Field.getLsbD_word, BitVec.getLsbD_shiftLeft, BitVec.testBit_toNat, BitVec.getLsbD_extractLsb',
    BitVec.getLsbD_and, BitVec.getLsbD_and, BitVec.getLsbD_ushiftRight, getLsbD_seven]
  by_cases hlo : i < pos
  · simp [hlo, hcov]
  · by_cases hthree : i - pos < 3
    · simp [hi, hlo, hthree, hcov]
    · simp [hlo, hthree, hcov]

theorem mask_nsrcs (n : Nat) :
    3 &&& BitVec.ofNat 32 n = Field.word 32 ⟨0, 2, n⟩ := by
  apply BitVec.eq_of_toNat_eq
  have hand : 3 &&& n % 2 ^ 32 = n % 2 ^ 32 % 4 := by
    rw [Nat.and_comm]
    exact Nat.and_two_pow_sub_one_eq_mod _ 2
  rw [Field.word, BitVec.shiftLeft_zero, BitVec.toNat_and, BitVec.toNat_ofNat, BitVec.toNat_ofNat]
  change 3 &&& n % 2 ^ 32 = n % 4 % 2 ^ 32
  rw [hand]
  omega

theorem mem_sourceFields {f : Field} : f ∈ sourceFields k yx →
    f.width = 3 ∧ (f.pos = 7 + k * 6 ∨ f.pos = 4 + k * 6) := by
  intro hf
  simp only [sourceFields, List.mem_cons, List.not_mem_nil, or_false] at hf
  cases hf with
  | inl h => simp [h]
  | inr h => simp [h]

theorem mem_controlFields {f : Field} {n : Nat} (hf : f ∈ controlFields store n) :
    f.pos + f.width ≤ 4 := by
  simp only [controlFields, List.mem_cons, List.not_mem_nil, or_false] at hf
  rcases hf with h | h | h
  · simp [h]
  · simp [h]
  · simp [h]

theorem controlFields_apart (store : Bool) (n : Nat) :
    (controlFields store n).Pairwise Field.Apart := by
  simp [controlFields, Field.Apart]

theorem zipIdx_increasing {α : Type} (l : List α) : l.zipIdx.Pairwise fun p q => p.2 < q.2 := by
  have hrange : (l.zipIdx.map Prod.snd).Pairwise (· < ·) := by
    rw [List.zipIdx_map_snd]
    exact List.pairwise_lt_range'
  exact List.pairwise_map.mp hrange

theorem p2pFields_apart (store : Bool) (yxs : List (BitVec 32)) :
    (p2pFields store yxs).Pairwise Field.Apart := by
  rw [p2pFields, List.pairwise_append]
  refine ⟨?_, controlFields_apart store _, ?_⟩
  · rw [List.pairwise_flatMap]
    refine ⟨?_, ?_⟩
    · intro p _
      simp [sourceFields, Field.Apart]
      omega
    · refine (zipIdx_increasing yxs).imp ?_
      intro p q hpq f hf g hg
      have hf' := mem_sourceFields hf
      have hg' := mem_sourceFields hg
      rw [Field.Apart]
      omega
  · intro f hf g hg
    obtain ⟨p, -, hfp⟩ := List.mem_flatMap.mp hf
    have hf' := mem_sourceFields hfp
    have hg' := mem_controlFields hg
    rw [Field.Apart]
    omega

end Fields

section Decoding

/-- The words that the fields are, put into the register one after the other. -/
def setFields (fs : List Field) : List RegOp := fs.map fun f => ioset (f.word 32) p2pReg

def matched (espDevices : List Peer) (srcName : List Char) : Option Peer :=
  espDevices.find? fun dev => strncmpEq srcName dev.name dev.name.length

/-- The value of the register for a store or none and sources with these registers YX. -/
structure Decodes (r : BitVec 32) (store : Bool) (yxs : List (BitVec 32)) : Prop where
  dst : r.getLsbD 3 = store
  src : r.getLsbD 2 = decide (0 < yxs.length)
  nsrcs : r.extractLsb' 0 2 = BitVec.ofNat 2 (yxs.length - 1)
  y (k : Nat) (hk : k < yxs.length) : r.extractLsb' (7 + k * 6) 3 = yxs[k].extractLsb' 16 3
  x (k : Nat) (hk : k < yxs.length) : r.extractLsb' (4 + k * 6) 3 = yxs[k].extractLsb' 0 3
  rest (i : Nat) (hi : 4 + yxs.length * 6 ≤ i) : r.getLsbD i = false

variable {espDevices : List Peer} {access : Access} {iomem : Iomem} {store : Bool}
  {yxs : List (BitVec 32)} {k : Nat}

theorem perform_cons (op : RegOp) (ops : List RegOp) (iomem : Iomem) :
    perform (op :: ops) iomem = perform ops (op.apply iomem) := rfl

theorem perform_setFields (fs : List Field) (iomem : Iomem) :
    perform (setFields fs) iomem p2pReg = iomem p2pReg ||| pack 32 fs := by
  induction fs generalizing iomem with
  | nil => simp [setFields, perform, pack, orAll]
  | cons f fs ih =>
    have hset : (ioset (f.word 32) p2pReg).apply iomem p2pReg = iomem p2pReg ||| f.word 32 :=
      Function.update_self ..
    rw [setFields, List.map_cons, perform_cons, ← setFields, ih, hset, pack, pack, List.map_cons,
      orAll_cons, BitVec.or_assoc]

theorem perform_reset (fs : List Field) (iomem : Iomem) :
    perform (espP2pReset :: setFields fs) iomem p2pReg = pack 32 fs := by
  have hzero : espP2pReset.apply iomem p2pReg = 0#32 := Function.update_self ..
  rw [perform_cons, perform_setFields, hzero, BitVec.zero_or]

theorem setY_setX (n : Nat) (yx : BitVec 32) :
    [espP2pSetY n ((7 : BitVec 32) &&& (yx >>> 16)), espP2pSetX n ((7 : BitVec 32) &&& (yx >>> 0))] =
      setFields (sourceFields n yx) := by
  rw [espP2pSetY, espP2pSetX, mask_shift, mask_shift]
  rfl

theorem setSrc_fields {src : List Char} {ops : List RegOp}
    (h : espP2pSetSrc espDevices src k = some ops) :
    ∃ dev, matched espDevices src = some dev ∧ ops = setFields (sourceFields k dev.yx) := by
  rw [espP2pSetSrc, ← matched] at h
  cases hm : matched espDevices src with
  | none =>
    rw [hm] at h
    cases h
  | some dev =>
    rw [hm] at h
    refine ⟨dev, rfl, ?_⟩
    rw [← setY_setX]
    exact (Option.some.inj h).symm

theorem setFields_append (fs gs : List Field) :
    setFields (fs ++ gs) = setFields fs ++ setFields gs := List.map_append

theorem setSrcs_fields {is : List (Fin 4)} {j : Nat}
    (his : is.map Fin.val = List.range' j is.length)
    (h : (espP2pSetSrcs espDevices access is).2 = .ok ()) :
    ∃ devs : List Peer,
      List.Forall₂ (fun i dev => matched espDevices (access.p2pSrcs i) = some dev) is devs ∧
      (espP2pSetSrcs espDevices access is).1 =
        setFields ((devs.map Peer.yx).zipIdx j |>.flatMap fun p => sourceFields p.2 p.1) := by
  induction is generalizing j with
  | nil => exact ⟨[], .nil, rfl⟩
  | cons i is ih =>
    rw [List.map_cons, List.length_cons, List.range'_succ, List.cons.injEq] at his
    cases hs : espP2pSetSrc espDevices (access.p2pSrcs i) i with
    | none =>
      rw [espP2pSetSrcs, hs] at h
      cases h
    | some ops =>
      simp only [espP2pSetSrcs, hs] at h ⊢
      obtain ⟨dev, hdev, hops⟩ := setSrc_fields hs
      obtain ⟨devs, hdevs, hrest⟩ := ih his.2 h
      refine ⟨dev :: devs, .cons hdev hdevs, ?_⟩
      rw [hrest, hops, his.1, List.map_cons, List.zipIdx_cons, List.flatMap_cons, setFields_append]

theorem enable_fields (access : Access) :
    espP2pEnable access = setFields (enabledFields access.p2pStore access.p2pNsrcs) := by
  have hmask : 3 &&& BitVec.ofNat 32 (access.p2pNsrcs - 1) =
      Field.word 32 ⟨0, 2, access.p2pNsrcs - 1⟩ := mask_nsrcs _
  have hdst : (8 : BitVec 32) = Field.word 32 ⟨3, 1, 1⟩ := by decide
  have hsrc : (4 : BitVec 32) = Field.word 32 ⟨2, 1, 1⟩ := by decide
  rw [espP2pEnable, enabledFields, setFields_append, espP2pEnableDst, espP2pEnableSrc,
    espP2pSetNsrcs, hmask, hdst, hsrc]
  by_cases hn : access.p2pNsrcs = 0
  · cases hs : access.p2pStore with
    | false => simp [hn, setFields]
    | true => simp [hn, setFields]
  · cases hs : access.p2pStore with
    | false => simp [hn, setFields]
    | true => simp [hn, setFields]

theorem pack_enabled (store : Bool) (n : Nat) :
    pack 32 (enabledFields store n) = pack 32 (controlFields store n) := by
  have hzero (pos width : Nat) : Field.word 32 ⟨pos, width, 0⟩ = 0#32 := by simp [Field.word]
  by_cases hn : n = 0
  · cases store with
    | false => simp [hn, enabledFields, controlFields, pack, orAll, hzero]
    | true => simp [hn, enabledFields, controlFields, pack, orAll, hzero]
  · cases store with
    | false => simp [hn, enabledFields, controlFields, pack, orAll, hzero]
    | true => simp [hn, enabledFields, controlFields, pack, orAll]

theorem sourceFields_mem {f : Field} (hk : k < yxs.length) (hf : f ∈ sourceFields k yxs[k]) :
    f ∈ p2pFields store yxs := by
  have hmem : (yxs[k], k) ∈ yxs.zipIdx := by
    rw [List.mk_mem_zipIdx_iff_getElem?]
    exact List.getElem?_eq_getElem hk
  exact List.mem_append_left _ (List.mem_flatMap.mpr ⟨_, hmem, hf⟩)

theorem p2pFields_covers {f : Field} {i : Nat} (hf : f ∈ p2pFields store yxs) (hi : f.Covers i) :
    i < 4 + yxs.length * 6 := by
  rw [Field.Covers] at hi
  cases List.mem_append.mp hf with
  | inl h =>
    obtain ⟨p, hp, hfp⟩ := List.mem_flatMap.mp h
    have hpos := mem_sourceFields hfp
    have hlt : p.2 < yxs.length := by
      have hsnd := List.snd_lt_of_mem_zipIdx hp
      omega
    omega
  | inr h =>
    have hpos := mem_controlFields h
    omega

theorem pack_bit {pos value : Nat} (store : Bool) (yxs : List (BitVec 32))
    (hf : ⟨pos, 1, value⟩ ∈ controlFields store yxs.length) :
    (pack 32 (p2pFields store yxs)).getLsbD pos = value.testBit 0 := by
  have hpos := mem_controlFields hf
  have hw : pos + 1 ≤ 32 := Nat.le_trans hpos (by decide)
  exact getLsbD_field (p2pFields_apart store yxs) (List.mem_append_right _ hf) hw Nat.one_pos

theorem pack_source {f : Field} (store : Bool) (hn : yxs.length ≤ 4) (hk : k < yxs.length)
    (hf : f ∈ sourceFields k yxs[k]) :
    (pack 32 (p2pFields store yxs)).extractLsb' f.pos f.width = BitVec.ofNat f.width f.value := by
  have hpos := mem_sourceFields hf
  have hw : f.pos + f.width ≤ 32 := by omega
  exact extract_pack (p2pFields_apart store yxs) (sourceFields_mem hk hf) hw

theorem pack_decodes (store : Bool) (yxs : List (BitVec 32)) (hn : yxs.length ≤ 4) :
    Decodes (pack 32 (p2pFields store yxs)) store yxs where
  dst := by
    have hbit := pack_bit store yxs (List.mem_cons_self ..)
    rw [hbit]
    cases store with
    | false => rfl
    | true => rfl
  src := by
    have hbit := pack_bit store yxs (List.mem_cons_of_mem _ (List.mem_cons_self ..))
    rw [hbit]
    cases yxs with
    | nil => rfl
    | cons yx yxs => simp
  nsrcs := by
    have hf : (⟨0, 2, yxs.length - 1⟩ : Field) ∈ controlFields store yxs.length := by
      simp [controlFields]
    exact extract_pack (p2pFields_apart store yxs) (List.mem_append_right _ hf)
      (by change 0 + 2 ≤ 32; decide)
  y k hk := by
    have hfield := pack_source store hn hk (List.mem_cons_self ..)
    rw [hfield, BitVec.ofNat_toNat, BitVec.setWidth_eq]
  x k hk := by
    have hfield := pack_source store hn hk
      (List.mem_cons_of_mem _ (List.mem_cons_self ..))
    rw [hfield, BitVec.ofNat_toNat, BitVec.setWidth_eq]
  rest i hi := by
    refine pack_outside ?_
    intro f hf hcov
    exact Nat.not_lt.mpr hi (p2pFields_covers hf hcov)

end Decoding

section Drivers
variable {espDevices : List Peer} {access : Access} {bus : Bus} {dev : BusId}

theorem espP2pInit_value (iomem : Iomem) (h : (espP2pInit espDevices access).2 = .ok ()) :
    ∃ devs : List Peer,
      List.Forall₂ (fun i dev => matched espDevices (access.p2pSrcs i) = some dev)
        ((List.finRange 4).take access.p2pNsrcs) devs ∧
      perform (espP2pInit espDevices access).1 iomem p2pReg =
        pack 32 (((devs.map Peer.yx).zipIdx.flatMap fun p => sourceFields p.2 p.1) ++
          controlFields access.p2pStore access.p2pNsrcs) := by
  have hcount : ((List.finRange 4).take access.p2pNsrcs).map Fin.val =
      List.range' 0 ((List.finRange 4).take access.p2pNsrcs).length := by
    rw [List.map_take, List.length_take, List.length_finRange]
    have hval : (List.finRange 4).map Fin.val = List.range 4 := by decide
    rw [hval, List.take_range, List.range_eq_range']
  cases hr : (espP2pSetSrcs espDevices access ((List.finRange 4).take access.p2pNsrcs)).2 with
  | error e => simp [espP2pInit, hr] at h
  | ok u =>
    obtain ⟨devs, hdevs, hops⟩ := setSrcs_fields hcount hr
    refine ⟨devs, hdevs, ?_⟩
    simp only [espP2pInit, hr]
    rw [hops, enable_fields, List.cons_append, ← setFields_append, perform_reset, pack_append,
      pack_enabled, pack_append]

theorem write_other {d d' : BusId} {op : RegOp} {reg : Nat} (h : d' ≠ d ∨ reg ≠ op.reg) :
    bus.write d op d' reg = bus d' reg := by
  rw [Bus.write]
  by_cases hd : d' = d
  · rw [hd, Function.update_self, RegOp.apply]
    cases h with
    | inl h => exact absurd hd h
    | inr h => rw [Function.update_of_ne h]
  · rw [Function.update_of_ne hd]

theorem write_ioset (d : BusId) (bits : BitVec 32) (reg : Nat) :
    bus.write d (ioset bits reg) d reg = bus d reg ||| bits := by
  rw [Bus.write, Function.update_self]
  exact Function.update_self ..

theorem write_yx (d d' : BusId) (bits : BitVec 32) :
    bus.write d (ioset bits p2pReg) d' yxReg = bus d' yxReg :=
  write_other (Or.inr (by change yxReg ≠ p2pReg; decide))

theorem p2pInitSrcs_value (srcs : List BusId) (i : Nat) (bus : Bus) (hdev : dev ∉ srcs) :
    p2pInitSrcs dev srcs i bus dev p2pReg = bus dev p2pReg ||| pack 32
      ((srcs.map fun src => bus src yxReg).zipIdx i |>.flatMap fun p => sourceFields p.2 p.1) := by
  induction srcs generalizing i bus with
  | nil => simp [p2pInitSrcs, pack, orAll]
  | cons src srcs ih =>
    rw [List.mem_cons, not_or] at hdev
    have hy : getY (bus.write src espP2pEnableDst src) =
        (7 : BitVec 32) &&& (bus src yxReg >>> 16) := by
      rw [getY, espP2pEnableDst, write_yx]
    have hx (y : BitVec 32) : getX ((bus.write src espP2pEnableDst).write dev (espP2pSetY i y) src) =
        (7 : BitVec 32) &&& (bus src yxReg >>> 0) := by
      rw [getX, espP2pEnableDst, espP2pSetY, write_yx, write_yx]
    have hyx (y x : BitVec 32) (d : BusId) :
        (((bus.write src espP2pEnableDst).write dev (espP2pSetY i y)).write dev
          (espP2pSetX i x)) d yxReg = bus d yxReg := by
      rw [espP2pEnableDst, espP2pSetY, espP2pSetX, write_yx, write_yx, write_yx]
    simp only [p2pInitSrcs]
    rw [ih _ _ hdev.2, hy, hx, List.map_cons, List.zipIdx_cons, List.flatMap_cons, pack_append,
      ← BitVec.or_assoc]
    simp only [hyx]
    rw [espP2pSetY, espP2pSetX, write_ioset, write_ioset, write_other (Or.inl hdev.1), mask_shift,
      mask_shift, BitVec.or_assoc (bus dev p2pReg)]
    simp [sourceFields, pack, orAll]

theorem p2pInit_value (srcs : List BusId) (bus : Bus) (hdev : dev ∉ srcs) (hsrcs : srcs ≠ []) :
    p2pInit dev srcs bus dev p2pReg =
      pack 32 (p2pFields false (srcs.map fun src => bus src yxReg)) := by
  have hreset : bus.write dev espP2pReset dev p2pReg = 0#32 := by
    rw [Bus.write, Function.update_self]
    exact Function.update_self ..
  have hone : 0 < srcs.length := List.length_pos_iff.mpr hsrcs
  have hcount : BitVec.ofNat 32 srcs.length - 1 = BitVec.ofNat 32 (srcs.length - 1) := by
    obtain ⟨n, hn⟩ := Nat.exists_eq_succ_of_ne_zero (Nat.ne_of_gt hone)
    rw [hn, Nat.succ_eq_add_one, BitVec.ofNat_add, Nat.add_sub_cancel]
    exact BitVec.add_sub_cancel ..
  have hcontrol : 0#32 ||| 4 ||| Field.word 32 ⟨0, 2, srcs.length - 1⟩ =
      pack 32 (controlFields false srcs.length) := by
    have henabled : enabledFields false srcs.length = [⟨2, 1, 1⟩, ⟨0, 2, srcs.length - 1⟩] := by
      simp [enabledFields, hsrcs]
    have hsrc : (4 : BitVec 32) = Field.word 32 ⟨2, 1, 1⟩ := by decide
    rw [← pack_enabled, henabled, hsrc]
    rfl
  have hyx : ∀ d : BusId, ((bus.write dev espP2pReset).write dev espP2pEnableSrc).write dev
      (p2pSetNsrcs srcs.length) d yxReg = bus d yxReg := by
    intro d
    rw [p2pSetNsrcs, espP2pEnableSrc, write_yx, write_yx]
    exact write_other (Or.inr (by change yxReg ≠ p2pReg; decide))
  rw [p2pInit, p2pInitSrcs_value srcs 0 _ hdev, p2pSetNsrcs, write_ioset, espP2pEnableSrc,
    write_ioset, hreset, hcount, mask_nsrcs, hcontrol, ← pack_append, p2pFields, List.length_map]
  rw [p2pSetNsrcs, hcount, mask_nsrcs, espP2pEnableSrc] at hyx
  simp only [hyx]
  exact pack_perm List.perm_append_comm

theorem p2p_register_decodes (iomem : Iomem) (hn : access.p2pNsrcs ≤ 4)
    (hok : (espP2pInit espDevices access).2 = .ok ()) :
    ∃ devs : List Peer, devs.length = access.p2pNsrcs ∧
      (∀ k : Fin 4, k.val < access.p2pNsrcs →
        matched espDevices (access.p2pSrcs k) = devs[k.val]?) ∧
      Decodes (perform (espP2pInit espDevices access).1 iomem p2pReg) access.p2pStore
        (devs.map Peer.yx) ∧
      ∀ (bus : Bus) (dev : BusId) (srcs : List BusId), srcs ≠ [] → dev ∉ srcs →
        access.p2pStore = false → (srcs.map fun src => bus src yxReg) = devs.map Peer.yx →
        p2pInit dev srcs bus dev p2pReg = perform (espP2pInit espDevices access).1 iomem p2pReg := by
  obtain ⟨devs, hdevs, hvalue⟩ := espP2pInit_value iomem hok
  have hlen : devs.length = access.p2pNsrcs := by
    rw [← hdevs.length_eq, List.length_take, List.length_finRange]
    exact Nat.min_eq_left hn
  have hyxs : (devs.map Peer.yx).length = access.p2pNsrcs := by rw [List.length_map, hlen]
  have hpack : perform (espP2pInit espDevices access).1 iomem p2pReg =
      pack 32 (p2pFields access.p2pStore (devs.map Peer.yx)) := by
    rw [hvalue, p2pFields, hyxs]
  refine ⟨devs, hlen, ?_, ?_, ?_⟩
  · intro k hk
    have htake : k.val < ((List.finRange 4).take access.p2pNsrcs).length := by
      rw [List.length_take, List.length_finRange]
      exact Nat.lt_min.mpr ⟨hk, k.isLt⟩
    have hdev : k.val < devs.length := hlen ▸ hk
    have hget := (List.forall₂_iff_get.mp hdevs).2 k.val htake hdev
    rw [List.getElem?_eq_getElem hdev]
    simpa using hget
  · rw [hpack]
    exact pack_decodes _ _ (hyxs ▸ hn)
  · intro bus dev srcs hsrcs hdev hstore hsame
    rw [p2pInit_value srcs bus hdev hsrcs, hsame, hpack, hstore]

/-- Two devices on different tiles, the second named by the first source. -/
def twoPeers : List Peer := [⟨['f', 'f', 't', '.', '0'], 0x30001⟩, ⟨['f', 'f', 't', '.', '1'], 0x10002⟩]

def twoSources : Access where
  contig := 0
  run := true
  p2pStore := false
  p2pNsrcs := 2
  p2pSrcs k := if k.val = 0 then ['f', 'f', 't', '.', '1'] else ['f', 'f', 't', '.', '0']
  coherence := .none
  footprint := 0
  allocPolicy := .preferred
  ddrNode := 0
  inPlace := 0
  reuseFactor := 0

theorem p2p_register_decodes_two :
    ∃ devs : List Peer, devs.length = 2 ∧
      (∀ k : Fin 4, k.val < 2 → matched twoPeers (twoSources.p2pSrcs k) = devs[k.val]?) ∧
      Decodes (perform (espP2pInit twoPeers twoSources).1 (fun _ => 0xffffffff) p2pReg) false
        (devs.map Peer.yx) ∧
      ∀ (bus : Bus) (dev : BusId) (srcs : List BusId), srcs ≠ [] → dev ∉ srcs →
        false = false → (srcs.map fun src => bus src yxReg) = devs.map Peer.yx →
        p2pInit dev srcs bus dev p2pReg =
          perform (espP2pInit twoPeers twoSources).1 (fun _ => 0xffffffff) p2pReg :=
  @p2p_register_decodes twoPeers twoSources (fun _ => 0xffffffff) (by decide) rfl

end Drivers

end EspDrivers.Esp
