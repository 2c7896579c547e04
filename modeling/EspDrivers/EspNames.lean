import EspDrivers.EspExits
import EspDrivers.EspP2p

/-! How a P2P source finds its device. strncmp is given the length of the name on the list,
so the first device whose name is a prefix of the source name is taken. -/
namespace EspDrivers.Esp
open ContigAlloc (Errno)

section Naming

/-- The name that esp_create_cdev gives to a device, "%s.%i". -/
def deviceName (driver : List Char) (number : Nat) : List Char :=
  driver ++ '.' :: Nat.toDigits 10 number

def coordinates (k : Nat) (dev : Peer) : List RegOp :=
  [espP2pSetY k (espGetY dev), espP2pSetX k (espGetX dev)]

def SameTile (dev dev' : Peer) : Prop :=
  espGetY dev = espGetY dev' ∧ espGetX dev = espGetX dev'

/-- A source name stands for the device of that name, and for none if there is none; in this
case an access that has it among its sources is refused. -/
structure Resolves (espDevices : List Peer) (srcName : List Char) : Prop where
  found : ∀ dev ∈ espDevices, dev.name = srcName →
    ∀ k, espP2pSetSrc espDevices srcName k = some (coordinates k dev)
  unknown : (∀ dev ∈ espDevices, dev.name ≠ srcName) →
    (∀ k, espP2pSetSrc espDevices srcName k = none) ∧
    ∀ (access : Access) (i : Fin 4), i.val < access.p2pNsrcs → access.p2pSrcs i = srcName →
      (espP2pInit espDevices access).2 = .error .enodev

/-- The first device whose name is a prefix of the source name, where there is one, has the
source name itself or stands on the tile of the device that has it. -/
def PrefixNamed (espDevices : List Peer) (srcName : List Char) : Prop :=
  ∀ front dev back, espDevices = front ++ dev :: back → dev.name <+: srcName →
    (∀ other ∈ front, ¬ other.name <+: srcName) →
      (∃ named ∈ espDevices, named.name = srcName) ∧
        ∀ named ∈ espDevices, named.name = srcName → SameTile dev named

end Naming

section Matching
variable {espDevices : List Peer} {access : Access} {srcName : List Char} {dev dev' : Peer}

theorem strncmpEq_iff {s t : List Char} : strncmpEq s t t.length = true ↔ t <+: s := by
  rw [strncmpEq, List.take_length, beq_iff_eq, List.prefix_iff_eq_take]
  exact eq_comm

theorem espP2pSetSrc_eq (k : Nat) : espP2pSetSrc espDevices srcName k =
    (matched espDevices srcName).map (coordinates k) := by
  rw [espP2pSetSrc, matched]
  cases espDevices.find? fun dev => strncmpEq srcName dev.name dev.name.length <;> rfl

theorem matched_some : matched espDevices srcName = some dev ↔ dev.name <+: srcName ∧
    ∃ front back, espDevices = front ++ dev :: back ∧
      ∀ other ∈ front, ¬ other.name <+: srcName := by
  simp only [matched, List.find?_eq_some_iff_append, strncmpEq_iff, Bool.not_eq_true',
    ← Bool.not_eq_true]

theorem matched_none : matched espDevices srcName = none ↔
    ∀ dev ∈ espDevices, ¬ dev.name <+: srcName := by
  simp only [matched, List.find?_eq_none, strncmpEq_iff]

theorem coordinates_inj (h : coordinates 0 dev = coordinates 0 dev') : SameTile dev dev' := by
  obtain ⟨hy, hx⟩ : espP2pSetY 0 (espGetY dev) = espP2pSetY 0 (espGetY dev') ∧
      espP2pSetX 0 (espGetX dev) = espP2pSetX 0 (espGetX dev') := by
    simpa [coordinates] using h
  have hbits : ∀ {a b : BitVec 32} (n : Nat), n + 3 ≤ 32 →
      ioset ((7 &&& (7 &&& a)) <<< n) p2pReg = ioset ((7 &&& (7 &&& b)) <<< n) p2pReg →
        7 &&& a = 7 &&& b := by
    intro a b n hn heq
    have hval : (7 &&& (7 &&& a)) <<< n = (7 &&& (7 &&& b)) <<< n := by
      have := congrFun (congrArg RegOp.value heq) 0
      simpa [ioset] using this
    apply BitVec.eq_of_getLsbD_eq
    intro i hi
    have hbit := congrArg (fun v => v.getLsbD (n + i)) hval
    simp only [BitVec.getLsbD_shiftLeft, BitVec.getLsbD_and, getLsbD_seven] at hbit ⊢
    by_cases hlow : i < 3
    · have hin : n + i < 32 := by omega
      simpa [hlow, hin] using hbit
    · simp [hlow]
  exact ⟨hbits 7 (by decide) hy, hbits 4 (by decide) hx⟩

theorem espP2pSetSrcs_error {is : List (Fin 4)} {e : Errno}
    (h : (espP2pSetSrcs espDevices access is).2 = .error e) : e = .enodev := by
  induction is with
  | nil => cases h
  | cons i is ih =>
    rw [espP2pSetSrcs] at h
    cases hs : espP2pSetSrc espDevices (access.p2pSrcs i) i with
    | none =>
      rw [hs] at h
      exact (Except.error.inj h).symm
    | some ops =>
      rw [hs] at h
      exact ih h

theorem espP2pInit_enodev {i : Fin 4} (hi : i.val < access.p2pNsrcs)
    (hnone : matched espDevices (access.p2pSrcs i) = none) :
    (espP2pInit espDevices access).2 = .error .enodev := by
  have hmem : i ∈ (List.finRange 4).take access.p2pNsrcs := by
    simp [List.mem_take_iff_getElem, Fin.ext_iff, hi]
  rw [espP2pInit]
  cases hr : (espP2pSetSrcs espDevices access ((List.finRange 4).take access.p2pNsrcs)).2 with
  | ok u =>
    obtain ⟨dev, hdev, hsame⟩ := (espP2pSetSrcs_ok espDevices access _).mp hr i hmem
    exact absurd (strncmpEq_iff.mp hsame) (matched_none.mp hnone dev hdev)
  | error e =>
    rw [espP2pSetSrcs_error hr]

end Matching

section Resolution
variable {espDevices : List Peer} {srcName : List Char}

theorem prefixNamed_iff : PrefixNamed espDevices srcName ↔
    ∀ dev, matched espDevices srcName = some dev →
      (∃ named ∈ espDevices, named.name = srcName) ∧
        ∀ named ∈ espDevices, named.name = srcName → SameTile dev named := by
  constructor
  · intro h dev hdev
    obtain ⟨hbegins, front, back, hlist, hfront⟩ := matched_some.mp hdev
    exact h front dev back hlist hbegins hfront
  · intro h front dev back hlist hbegins hfront
    exact h dev (matched_some.mpr ⟨hbegins, front, back, hlist, hfront⟩)

/-- A source name finds its device, and no other, exactly when the first name on the list
that is a prefix of it is the name itself. -/
theorem resolves_iff (espDevices : List Peer) (srcName : List Char) :
    Resolves espDevices srcName ↔ PrefixNamed espDevices srcName := by
  rw [prefixNamed_iff]
  constructor
  · intro h dev hdev
    have hwrites : ∀ k, espP2pSetSrc espDevices srcName k = some (coordinates k dev) := by
      intro k
      rw [espP2pSetSrc_eq, hdev, Option.map_some]
    refine ⟨?_, ?_⟩
    · by_contra hno
      have hnone := (h.unknown fun other hother hname => hno ⟨other, hother, hname⟩).1 0
      rw [hwrites] at hnone
      cases hnone
    · intro named hnamed hname
      have hfound := h.found named hnamed hname 0
      rw [hwrites] at hfound
      exact coordinates_inj (Option.some.inj hfound)
  · intro h
    refine ⟨?_, ?_⟩
    · intro named hnamed hname k
      obtain ⟨dev, hdev⟩ : ∃ dev, matched espDevices srcName = some dev := by
        refine Option.ne_none_iff_exists'.mp fun hnone => ?_
        exact matched_none.mp hnone named hnamed (hname ▸ List.prefix_rfl)
      obtain ⟨hy, hx⟩ := (h dev hdev).2 named hnamed hname
      rw [espP2pSetSrc_eq, hdev, Option.map_some, coordinates, coordinates, hy, hx]
    · intro hno
      have hnone : matched espDevices srcName = none := by
        cases hm : matched espDevices srcName with
        | none => rfl
        | some dev =>
          obtain ⟨named, hnamed, hname⟩ := (h dev hm).1
          exact absurd hname (hno named hnamed)
      refine ⟨fun k => by rw [espP2pSetSrc_eq, hnone, Option.map_none], ?_⟩
      intro access i hi hsrc
      exact espP2pInit_enodev hi (hsrc ▸ hnone)

/-- synth.0 on tile (0, 1) and then synth.1 on tile (0, 2), which list_add puts in front. -/
def twoSynths : List Peer :=
  [⟨deviceName "synth".toList 1, 0x00000002⟩, ⟨deviceName "synth".toList 0, 0x00000001⟩]

/-- synth.10 is not registered, and synth.1 is taken for it. -/
theorem longer_name_selects : ¬ ∀ (espDevices : List Peer) (srcName : List Char),
    (∀ dev ∈ espDevices, ∃ driver number, dev.name = deviceName driver number) →
      Resolves espDevices srcName := by
  intro h
  have hnamed : ∀ dev ∈ twoSynths, ∃ driver number, dev.name = deviceName driver number := by
    intro dev hdev
    rcases List.mem_cons.mp hdev with rfl | hdev
    · exact ⟨_, _, rfl⟩
    · obtain rfl := List.mem_singleton.mp hdev
      exact ⟨_, _, rfl⟩
  have hnone := ((h twoSynths (deviceName "synth".toList 10) hnamed).unknown (by decide)).1 0
  have hsome : (espP2pSetSrc twoSynths (deviceName "synth".toList 10) 0).isSome = true := by decide
  rw [hnone] at hsome
  cases hsome

end Resolution

end EspDrivers.Esp
