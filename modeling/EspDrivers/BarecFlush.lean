import EspDrivers.EspFlush

/-! The flush of the caches in the bare-metal programs: esp_flush looks for the L2 cache of its own
CPU, commands a flush, waits for it and clears the command again, and does the same for all LLCs. -/
namespace EspDrivers.Barec

section Model

/-- The lists that esp_flush gets from probe. -/
inductive Cache
  | l2
  | llc
  deriving DecidableEq

structure Controller where
  cache : Cache
  index : Nat
  deriving DecidableEq

/-- An ioread32 of the status register for the CPU id or for the done bit, or an iowrite32 to the
command register. -/
inductive Access
  | identify (c : Controller)
  | poll (c : Controller)
  | command (c : Controller) (payload : BitVec 32)
  deriving DecidableEq

def Access.controller : Access → Controller
  | .identify c => c
  | .poll c => c
  | .command c _ => c

/-- The calling CPU, what probe returns for the two lists, and the status registers. A register
keeps its CPU id, and its other bits depend on the accesses made so far. -/
structure Soc where
  pid : BitVec 32
  probe : Cache → Int
  cpuid : Controller → BitVec 4
  bits : Controller → List Access → BitVec 28

def Soc.status (soc : Soc) (c : Controller) (bus : List Access) : BitVec 32 :=
  soc.cpuid c ++ soc.bits c bus

/-- The accesses made, and whether the call has come to its end. Otherwise it still polls. -/
structure Run where
  accesses : List Access
  returned : Bool
  deriving DecidableEq

def Run.andThen (r : Run) (next : List Access → Run) : Run :=
  if r.returned then next r.accesses else r

def cmd : BitVec 32 := 1 <<< 1

variable (soc : Soc)

/-- The loop that polls for completion, watched for `fuel` further reads. -/
def waitDone (c : Controller) : Nat → List Access → Run
  | 0, bus => ⟨bus ++ [.poll c], Esp.done (soc.status c bus)⟩
  | fuel + 1, bus =>
    if Esp.done (soc.status c bus) then ⟨bus ++ [.poll c], true⟩
    else waitDone c fuel (bus ++ [.poll c])

/-- Poll for completion, and clear the IRQ. -/
def waitClear (fuel : Nat) (c : Controller) (bus : List Access) : Run :=
  (waitDone soc c fuel bus).andThen fun bus => ⟨bus ++ [.command c 0], true⟩

/-- The loop that sets the L2 flush, for `n` controllers from `i` on, with the value that `i` has
behind it. -/
def setL2Flush : Nat → Nat → List Access → Nat × List Access
  | 0, i, bus => (i, bus)
  | n + 1, i, bus =>
    let l2 : Controller := ⟨.l2, i⟩
    let cpuid := Esp.cpuid (soc.status l2 bus)
    let bus := bus ++ [.identify l2]
    if cpuid = soc.pid then (i, bus ++ [.command l2 cmd]) else setL2Flush n (i + 1) bus

def flushL2 (fuel : Nat) (nl2 : Int) (bus : List Access) : Run :=
  if nl2 > 0 then
    let (i, bus) := setL2Flush soc nl2.toNat 0 bus
    waitClear soc fuel ⟨.l2, i⟩ bus
  else ⟨bus, true⟩

/-- The controllers of `for (i = 0; i < nllc; i++)`. -/
def llcs (nllc : Int) : List Controller := (List.range nllc.toNat).map fun i => ⟨.llc, i⟩

def flushLlc (fuel : Nat) (nllc : Int) (bus : List Access) : Run :=
  if nllc > 0 then
    let bus := (llcs nllc).foldl (fun bus llc => bus ++ [.command llc cmd]) bus
    (llcs nllc).foldl (fun r llc => r.andThen (waitClear soc fuel llc)) ⟨bus, true⟩
  else ⟨bus, true⟩

def accCohNone : Int := 0
def accCohRecall : Int := 2

def probed (coherence : Int) : Cache → Int
  | .llc => if coherence = accCohNone then soc.probe .llc else 0
  | .l2 => if coherence < accCohRecall then soc.probe .l2 else 0

def espFlush (fuel : Nat) (coherence : Int) : Run :=
  if coherence < accCohRecall then
    (flushL2 soc fuel (probed soc coherence .l2) []).andThen
      (flushLlc soc fuel (probed soc coherence .llc))
  else ⟨[], true⟩

/-- Only probed controllers are accessed, and those waited for and cleared are those commanded. -/
structure Proper (probed : Cache → Int) (r : Run) : Prop where
  inside : ∀ a ∈ r.accesses, (a.controller.index : Int) < probed a.controller.cache
  only : ∀ c, Access.poll c ∈ r.accesses ∨ Access.command c 0 ∈ r.accesses →
    Access.command c cmd ∈ r.accesses
  all : r.returned = true → ∀ c, Access.command c cmd ∈ r.accesses →
    Access.poll c ∈ r.accesses ∧ Access.command c 0 ∈ r.accesses

def Soc.Own (soc : Soc) (i : Nat) : Prop := (soc.cpuid ⟨.l2, i⟩).setWidth 32 = soc.pid

end Model

section Waiting
variable {soc : Soc} {fuel : Nat} {c : Controller} {cs : List Controller} {bus : List Access}
  {r : Run} {n i : Nat}

/-- What a run adds to the accesses that waits for the controllers of the list. -/
structure Waits (bus : List Access) (cs : List Controller) (r : Run) : Prop where
  kept : ∀ a ∈ bus, a ∈ r.accesses
  only : ∀ a ∈ r.accesses, a ∈ bus ∨ ∃ c ∈ cs, a = .poll c ∨ a = .command c 0
  all : r.returned = true → ∀ c ∈ cs, Access.poll c ∈ r.accesses ∧ Access.command c 0 ∈ r.accesses

theorem waitDone_polls (soc : Soc) (c : Controller) (fuel : Nat) (bus : List Access) :
    ∃ m, (waitDone soc c fuel bus).accesses = bus ++ List.replicate (m + 1) (.poll c) := by
  induction fuel generalizing bus with
  | zero => exact ⟨0, rfl⟩
  | succ fuel ih =>
    rw [waitDone]
    split
    · exact ⟨0, rfl⟩
    · obtain ⟨m, hm⟩ := ih (bus ++ [.poll c])
      refine ⟨m + 1, ?_⟩
      rw [hm, List.append_assoc]
      rfl

theorem waitClear_poll (soc : Soc) (fuel : Nat) (c : Controller) (bus : List Access) :
    Access.poll c ∈ (waitClear soc fuel c bus).accesses := by
  obtain ⟨m, hm⟩ := waitDone_polls soc c fuel bus
  rw [waitClear, Run.andThen]
  split <;> simp [hm]

theorem waitClear_waits (soc : Soc) (fuel : Nat) (c : Controller) (bus : List Access) :
    Waits bus [c] (waitClear soc fuel c bus) := by
  obtain ⟨m, hm⟩ := waitDone_polls soc c fuel bus
  rw [waitClear, Run.andThen]
  split
  · constructor
    · intro a ha
      simp [hm, ha]
    · intro a ha
      simp only [hm, List.mem_append, List.mem_replicate, List.mem_singleton] at ha ⊢
      rcases ha with (ha | ⟨-, ha⟩) | ha
      · exact Or.inl ha
      · exact Or.inr ⟨c, rfl, Or.inl ha⟩
      · exact Or.inr ⟨c, rfl, Or.inr ha⟩
    · intro _ d hd
      obtain rfl := List.mem_singleton.mp hd
      simp [hm]
  · next hcut =>
    constructor
    · intro a ha
      simp [hm, ha]
    · intro a ha
      simp only [hm, List.mem_append, List.mem_replicate] at ha
      rcases ha with ha | ⟨-, ha⟩
      · exact Or.inl ha
      · exact Or.inr ⟨c, List.mem_singleton_self c, Or.inl ha⟩
    · intro hreturned
      exact absurd hreturned hcut

theorem Waits.andThen (h : Waits bus cs r) (soc : Soc) (fuel : Nat) (c : Controller) :
    Waits bus (cs ++ [c]) (r.andThen (waitClear soc fuel c)) := by
  rw [Run.andThen]
  split
  · next hreturned =>
    have hwaits := waitClear_waits soc fuel c r.accesses
    constructor
    · intro a ha
      exact hwaits.kept a (h.kept a ha)
    · intro a ha
      rcases hwaits.only a ha with ha | ⟨d, hd, ha⟩
      · rcases h.only a ha with ha | ⟨d, hd, ha⟩
        · exact Or.inl ha
        · exact Or.inr ⟨d, List.mem_append_left _ hd, ha⟩
      · exact Or.inr ⟨d, List.mem_append_right _ hd, ha⟩
    · intro hend d hd
      rcases List.mem_append.mp hd with hd | hd
      · obtain ⟨hpoll, hclear⟩ := h.all hreturned d hd
        exact ⟨hwaits.kept _ hpoll, hwaits.kept _ hclear⟩
      · exact hwaits.all hend d hd
  · next hcut =>
    constructor
    · exact h.kept
    · intro a ha
      rcases h.only a ha with ha | ⟨d, hd, ha⟩
      · exact Or.inl ha
      · exact Or.inr ⟨d, List.mem_append_left _ hd, ha⟩
    · intro hreturned
      exact absurd hreturned hcut

theorem foldl_waits (soc : Soc) (fuel : Nat) (cs : List Controller) (bus : List Access) :
    Waits bus cs (cs.foldl (fun r c => r.andThen (waitClear soc fuel c)) ⟨bus, true⟩) := by
  induction cs using List.reverseRecOn with
  | nil => exact ⟨fun _ ha => ha, fun _ ha => Or.inl ha, fun _ c hc => by cases hc⟩
  | append_singleton cs c ih =>
    rw [List.foldl_append]
    exact ih.andThen soc fuel c

end Waiting

section Flush
variable {soc : Soc} {fuel : Nat} {cs : List Controller} {base bus : List Access} {r : Run}
  {limit : Cache → Int} {coherence nllc : Int}

theorem cmd_ne_zero : cmd ≠ 0 := by decide

theorem command_zero_ne (c d : Controller) : Access.command c 0 ≠ .command d cmd := by
  intro heq
  injection heq with _ hpayload
  exact cmd_ne_zero hpayload.symm

theorem proper_nil (limit : Cache → Int) : Proper limit ⟨[], true⟩ := by
  constructor
  · intro a ha
    cases ha
  · intro c hc
    cases hc with
    | inl hpoll => cases hpoll
    | inr hclear => cases hclear
  · intro _ c hc
    cases hc

theorem Waits.proper
    (hwaits : Waits (base ++ cs.map fun c => .command c cmd) cs r)
    (hbase : Proper limit ⟨base, true⟩) (hcs : ∀ c ∈ cs, (c.index : Int) < limit c.cache) :
    Proper limit r := by
  have hcommand : ∀ c ∈ cs, Access.command c cmd ∈ r.accesses := by
    intro c hc
    exact hwaits.kept _ (List.mem_append_right _ (List.mem_map_of_mem hc))
  have hkept : ∀ a ∈ base, a ∈ r.accesses := by
    intro a ha
    exact hwaits.kept a (List.mem_append_left _ ha)
  constructor
  · intro a ha
    rcases hwaits.only a ha with ha | ⟨c, hc, rfl | rfl⟩
    · rcases List.mem_append.mp ha with ha | ha
      · exact hbase.inside a ha
      · obtain ⟨c, hc, rfl⟩ := List.mem_map.mp ha
        exact hcs c hc
    · exact hcs c hc
    · exact hcs c hc
  · intro c hc
    have hfrom : ∀ a, a = .poll c ∨ a = .command c 0 → a ∈ r.accesses →
        Access.command c cmd ∈ r.accesses := by
      intro a hkind ha
      rcases hwaits.only a ha with ha | ⟨d, hd, heq⟩
      · rcases List.mem_append.mp ha with ha | ha
        · have hin : Access.poll c ∈ base ∨ Access.command c 0 ∈ base := by
            rcases hkind with rfl | rfl
            · exact Or.inl ha
            · exact Or.inr ha
          exact hkept _ (hbase.only c hin)
        · obtain ⟨d, -, heq⟩ := List.mem_map.mp ha
          rcases hkind with rfl | rfl
          · cases heq
          · exact absurd heq.symm (command_zero_ne c d)
      · have hsame : c = d := by
          rcases hkind with rfl | rfl <;> rcases heq with heq | heq <;> cases heq <;> rfl
        exact hsame ▸ hcommand d hd
    exact hc.elim (hfrom _ (Or.inl rfl)) (hfrom _ (Or.inr rfl))
  · intro hreturned c hc
    rcases hwaits.only _ hc with hc | ⟨d, -, heq | heq⟩
    · rcases List.mem_append.mp hc with hc | hc
      · obtain ⟨hpoll, hclear⟩ := hbase.all rfl c hc
        exact ⟨hkept _ hpoll, hkept _ hclear⟩
      · obtain ⟨d, hd, heq⟩ := List.mem_map.mp hc
        obtain rfl : d = c := by cases heq; rfl
        exact hwaits.all hreturned d hd
    · cases heq
    · exact absurd heq.symm (command_zero_ne d c)

theorem foldl_commands (cs : List Controller) (bus : List Access) :
    cs.foldl (fun bus c => bus ++ [.command c cmd]) bus =
      bus ++ cs.map fun c => .command c cmd := by
  induction cs generalizing bus with
  | nil => exact (List.append_nil bus).symm
  | cons c cs ih =>
    rw [List.foldl_cons, ih, List.append_assoc, List.map_cons, List.singleton_append]

theorem flushLlc_waits (soc : Soc) (fuel : Nat) (nllc : Int) (bus : List Access) :
    Waits (bus ++ (llcs nllc).map fun c => .command c cmd) (llcs nllc)
      (flushLlc soc fuel nllc bus) := by
  rw [flushLlc]
  split
  · rw [foldl_commands]
    exact foldl_waits soc fuel _ _
  · next hnone =>
    have hempty : llcs nllc = [] := by
      rw [llcs, Int.toNat_of_nonpos (Int.not_lt.mp hnone)]
      rfl
    rw [hempty, List.map_nil, List.append_nil]
    exact ⟨fun _ ha => ha, fun _ ha => Or.inl ha, fun _ c hc => by cases hc⟩

theorem flushLlc_proper (hbus : Proper limit ⟨bus, true⟩) (hllc : limit .llc = nllc) :
    Proper limit (flushLlc soc fuel nllc bus) := by
  refine (flushLlc_waits soc fuel nllc bus).proper hbus ?_
  intro c hc
  obtain ⟨i, hi, rfl⟩ := List.mem_map.mp hc
  have hlt := List.mem_range.mp hi
  change (i : Int) < limit .llc
  omega

theorem cpuid_append (x : BitVec 4) (y : BitVec 28) : Esp.cpuid (x ++ y) = x.setWidth 32 := by
  have hmask : (0xf0000000 : BitVec 32) = (BitVec.allOnes 4 ++ 0#28) := by decide
  have hhigh : (x ++ y) &&& (BitVec.allOnes 4 ++ 0#28) = x ++ 0#28 := by
    rw [BitVec.and_append, BitVec.and_allOnes, BitVec.and_zero]
  have hlt := x.isLt
  rw [Esp.cpuid, hmask, hhigh]
  apply BitVec.eq_of_toNat_eq
  rw [BitVec.toNat_ushiftRight, BitVec.toNat_append, BitVec.toNat_setWidth,
    Nat.shiftRight_eq_div_pow, Nat.shiftLeft_eq]
  simp
  omega

def Searched (n : Nat) (reads : List Access) : Prop :=
  ∀ a ∈ reads, ∃ i < n, a = .identify ⟨.l2, i⟩

theorem setL2Flush_cases (soc : Soc) (n i : Nat) (bus : List Access) :
    (∃ k, k < i + n ∧ soc.Own k ∧ ∃ reads, Searched (i + n) reads ∧
      setL2Flush soc n i bus = (k, bus ++ reads ++ [.command ⟨.l2, k⟩ cmd])) ∨
    (∀ k, i ≤ k → k < i + n → ¬soc.Own k) ∧ ∃ reads, Searched (i + n) reads ∧
      setL2Flush soc n i bus = (i + n, bus ++ reads) := by
  induction n generalizing i bus with
  | zero =>
    refine Or.inr ⟨by omega, [], ?_, ?_⟩
    · intro a ha
      cases ha
    · rw [List.append_nil]
      rfl
  | succ n ih =>
    have hread : Esp.cpuid (soc.status ⟨.l2, i⟩ bus) = (soc.cpuid ⟨.l2, i⟩).setWidth 32 :=
      cpuid_append _ _
    have hsum : i + 1 + n = i + (n + 1) := by omega
    have hcons : ∀ {reads}, Searched (i + 1 + n) reads →
        Searched (i + (n + 1)) (.identify ⟨.l2, i⟩ :: reads) := by
      intro reads hreads a ha
      rcases List.mem_cons.mp ha with rfl | ha
      · exact ⟨i, by omega, rfl⟩
      · exact hsum ▸ hreads a ha
    by_cases hown : soc.Own i
    · refine Or.inl ⟨i, by omega, hown, [.identify ⟨.l2, i⟩], ?_, ?_⟩
      · exact hcons fun a ha => by cases ha
      · rw [setL2Flush, hread]
        exact if_pos hown
    · have hstep : setL2Flush soc (n + 1) i bus =
          setL2Flush soc n (i + 1) (bus ++ [.identify ⟨.l2, i⟩]) := by
        rw [setL2Flush, hread]
        exact if_neg hown
      have happend : ∀ reads : List Access, bus ++ [.identify ⟨.l2, i⟩] ++ reads =
          bus ++ (.identify ⟨.l2, i⟩ :: reads) := by
        intro reads
        rw [List.append_assoc]
        rfl
      rcases ih (i + 1) (bus ++ [.identify ⟨.l2, i⟩]) with
        ⟨k, hk, hkown, reads, hreads, heq⟩ | ⟨hnone, reads, hreads, heq⟩
      · refine Or.inl ⟨k, by omega, hkown, _, hcons hreads, ?_⟩
        rw [hstep, heq, happend]
      · refine Or.inr ⟨?_, _, hcons hreads, ?_⟩
        · intro k hle hlt
          rcases Nat.eq_or_lt_of_le hle with rfl | hlt'
          · exact hown
          · exact hnone k hlt' (by omega)
        · rw [hstep, heq, happend, hsum]

theorem Searched.proper {n : Nat} {reads : List Access} (h : Searched n reads)
    (hn : (n : Int) ≤ limit .l2) : Proper limit ⟨reads, true⟩ := by
  have hkind : ∀ a ∈ reads, ∃ c, a = .identify c := fun a ha => by
    obtain ⟨i, -, rfl⟩ := h a ha
    exact ⟨_, rfl⟩
  constructor
  · intro a ha
    obtain ⟨i, hi, rfl⟩ := h a ha
    change (i : Int) < limit .l2
    omega
  · rintro c (hc | hc) <;> obtain ⟨d, hd⟩ := hkind _ hc <;> cases hd
  · intro _ c hc
    obtain ⟨d, hd⟩ := hkind _ hc
    cases hd

theorem flushL2_proper {nl2 : Int} (hl2 : limit .l2 = nl2)
    (hfound : nl2 ≤ 0 ∨ ∃ i : Nat, (i : Int) < nl2 ∧ soc.Own i) :
    Proper limit (flushL2 soc fuel nl2 []) := by
  rw [flushL2]
  split
  · next hpos =>
    have hcast : (nl2.toNat : Int) = nl2 := Int.toNat_of_nonneg (Int.le_of_lt hpos)
    rcases setL2Flush_cases soc nl2.toNat 0 [] with
      ⟨k, hk, -, reads, hreads, heq⟩ | ⟨hnone, -⟩
    · rw [heq]
      have hbase : Proper limit ⟨reads, true⟩ := hreads.proper (by omega)
      have hwaits : Waits (reads ++ [⟨.l2, k⟩].map fun c => .command c cmd) [⟨.l2, k⟩]
          (waitClear soc fuel ⟨.l2, k⟩ (reads ++ [.command ⟨.l2, k⟩ cmd])) :=
        waitClear_waits soc fuel _ _
      refine hwaits.proper hbase ?_
      intro c hc
      obtain rfl := List.mem_singleton.mp hc
      change (k : Int) < limit .l2
      omega
    · obtain hle | ⟨i, hi, hown⟩ := hfound
      · omega
      · exact absurd hown (hnone i (Nat.zero_le i) (by omega))
  · exact proper_nil limit

theorem flushL2_outside {nl2 : Int} (hpos : 0 < nl2)
    (hnone : ∀ i : Nat, (i : Int) < nl2 → ¬soc.Own i) :
    Access.poll ⟨.l2, nl2.toNat⟩ ∈ (flushL2 soc fuel nl2 []).accesses := by
  rw [flushL2, if_pos hpos]
  rcases setL2Flush_cases soc nl2.toNat 0 [] with ⟨k, hk, hown, -⟩ | ⟨-, reads, -, heq⟩
  · exact absurd hown (hnone k (by omega))
  · rw [heq, Nat.zero_add]
    exact waitClear_poll soc fuel _ _

theorem andThen_kept (soc : Soc) (fuel : Nat) (nllc : Int) {a : Access} (ha : a ∈ r.accesses) :
    a ∈ (r.andThen (flushLlc soc fuel nllc)).accesses := by
  rw [Run.andThen]
  split
  · exact (flushLlc_waits soc fuel nllc r.accesses).kept a (List.mem_append_left _ ha)
  · exact ha

/-- The flush is proper exactly when it looks for no L2 cache, finds none at all, or finds the one
of its own CPU. -/
theorem espFlush_proper_iff (soc : Soc) (fuel : Nat) (coherence : Int) :
    Proper (probed soc coherence) (espFlush soc fuel coherence) ↔
      accCohRecall ≤ coherence ∨ soc.probe .l2 ≤ 0 ∨
        ∃ i : Nat, (i : Int) < soc.probe .l2 ∧ soc.Own i := by
  rw [espFlush]
  split
  · next hlow =>
    have hl2 : probed soc coherence .l2 = soc.probe .l2 := if_pos hlow
    rw [hl2]
    constructor
    · intro hproper
      by_contra hcond
      rw [not_or, not_or, not_exists] at hcond
      obtain ⟨-, hpos, hnone⟩ := hcond
      have hpoll : Access.poll ⟨.l2, (soc.probe .l2).toNat⟩ ∈
          (flushL2 soc fuel (soc.probe .l2) []).accesses :=
        flushL2_outside (Int.not_le.mp hpos) fun i hi hown => hnone i ⟨hi, hown⟩
      have hlt := hproper.inside _ (andThen_kept soc fuel _ hpoll)
      change ((soc.probe .l2).toNat : Int) < probed soc coherence .l2 at hlt
      omega
    · intro hcond
      have hfirst : Proper (probed soc coherence)
          (flushL2 soc fuel (soc.probe .l2) []) :=
        flushL2_proper hl2 (hcond.resolve_left (Int.not_le.mpr hlow))
      rw [Run.andThen]
      split
      · next hreturned =>
        refine flushLlc_proper ?_ rfl
        exact hreturned ▸ hfirst
      · exact hfirst
  · next hhigh =>
    exact iff_of_true (proper_nil _) (Or.inl (Int.not_lt.mp hhigh))

/-- CPU 0 with the cache of CPU 1 only: the register behind the list is polled and cleared. -/
theorem espFlush_outside : ∃ soc : Soc, soc.probe .l2 = 1 ∧
    espFlush soc 0 1 = ⟨[.identify ⟨.l2, 0⟩, .poll ⟨.l2, 1⟩, .command ⟨.l2, 1⟩ 0], true⟩ ∧
    ¬Proper (probed soc 1) (espFlush soc 0 1) := by
  refine ⟨⟨0, fun _ => 1, fun _ => 1, fun _ _ => 1⟩, rfl, by decide +kernel, ?_⟩
  intro hproper
  have hlt := hproper.inside (.poll ⟨.l2, 1⟩) (by decide +kernel)
  exact absurd hlt (by decide)

end Flush
end EspDrivers.Barec
