import EspDrivers.ArrayLoops
import EspDrivers.EspDevice
import EspDrivers.Trace

/-! The flush of the caches before a transfer: esp_flush, esp_private_cache_flush for the
L2 caches and esp_cache_flush for the LLC, with the controllers running beside them. -/
namespace EspDrivers.Esp
open ContigAlloc (Errno)
open ArrayLoops Trace

section Controllers

/-- A cache controller: its two registers, and how many flushes it has begun and, of
these, finished. -/
structure Cache where
  cmd : BitVec 32
  status : BitVec 32
  begun : Nat
  finished : Nat

def cpuid (status : BitVec 32) : BitVec 32 := (status &&& 0xf0000000) >>> 28

def done (status : BitVec 32) : Bool := status &&& 1 ≠ 0

/-- ESP_CACHE_CMD_FLUSH_INST_BIT and ESP_CACHE_CMD_FLUSH_BIT -/
def cmdPrivate : BitVec 32 := (1 <<< 2) ||| (1 <<< 1)

def cmdLlc : BitVec 32 := 1 <<< 1

def Cache.command (c : Cache) (cmd : BitVec 32) : Cache := { c with cmd := cmd, begun := c.begun + 1 }

def Cache.clear (c : Cache) : Cache := { c with cmd := 0, status := c.status &&& ~~~1 }

inductive Move where
  | finish
  | status (v : BitVec 32)

/-- The done bit is not set before the flush commanded since the last clear has finished. -/
def Cache.move (c : Cache) : Move → Option Cache
  | .finish =>
    if c.cmd ≠ 0 ∧ c.finished < c.begun then some { c with finished := c.begun } else none
  | .status v =>
    if cpuid v = cpuid c.status ∧ (done v = true → c.cmd ≠ 0 ∧ c.finished = c.begun) then
      some { c with status := v }
    else none

end Controllers

section Machine

/-- The macros __riscv and CONFIG_SMP, and the lengths of the two lists of controllers. -/
structure Build where
  riscv : Bool
  smp : Bool
  l2s : Nat
  llcs : Nat

/-- Without SMP only the cache of CPU 0 is flushed. -/
def Build.Selects (b : Build) (c : Cache) : Prop := b.smp = true ∨ cpuid c.status = 0

instance (b : Build) (c : Cache) : Decidable (b.Selects c) := inferInstanceAs (Decidable (_ ∨ _))

/-- The place in esp_flush: between two calls, with what the last one, if any, has returned;
in the first loop of esp_private_cache_flush and in the loop inside it; in its second loop; in
esp_cache_flush and esp_cache_do_flush; behind the BUG_ON. -/
inductive FlushPc where
  | idle (rc : Option (Except Errno Unit))
  | arm (i : Nat)
  | armed (i : Nat)
  | l1
  | collect (i : Nat)
  | waitL2 (i : Nat)
  | clearL2 (i : Nat)
  | lock (i : Nat)
  | llc (i : Nat)
  | waitLlc (i : Nat)
  | clearLlc (i : Nat)
  | bug

structure FlushState where
  l2 : Nat → Cache
  llc : Nat → Cache
  coherence : Coherence
  pc : FlushPc

/-- A call for a device with the given mode, a step of the call, the end of
mutex_lock_interruptible, or a move of a controller. -/
inductive FlushEvent where
  | call (coherence : Coherence)
  | cpu
  | locked (got : Bool)
  | l2 (i : Nat) (m : Move)
  | llc (i : Nat) (m : Move)

def FlushState.goto (s : FlushState) (pc : FlushPc) : FlushState := { s with pc := pc }

def afterPrivate (coherence : Coherence) : FlushPc :=
  if coherence.value < Coherence.llc.value then .lock 0 else .idle (some (.ok ()))

def flushEntry (b : Build) (coherence : Coherence) : FlushPc :=
  if b.riscv then .idle (some (.ok ()))
  else if coherence.value < Coherence.recall.value then .arm 0
  else afterPrivate coherence

def flushCpu (b : Build) (s : FlushState) : Option FlushState :=
  match s.pc with
  | .idle _ => none
  | .arm i =>
    if i < b.l2s then
      if (s.l2 i).cmd ≠ 0 then some (s.goto .bug)
      else if b.Selects (s.l2 i) then
        some { s with l2 := Function.update s.l2 i ((s.l2 i).command cmdPrivate), pc := .armed i }
      else some (s.goto (.arm (i + 1)))
    else some (s.goto .l1)
  | .armed i => if (s.l2 i).cmd = cmdPrivate then some (s.goto (.arm (i + 1))) else some s
  | .l1 => some (s.goto (.collect 0))
  | .collect i =>
    if i < b.l2s then
      if (s.l2 i).cmd ≠ 0 then some (s.goto (.waitL2 i)) else some (s.goto (.collect (i + 1)))
    else some (s.goto (afterPrivate s.coherence))
  | .waitL2 i => if done (s.l2 i).status then some (s.goto (.clearL2 i)) else some s
  | .clearL2 i =>
    some { s with l2 := Function.update s.l2 i (s.l2 i).clear, pc := .collect (i + 1) }
  | .lock i => if i < b.llcs then none else some (s.goto (.idle (some (.ok ()))))
  | .llc i =>
    if (s.llc i).cmd = 0 then
      some { s with llc := Function.update s.llc i ((s.llc i).command cmdLlc), pc := .waitLlc i }
    else some (s.goto (.clearLlc i))
  | .waitLlc i => if done (s.llc i).status then some (s.goto (.clearLlc i)) else some s
  | .clearLlc i =>
    some { s with llc := Function.update s.llc i (s.llc i).clear, pc := .lock (i + 1) }
  | .bug => none

def flushStep (b : Build) (s : FlushState) : FlushEvent → Option FlushState
  | .call coherence =>
    match s.pc with
    | .idle _ => some { s with coherence := coherence, pc := flushEntry b coherence }
    | _ => none
  | .cpu => flushCpu b s
  | .locked got =>
    match s.pc with
    | .lock i =>
      if i < b.llcs then some (s.goto (if got then .llc i else .idle (some (.error .eintr)))) else none
    | _ => none
  | .l2 i m => ((s.l2 i).move m).map fun c => { s with l2 := Function.update s.l2 i c }
  | .llc i m => ((s.llc i).move m).map fun c => { s with llc := Function.update s.llc i c }

inductive FlushMove (b : Build) (s : FlushState) : FlushState → Prop where
  | busy {i : Nat} (hpc : s.pc = .arm i) (hi : i < b.l2s) (hcmd : (s.l2 i).cmd ≠ 0) :
    FlushMove b s (s.goto .bug)
  | commands {i : Nat} (hpc : s.pc = .arm i) (hi : i < b.l2s) (hcmd : (s.l2 i).cmd = 0)
    (hsel : b.Selects (s.l2 i)) : FlushMove b s
      { s with l2 := Function.update s.l2 i ((s.l2 i).command cmdPrivate), pc := .armed i }
  | passes {i : Nat} (hpc : s.pc = .arm i) (hi : i < b.l2s) (hcmd : (s.l2 i).cmd = 0)
    (hsel : ¬ b.Selects (s.l2 i)) : FlushMove b s (s.goto (.arm (i + 1)))
  | armsEnd {i : Nat} (hpc : s.pc = .arm i) (hi : b.l2s ≤ i) : FlushMove b s (s.goto .l1)
  | readsBack {i : Nat} (hpc : s.pc = .armed i) : FlushMove b s (s.goto (.arm (i + 1)))
  | flushesL1 (hpc : s.pc = .l1) : FlushMove b s (s.goto (.collect 0))
  | waits {i : Nat} (hpc : s.pc = .collect i) (hi : i < b.l2s) (hcmd : (s.l2 i).cmd ≠ 0) :
    FlushMove b s (s.goto (.waitL2 i))
  | skips {i : Nat} (hpc : s.pc = .collect i) (hi : i < b.l2s) (hcmd : (s.l2 i).cmd = 0) :
    FlushMove b s (s.goto (.collect (i + 1)))
  | collectsEnd {i : Nat} (hpc : s.pc = .collect i) (hi : b.l2s ≤ i) :
    FlushMove b s (s.goto (afterPrivate s.coherence))
  | doneL2 {i : Nat} (hpc : s.pc = .waitL2 i) (hdone : done (s.l2 i).status = true) :
    FlushMove b s (s.goto (.clearL2 i))
  | clearsL2 {i : Nat} (hpc : s.pc = .clearL2 i) : FlushMove b s
      { s with l2 := Function.update s.l2 i (s.l2 i).clear, pc := .collect (i + 1) }
  | locksEnd {i : Nat} (hpc : s.pc = .lock i) (hi : b.llcs ≤ i) :
    FlushMove b s (s.goto (.idle (some (.ok ()))))
  | commandsLlc {i : Nat} (hpc : s.pc = .llc i) (hcmd : (s.llc i).cmd = 0) : FlushMove b s
      { s with llc := Function.update s.llc i ((s.llc i).command cmdLlc), pc := .waitLlc i }
  | inProgress {i : Nat} (hpc : s.pc = .llc i) (hcmd : (s.llc i).cmd ≠ 0) :
    FlushMove b s (s.goto (.clearLlc i))
  | doneLlc {i : Nat} (hpc : s.pc = .waitLlc i) (hdone : done (s.llc i).status = true) :
    FlushMove b s (s.goto (.clearLlc i))
  | clearsLlc {i : Nat} (hpc : s.pc = .clearLlc i) : FlushMove b s
      { s with llc := Function.update s.llc i (s.llc i).clear, pc := .lock (i + 1) }
  | again : FlushMove b s s

theorem flushCpu_move {b : Build} {s t : FlushState} (h : flushCpu b s = some t) :
    FlushMove b s t := by
  rw [flushCpu] at h
  split at h
  · cases h
  · next hpc =>
    split at h
    · next hi =>
      split at h
      · next hcmd =>
        cases h
        exact .busy hpc hi hcmd
      · next hcmd =>
        split at h
        · next hsel =>
          cases h
          exact .commands hpc hi (not_not.mp hcmd) hsel
        · next hsel =>
          cases h
          exact .passes hpc hi (not_not.mp hcmd) hsel
    · next hi =>
      cases h
      exact .armsEnd hpc (Nat.le_of_not_lt hi)
  · next hpc =>
    split at h
    · cases h
      exact .readsBack hpc
    · cases h
      exact .again
  · next hpc =>
    cases h
    exact .flushesL1 hpc
  · next hpc =>
    split at h
    · next hi =>
      split at h
      · next hcmd =>
        cases h
        exact .waits hpc hi hcmd
      · next hcmd =>
        cases h
        exact .skips hpc hi (not_not.mp hcmd)
    · next hi =>
      cases h
      exact .collectsEnd hpc (Nat.le_of_not_lt hi)
  · next hpc =>
    split at h
    · next hdone =>
      cases h
      exact .doneL2 hpc hdone
    · cases h
      exact .again
  · next hpc =>
    cases h
    exact .clearsL2 hpc
  · next hpc =>
    split at h
    · cases h
    · next hi =>
      cases h
      exact .locksEnd hpc (Nat.le_of_not_lt hi)
  · next hpc =>
    split at h
    · next hcmd =>
      cases h
      exact .commandsLlc hpc hcmd
    · next hcmd =>
      cases h
      exact .inProgress hpc hcmd
  · next hpc =>
    split at h
    · next hdone =>
      cases h
      exact .doneLlc hpc hdone
    · cases h
      exact .again
  · next hpc =>
    cases h
    exact .clearsLlc hpc
  · cases h

end Machine

section Controller
variable {b : Build} {c c' : Cache} {m : Move} {n : Nat}

/-- What the done bit tells, and that flush number `n` was begun. -/
structure Sound (n : Nat) (c : Cache) : Prop where
  done : done c.status = true → c.cmd ≠ 0 ∧ c.finished = c.begun
  le : c.finished ≤ c.begun
  mark : n ≤ c.begun

theorem move_cases (h : c.move m = some c') : c'.cmd = c.cmd ∧ c'.begun = c.begun ∧
    cpuid c'.status = cpuid c.status ∧
      (c'.finished = c.finished ∨ (c.cmd ≠ 0 ∧ c'.finished = c.begun)) := by
  cases m with
  | finish =>
    simp only [Cache.move] at h
    split at h
    · next hf =>
      cases h
      exact ⟨rfl, rfl, rfl, Or.inr ⟨hf.1, rfl⟩⟩
    · cases h
  | status v =>
    simp only [Cache.move] at h
    split at h
    · next hv =>
      cases h
      exact ⟨rfl, rfl, hv.1, Or.inl rfl⟩
    · cases h

theorem Sound.move (hs : Sound n c) (h : c.move m = some c') : Sound n c' := by
  cases m with
  | finish =>
    simp only [Cache.move] at h
    split at h
    · next hf =>
      cases h
      exact ⟨fun _ => ⟨hf.1, rfl⟩, Nat.le_refl _, hs.mark⟩
    · cases h
  | status v =>
    simp only [Cache.move] at h
    split at h
    · next hv =>
      cases h
      exact ⟨hv.2, hs.le, hs.mark⟩
    · cases h

theorem Sound.command (hs : Sound n c) (hz : c.cmd = 0) (cmd : BitVec 32) :
    Sound n (c.command cmd) := by
  refine ⟨fun hd => ?_, Nat.le_succ_of_le hs.le, Nat.le_succ_of_le hs.mark⟩
  exact absurd hz (hs.done hd).1

theorem done_clear : done c.clear.status = false := by
  have hand : c.status &&& ~~~1 &&& 1 = 0#32 := by
    rw [BitVec.and_assoc]
    exact BitVec.and_zero
  change decide (c.status &&& ~~~1 &&& 1 ≠ 0#32) = false
  rw [hand]
  rfl

theorem Sound.clear (hs : Sound n c) : Sound n c.clear := by
  refine ⟨fun hd => ?_, hs.le, hs.mark⟩
  rw [done_clear] at hd
  cases hd

def CmdZero (c : Cache) : Prop := c.cmd = 0

/-- In work if it is one of `p`, and then with a flush after number `n`. -/
structure Armed (p : Cache → Prop) (n : Nat) (c : Cache) : Prop where
  selected : p c → c.cmd ≠ 0
  begun : c.cmd ≠ 0 → n < c.begun

/-- Idle, and if it is one of `p` it has finished a flush after number `n`. -/
structure Flushed (p : Cache → Prop) (n : Nat) (c : Cache) : Prop where
  zero : c.cmd = 0
  finished : p c → n < c.finished

variable {p : Cache → Prop}

theorem Sound.finished_le (hs : Sound n c) (h : c.move m = some c') : c.finished ≤ c'.finished := by
  obtain ⟨_, _, _, hfin⟩ := move_cases h
  cases hfin with
  | inl heq => exact Nat.le_of_eq heq.symm
  | inr heq =>
    rw [heq.2]
    exact hs.le

theorem CmdZero.move (hz : CmdZero c) (h : c.move m = some c') : CmdZero c' := (move_cases h).1.trans hz

theorem Armed.move (ha : Armed p n c) (h : c.move m = some c') (hp : p c' → p c) :
    Armed p n c' := by
  obtain ⟨hcmd, hbegun, _⟩ := move_cases h
  constructor
  · intro hsel
    rw [hcmd]
    exact ha.selected (hp hsel)
  · intro hne
    rw [hbegun]
    exact ha.begun (hcmd ▸ hne)

theorem Flushed.move (hf : Flushed p n c) (h : c.move m = some c') (hp : p c' → p c) :
    Flushed p n c' := by
  obtain ⟨hcmd, _, _, hfin⟩ := move_cases h
  refine ⟨hcmd.trans hf.zero, fun hsel => ?_⟩
  cases hfin with
  | inl heq =>
    rw [heq]
    exact hf.finished (hp hsel)
  | inr heq => exact absurd hf.zero heq.1

theorem selects_move (h : c.move m = some c') : b.Selects c' → b.Selects c := by
  intro hsel
  rw [Build.Selects, (move_cases h).2.2.1] at hsel
  exact hsel

theorem Sound.armed (hs : Sound n c) {cmd : BitVec 32} (hcmd : cmd ≠ 0) :
    Armed p n (c.command cmd) :=
  ⟨fun _ => hcmd, fun _ => Nat.lt_succ_of_le hs.mark⟩

theorem Armed.done (ha : Armed p n c) (hs : Sound n c) (hd : done c.status = true) :
    n < c.finished := by
  obtain ⟨hne, heq⟩ := hs.done hd
  rw [heq]
  exact ha.begun hne

theorem flushed_clear (hn : n < c.finished) : Flushed p n c.clear := ⟨rfl, fun _ => hn⟩

theorem Armed.flushed (ha : Armed p n c) (hz : c.cmd = 0) : Flushed p n c :=
  ⟨hz, fun hsel => absurd hz (ha.selected hsel)⟩

end Controller

section Invariant

/-- The mode of a call, and how many flushes each controller has begun when it begins. -/
structure Marks where
  mode : Coherence
  l2 : Nat → Nat
  llc : Nat → Nat

def FlushState.marks (s : FlushState) : Marks :=
  ⟨s.coherence, fun i => (s.l2 i).begun, fun i => (s.llc i).begun⟩

section Lists
variable (b : Build) (k : Nat → Nat) (f : Nat → Cache)

def Idle (n : Nat) : Prop := ∀ i < n, CmdZero (f i)

/-- The caches of the list that the mode asks for have been flushed since the marks. -/
def L2Flushed : Prop := ∀ i < b.l2s, Flushed b.Selects (k i) (f i)
def LlcFlushed : Prop := ∀ i < b.llcs, Flushed (fun _ => True) (k i) (f i)

def Arming (i : Nat) : Prop :=
  Sweep b.l2s i i (fun j => Armed b.Selects (k j)) (fun _ => CmdZero) f

def Collecting (i : Nat) : Prop :=
  Sweep b.l2s i i (fun j => Flushed b.Selects (k j)) (fun j => Armed b.Selects (k j)) f

def FlushingLlc (lo hi : Nat) : Prop :=
  Sweep b.llcs lo hi (fun j => Flushed (fun _ => True) (k j)) (fun _ => CmdZero) f

def L2Place (mode : Coherence) : FlushPc → Prop
  | .idle rc => Idle f b.l2s ∧ (b.riscv = false → rc = some (.ok ()) →
      mode.value < Coherence.recall.value → L2Flushed b k f)
  | .arm i => Arming b k f i
  | .armed i => Arming b k f (i + 1)
  | .l1 => Collecting b k f 0
  | .collect i => Collecting b k f i
  | .waitL2 i => Collecting b k f i ∧ Armed b.Selects (k i) (f i) ∧ (f i).cmd ≠ 0
  | .clearL2 i => Collecting b k f i ∧ k i < (f i).finished
  | .lock _ => L2Flushed b k f
  | .llc _ => L2Flushed b k f
  | .waitLlc _ => L2Flushed b k f
  | .clearLlc _ => L2Flushed b k f
  | .bug => False

def LlcPlace (mode : Coherence) : FlushPc → Prop
  | .idle rc => Idle f b.llcs ∧ (b.riscv = false → rc = some (.ok ()) →
      mode.value < Coherence.llc.value → LlcFlushed b k f)
  | .lock i => FlushingLlc b k f i i
  | .llc i => FlushingLlc b k f i i ∧ i < b.llcs
  | .waitLlc i => FlushingLlc b k f i (i + 1) ∧ Armed (fun _ => True) (k i) (f i)
  | .clearLlc i => FlushingLlc b k f i (i + 1) ∧ k i < (f i).finished
  | _ => Idle f b.llcs

end Lists

structure FlushInv (b : Build) (k : Marks) (s : FlushState) : Prop where
  mode : s.coherence = k.mode
  l2 : ∀ i, Sound (k.l2 i) (s.l2 i)
  llc : ∀ i, Sound (k.llc i) (s.llc i)
  l2Place : L2Place b k.l2 s.l2 s.coherence s.pc
  llcPlace : LlcPlace b k.llc s.llc s.coherence s.pc

section Moves
variable {b : Build} {k : Nat → Nat} {f : Nat → Cache} {i : Nat} {m : Move} {c : Cache}
  {mode : Coherence} {pc : FlushPc}

theorem Idle.move {n : Nat} (hi : Idle f n) (h : (f i).move m = some c) :
    Idle (Function.update f i c) n :=
  all_change (P := fun _ => CmdZero) hi fun hz => hz.move h

theorem L2Flushed.move (hf : L2Flushed b k f) (h : (f i).move m = some c) :
    L2Flushed b k (Function.update f i c) :=
  all_change (P := fun j => Flushed b.Selects (k j)) hf fun hj => hj.move h (selects_move h)

theorem LlcFlushed.move (hf : LlcFlushed b k f) (h : (f i).move m = some c) :
    LlcFlushed b k (Function.update f i c) :=
  all_change (P := fun j => Flushed (fun _ => True) (k j)) hf fun hj => hj.move h id

theorem Arming.move {j : Nat} (ha : Arming b k f j) (h : (f i).move m = some c) :
    Arming b k (Function.update f i c) j :=
  ha.change (fun hj => hj.move h (selects_move h)) (fun hz => hz.move h)

theorem Collecting.move {j : Nat} (hc : Collecting b k f j) (h : (f i).move m = some c) :
    Collecting b k (Function.update f i c) j :=
  hc.change (fun hj => hj.move h (selects_move h)) (fun hj => hj.move h (selects_move h))

theorem FlushingLlc.move {lo hi : Nat} (hf : FlushingLlc b k f lo hi) (h : (f i).move m = some c) :
    FlushingLlc b k (Function.update f i c) lo hi :=
  hf.change (fun hj => hj.move h id) (fun hz => hz.move h)

theorem at_move {P : Cache → Prop} (j : Nat) (h : (f i).move m = some c)
    (hP : P (f i) → P c) (hj : P (f j)) : P (Function.update f i c j) := by
  by_cases hji : j = i
  · subst hji
    rw [Function.update_self]
    exact hP hj
  · rw [Function.update_of_ne hji]
    exact hj

theorem L2Place.move (hs : ∀ j, Sound (k j) (f j)) (hp : L2Place b k f mode pc)
    (h : (f i).move m = some c) : L2Place b k (Function.update f i c) mode pc := by
  cases pc with
  | idle rc =>
    refine ⟨hp.1.move h, fun hr hrc hm => ?_⟩
    exact (hp.2 hr hrc hm).move h
  | arm j => exact Arming.move hp h
  | armed j => exact Arming.move hp h
  | l1 => exact Collecting.move hp h
  | collect j => exact Collecting.move hp h
  | waitL2 j =>
    obtain ⟨hcollect, harmed, hcmd⟩ := hp
    refine ⟨hcollect.move h, ?_, ?_⟩
    · exact at_move (P := Armed b.Selects (k j)) j h (fun ha => ha.move h (selects_move h)) harmed
    · exact at_move (P := fun c => c.cmd ≠ 0) j h (fun hne => (move_cases h).1 ▸ hne) hcmd
  | clearL2 j =>
    obtain ⟨hcollect, hfin⟩ := hp
    refine ⟨hcollect.move h, ?_⟩
    exact at_move (P := fun c => k j < c.finished) j h
      (fun hlt => Nat.lt_of_lt_of_le hlt ((hs i).finished_le h)) hfin
  | lock j => exact L2Flushed.move hp h
  | llc j => exact L2Flushed.move hp h
  | waitLlc j => exact L2Flushed.move hp h
  | clearLlc j => exact L2Flushed.move hp h
  | bug => exact hp

theorem LlcPlace.move (hs : ∀ j, Sound (k j) (f j)) (hp : LlcPlace b k f mode pc)
    (h : (f i).move m = some c) : LlcPlace b k (Function.update f i c) mode pc := by
  cases pc with
  | idle rc =>
    refine ⟨hp.1.move h, fun hr hrc hm => ?_⟩
    exact (hp.2 hr hrc hm).move h
  | lock j => exact FlushingLlc.move hp h
  | llc j => exact ⟨hp.1.move h, hp.2⟩
  | waitLlc j =>
    refine ⟨hp.1.move h, ?_⟩
    exact at_move (P := Armed (fun _ => True) (k j)) j h (fun ha => ha.move h id) hp.2
  | clearLlc j =>
    refine ⟨hp.1.move h, ?_⟩
    exact at_move (P := fun c => k j < c.finished) j h
      (fun hlt => Nat.lt_of_lt_of_le hlt ((hs i).finished_le h)) hp.2
  | _ => exact Idle.move hp h

theorem sound_update (hs : ∀ j, Sound (k j) (f j)) (hc : Sound (k i) c) (j : Nat) :
    Sound (k j) (Function.update f i c j) := by
  by_cases hji : j = i
  · subst hji
    rw [Function.update_self]
    exact hc
  · rw [Function.update_of_ne hji]
    exact hs j

end Moves

section Steps
variable {b : Build} {k : Marks} {s t : FlushState} {i : Nat}

theorem FlushInv.l2_move {m : Move} {c : Cache} (hs : FlushInv b k s)
    (h : (s.l2 i).move m = some c) : FlushInv b k { s with l2 := Function.update s.l2 i c } where
  mode := hs.mode
  l2 := sound_update hs.l2 ((hs.l2 i).move h)
  llc := hs.llc
  l2Place := hs.l2Place.move hs.l2 h
  llcPlace := hs.llcPlace

theorem FlushInv.llc_move {m : Move} {c : Cache} (hs : FlushInv b k s)
    (h : (s.llc i).move m = some c) : FlushInv b k { s with llc := Function.update s.llc i c } where
  mode := hs.mode
  l2 := hs.l2
  llc := sound_update hs.llc ((hs.llc i).move h)
  l2Place := hs.l2Place
  llcPlace := hs.llcPlace.move hs.llc h

theorem FlushInv.goto (hs : FlushInv b k s) {pc : FlushPc}
    (h2 : L2Place b k.l2 s.l2 s.coherence pc) (h3 : LlcPlace b k.llc s.llc s.coherence pc) :
    FlushInv b k (s.goto pc) := ⟨hs.mode, hs.l2, hs.llc, h2, h3⟩

theorem FlushInv.afterPrivate (hs : FlushInv b k s) (h2 : L2Flushed b k.l2 s.l2)
    (h3 : Idle s.llc b.llcs) : FlushInv b k (s.goto (afterPrivate s.coherence)) := by
  rw [Esp.afterPrivate]
  split
  · exact hs.goto h2 (Sweep.start h3)
  · next hm =>
    refine hs.goto ⟨fun j hj => (h2 j hj).zero, fun _ _ _ => h2⟩ ⟨h3, ?_⟩
    intro _ _ hlt
    exact absurd hlt hm

/-- In the first loop a controller that is reached is idle, in the second one a controller
without a command was not selected, and esp_cache_do_flush finds its controller idle. -/
theorem FlushInv.cpu (hs : FlushInv b k s) (h : flushCpu b s = some t) : FlushInv b k t := by
  have h2 := hs.l2Place
  have h3 := hs.llcPlace
  cases flushCpu_move h with
  | @busy i hpc hi hcmd =>
    rw [hpc] at h2
    exact absurd (Sweep.ahead h2 i hi (Nat.le_refl i)) hcmd
  | @commands i hpc hi hcmd hsel =>
    rw [hpc] at h2 h3
    have hne : cmdPrivate ≠ 0 := by decide
    exact ⟨hs.mode, sound_update hs.l2 ((hs.l2 i).command hcmd _), hs.llc,
      Sweep.advance h2 ((hs.l2 i).armed hne), h3⟩
  | passes hpc hi hcmd hsel =>
    rw [hpc] at h2 h3
    refine hs.goto (Sweep.skip h2 ?_) h3
    intro _
    exact ⟨fun hp => absurd hp hsel, fun hne => absurd hcmd hne⟩
  | armsEnd hpc hi =>
    rw [hpc] at h2 h3
    exact hs.goto (Sweep.start (Sweep.stop h2 hi)) h3
  | readsBack hpc =>
    rw [hpc] at h2 h3
    exact hs.goto h2 h3
  | flushesL1 hpc =>
    rw [hpc] at h2 h3
    exact hs.goto h2 h3
  | @waits i hpc hi hcmd =>
    rw [hpc] at h2 h3
    exact hs.goto ⟨h2, Sweep.ahead h2 i hi (Nat.le_refl i), hcmd⟩ h3
  | @skips i hpc hi hcmd =>
    rw [hpc] at h2 h3
    have harmed : Armed b.Selects (k.l2 i) (s.l2 i) := Sweep.ahead h2 i hi (Nat.le_refl i)
    exact hs.goto (Sweep.skip h2 fun _ => harmed.flushed hcmd) h3
  | collectsEnd hpc hi =>
    rw [hpc] at h2 h3
    exact hs.afterPrivate (Sweep.stop h2 hi) h3
  | @doneL2 i hpc hdone =>
    rw [hpc] at h2 h3
    exact hs.goto ⟨h2.1, h2.2.1.done (hs.l2 i) hdone⟩ h3
  | @clearsL2 i hpc =>
    rw [hpc] at h2 h3
    exact ⟨hs.mode, sound_update hs.l2 (hs.l2 i).clear, hs.llc,
      Sweep.advance h2.1 (flushed_clear h2.2), h3⟩
  | locksEnd hpc hi =>
    rw [hpc] at h2 h3
    have hall : LlcFlushed b k.llc s.llc := Sweep.stop h3 hi
    exact hs.goto ⟨fun j hj => (h2 j hj).zero, fun _ _ _ => h2⟩
      ⟨fun j hj => (hall j hj).zero, fun _ _ _ => hall⟩
  | @commandsLlc i hpc hcmd =>
    rw [hpc] at h2 h3
    have hne : cmdLlc ≠ 0 := by decide
    refine ⟨hs.mode, hs.l2, sound_update hs.llc ((hs.llc i).command hcmd _), h2, h3.1.enter _, ?_⟩
    dsimp only
    rw [Function.update_self]
    exact (hs.llc i).armed hne
  | @inProgress i hpc hcmd =>
    rw [hpc] at h3
    exact absurd (h3.1.ahead i h3.2 (Nat.le_refl i)) hcmd
  | @doneLlc i hpc hdone =>
    rw [hpc] at h2 h3
    exact hs.goto h2 ⟨h3.1, h3.2.done (hs.llc i) hdone⟩
  | @clearsLlc i hpc =>
    rw [hpc] at h2 h3
    refine ⟨hs.mode, hs.l2, sound_update hs.llc (hs.llc i).clear, h2, ?_⟩
    have hclear := h3.1.change (i := i) (x := (s.llc i).clear)
      (fun hf => ⟨rfl, hf.finished⟩) (fun _ => rfl)
    apply hclear.leave
    intro _
    rw [Function.update_self]
    exact flushed_clear h3.2
  | again => exact hs

theorem FlushInv.locked {got : Bool} (hs : FlushInv b k s)
    (h : flushStep b s (.locked got) = some t) : FlushInv b k t := by
  have h2 := hs.l2Place
  have h3 := hs.llcPlace
  simp only [flushStep] at h
  split at h
  · next i hpc =>
    rw [hpc] at h2 h3
    split at h
    · next hi =>
      cases h
      cases got with
      | true => exact hs.goto h2 ⟨h3, hi⟩
      | false =>
        refine hs.goto ⟨fun j hj => (h2 j hj).zero, fun _ hrc => by cases hrc⟩
          ⟨?_, fun _ hrc => by cases hrc⟩
        intro j hj
        by_cases hji : j < i
        · exact (Sweep.passed h3 j hj hji).zero
        · exact Sweep.ahead h3 j hj (Nat.le_of_not_lt hji)
    · cases h
  · cases h

theorem FlushInv.step {e : FlushEvent} (hs : FlushInv b k s) (hcall : ∀ m, e ≠ .call m)
    (h : flushStep b s e = some t) : FlushInv b k t := by
  cases e with
  | call m => exact absurd rfl (hcall m)
  | cpu => exact hs.cpu h
  | locked got => exact hs.locked h
  | l2 i m =>
    obtain ⟨c, hc, rfl⟩ := Option.map_eq_some_iff.mp h
    exact hs.l2_move hc
  | llc i m =>
    obtain ⟨c, hc, rfl⟩ := Option.map_eq_some_iff.mp h
    exact hs.llc_move hc

theorem afterPrivate_idle {m : Coherence} (hm : ¬ m.value < Coherence.recall.value) :
    afterPrivate m = .idle (some (.ok ())) :=
  if_neg fun hlt => hm (Nat.lt_succ_of_lt hlt)

theorem Sound.remark {n : Nat} {c : Cache} (hs : Sound n c) : Sound c.begun c :=
  ⟨hs.done, hs.le, Nat.le_refl _⟩

theorem FlushInv.call {m : Coherence} (hs : FlushInv b k s)
    (h : flushStep b s (.call m) = some t) : FlushInv b t.marks t := by
  have h2 := hs.l2Place
  have h3 := hs.llcPlace
  simp only [flushStep] at h
  split at h
  · next rc hpc =>
    rw [hpc] at h2 h3
    cases h
    have hmarked : FlushInv b { s.marks with mode := m } { s with coherence := m, pc := .idle none } :=
      ⟨rfl, fun i => (hs.l2 i).remark, fun i => (hs.llc i).remark,
        ⟨h2.1, fun _ hrc => by cases hrc⟩, ⟨h3.1, fun _ hrc => by cases hrc⟩⟩
    refine hmarked.goto ?_ ?_
    · change L2Place b _ s.l2 m (flushEntry b m)
      unfold flushEntry
      split
      · next hr => exact ⟨h2.1, fun hno => by rw [hr] at hno; cases hno⟩
      · split
        · exact Sweep.start h2.1
        · next hm =>
          rw [afterPrivate_idle hm]
          exact ⟨h2.1, fun _ _ hlt => absurd hlt hm⟩
    · change LlcPlace b _ s.llc m (flushEntry b m)
      unfold flushEntry
      split
      · next hr => exact ⟨h3.1, fun hno => by rw [hr] at hno; cases hno⟩
      · split
        · exact h3.1
        · next hm =>
          rw [afterPrivate_idle hm]
          exact ⟨h3.1, fun _ _ hlt => absurd (Nat.lt_succ_of_lt hlt) hm⟩
  · cases h

end Steps

section Runs
variable {b : Build} {s₀ s₁ s : FlushState}

/-- The registers after a reset: no controller has been told anything. -/
structure FlushStart (s : FlushState) : Prop where
  pc : s.pc = .idle none
  l2 (i : Nat) : (s.l2 i).cmd = 0 ∧ done (s.l2 i).status = false ∧ (s.l2 i).finished ≤ (s.l2 i).begun
  llc (i : Nat) : (s.llc i).cmd = 0 ∧ done (s.llc i).status = false ∧
    (s.llc i).finished ≤ (s.llc i).begun

/-- Since `s₁` the caches that the mode asks for have finished a flush begun since then. -/
structure FlushedSince (b : Build) (mode : Coherence) (s₁ s : FlushState) : Prop where
  l2 : mode.value < Coherence.recall.value → ∀ i < b.l2s, b.Selects (s.l2 i) →
    (s₁.l2 i).begun < (s.l2 i).finished ∧ (s.l2 i).finished ≤ (s.l2 i).begun
  llc : mode.value < Coherence.llc.value → ∀ i < b.llcs,
    (s₁.llc i).begun < (s.llc i).finished ∧ (s.llc i).finished ≤ (s.llc i).begun

theorem FlushStart.inv (h : FlushStart s) : FlushInv b s.marks s where
  mode := rfl
  l2 i := ⟨fun hd => absurd hd (Bool.eq_false_iff.mp (h.l2 i).2.1), (h.l2 i).2.2, Nat.le_refl _⟩
  llc i := ⟨fun hd => absurd hd (Bool.eq_false_iff.mp (h.llc i).2.1), (h.llc i).2.2, Nat.le_refl _⟩
  l2Place := by
    rw [h.pc]
    exact ⟨fun i _ => (h.l2 i).1, fun _ hrc => by cases hrc⟩
  llcPlace := by
    rw [h.pc]
    exact ⟨fun i _ => (h.llc i).1, fun _ hrc => by cases hrc⟩

theorem flushInv_run {es : List FlushEvent} (h₀ : FlushStart s₀)
    (hrun : run (flushStep b) s₀ es = some s) : ∃ k, FlushInv b k s := by
  refine run_invariant (I := fun s => ∃ k, FlushInv b k s) ?_ ⟨_, h₀.inv⟩ hrun
  intro s e t hs he
  obtain ⟨k, hs⟩ := hs
  cases e with
  | call m => exact ⟨_, hs.call he⟩
  | cpu => exact ⟨k, hs.step (by simp) he⟩
  | locked got => exact ⟨k, hs.step (by simp) he⟩
  | l2 i m => exact ⟨k, hs.step (by simp) he⟩
  | llc i m => exact ⟨k, hs.step (by simp) he⟩

theorem FlushInv.run_call {k : Marks} {es : List FlushEvent} (hs : FlushInv b k s₁)
    (hcall : ∀ m, .call m ∉ es) (hrun : run (flushStep b) s₁ es = some s) : FlushInv b k s := by
  induction es generalizing s₁ with
  | nil =>
    cases hrun
    exact hs
  | cons e es ih =>
    obtain ⟨u, hu, hrest⟩ := run_cons.mp hrun
    have hfirst : ∀ m, e ≠ .call m := fun m he => hcall m (he ▸ List.mem_cons_self ..)
    exact ih (hs.step hfirst hu) (fun m hm => hcall m (List.mem_cons_of_mem _ hm)) hrest

theorem FlushInv.flushedSince (hs : FlushInv b s₁.marks s) (hb : b.riscv = false)
    (hpc : s.pc = .idle (some (.ok ()))) : FlushedSince b s₁.coherence s₁ s := by
  have h2 := hs.l2Place
  have h3 := hs.llcPlace
  rw [hpc, hs.mode] at h2 h3
  constructor
  · intro hm i hi hsel
    exact ⟨(h2.2 hb rfl hm i hi).finished hsel, (hs.l2 i).le⟩
  · intro hm i hi
    exact ⟨(h3.2 hb rfl hm i hi).finished trivial, (hs.llc i).le⟩

theorem call_coherence {t : FlushState} {m : Coherence} (h : flushStep b s (.call m) = some t) :
    t.coherence = m := by
  simp only [flushStep] at h
  split at h
  · cases h
    rfl
  · cases h

/-- In every state of every run the BUG_ON has not been reached, all command registers are
zero between two calls, and a call that has returned 0 has flushed the caches. -/
theorem esp_flush_completes (h₀ : FlushStart s₀) {es : List FlushEvent}
    (hrun : run (flushStep b) s₀ es = some s) :
    s.pc ≠ .bug ∧
      (∀ rc, s.pc = .idle rc → Idle s.l2 b.l2s ∧ Idle s.llc b.llcs) ∧
      (b.riscv = false → s.pc = .idle (some (.ok ())) → ∀ pre mode mid s₁,
        es = pre ++ .call mode :: mid → (∀ m, .call m ∉ mid) →
        run (flushStep b) s₀ (pre ++ [.call mode]) = some s₁ → FlushedSince b mode s₁ s) := by
  obtain ⟨k, hs⟩ := flushInv_run h₀ hrun
  refine ⟨?_, ?_, ?_⟩
  · intro hpc
    have h2 := hs.l2Place
    rw [hpc] at h2
    exact h2
  · intro rc hpc
    have h2 := hs.l2Place
    have h3 := hs.llcPlace
    rw [hpc] at h2 h3
    exact ⟨h2.1, h3.1⟩
  · intro hb hpc pre mode mid s₁ heq hmid hpre
    obtain ⟨u, hu, hcall⟩ := (run_append _ _).mp hpre
    obtain ⟨v, hv, hnil⟩ := run_cons.mp hcall
    cases hnil
    obtain ⟨ku, hku⟩ := flushInv_run h₀ hu
    have hmode : s₁.coherence = mode := call_coherence hv
    have hrest : run (flushStep b) s₁ mid = some s := by
      rw [heq] at hrun
      obtain ⟨w, hw, hrun⟩ := (run_append _ _).mp hrun
      obtain ⟨x, hx, hrun⟩ := run_cons.mp hrun
      rw [hu] at hw
      cases hw
      rw [hv] at hx
      cases hx
      exact hrun
    rw [← hmode]
    exact ((hku.call hv).run_call hmid hrest).flushedSince hb hpc

def coldCaches : FlushState where
  l2 i := ⟨0, if i = 0 then 0 else 0x10000000, 0, 0⟩
  llc _ := ⟨0, 0, 0, 0⟩
  coherence := .none
  pc := .idle none

theorem coldCaches_start : FlushStart coldCaches where
  pc := rfl
  l2 i := by
    refine ⟨rfl, ?_, Nat.le_refl _⟩
    change done (if i = 0 then 0 else 0x10000000) = false
    split
    · decide
    · decide
  llc i := by
    refine ⟨rfl, ?_, Nat.le_refl _⟩
    change done 0 = false
    decide

/-- A call that flushes the cache of CPU 0 and the LLC. -/
def oneFlush : List FlushEvent :=
  [.call .none, .cpu, .cpu, .cpu, .cpu, .cpu, .cpu, .l2 0 .finish, .l2 0 (.status 1), .cpu, .cpu,
    .cpu, .cpu, .locked true, .cpu, .llc 0 .finish, .llc 0 (.status 1), .cpu, .cpu, .cpu]

theorem esp_flush_completes_once : ∃ s, run (flushStep ⟨false, false, 2, 1⟩) coldCaches oneFlush =
    some s ∧ s.pc = .idle (some (.ok ())) ∧ Idle s.l2 2 ∧ Idle s.llc 1 ∧
      FlushedSince ⟨false, false, 2, 1⟩ .none (coldCaches.goto (.arm 0)) s := by
  have hend : (run (flushStep ⟨false, false, 2, 1⟩) coldCaches oneFlush).map FlushState.pc =
      some (.idle (some (.ok ()))) := by rfl
  obtain ⟨s, hrun, hpc⟩ := Option.map_eq_some_iff.mp hend
  have hall := esp_flush_completes coldCaches_start hrun
  obtain ⟨h2, h3⟩ := hall.2.1 _ hpc
  refine ⟨s, hrun, hpc, h2, h3, hall.2.2 rfl hpc [] .none oneFlush.tail _ rfl ?_ rfl⟩
  simp [oneFlush]

theorem riscv_flush_does_nothing : ¬ ∀ (b : Build) (s₀ s : FlushState) (es : List FlushEvent),
    FlushStart s₀ → run (flushStep b) s₀ es = some s → s.pc = .idle (some (.ok ())) →
      ∀ pre mode mid s₁, es = pre ++ .call mode :: mid → (∀ m, .call m ∉ mid) →
        run (flushStep b) s₀ (pre ++ [.call mode]) = some s₁ → FlushedSince b mode s₁ s := by
  intro h
  have hflushed := h ⟨true, false, 2, 1⟩ coldCaches _ [.call .none] coldCaches_start rfl rfl
    [] .none [] _ rfl (by simp) rfl
  have hlt := (hflushed.llc (by decide) 0 (by decide)).1
  exact absurd hlt (by decide)

end Runs

section Answer
variable {b : Build} {s t : FlushState}

def lockOutcomes : List FlushEvent → List Bool
  | [] => []
  | .locked got :: es => got :: lockOutcomes es
  | _ :: es => lockOutcomes es

/-- What the call will return if the locks still to be taken end like this. -/
def FlushState.answer (s : FlushState) (locks : List Bool) : Option (Except Errno Unit) :=
  match s.pc with
  | .idle rc => rc
  | .lock _ | .llc _ | .waitLlc _ | .clearLlc _ => some (espCacheFlush locks)
  | _ => some (if s.coherence.value < Coherence.llc.value then espCacheFlush locks else .ok ())

theorem answer_afterPrivate (s : FlushState) (locks : List Bool) :
    (s.goto (afterPrivate s.coherence)).answer locks =
      some (if s.coherence.value < Coherence.llc.value then espCacheFlush locks else .ok ()) := by
  unfold afterPrivate
  split
  · rfl
  · rfl

theorem answer_step {e : FlushEvent} {es : List FlushEvent} (hcall : ∀ m, e ≠ .call m)
    (hidle : ∀ rc, t.pc = .idle rc → lockOutcomes es = []) (h : flushStep b s e = some t) :
    s.answer (lockOutcomes (e :: es)) = t.answer (lockOutcomes es) := by
  cases e with
  | call m => exact absurd rfl (hcall m)
  | l2 i m =>
    obtain ⟨c, -, rfl⟩ := Option.map_eq_some_iff.mp h
    rfl
  | llc i m =>
    obtain ⟨c, -, rfl⟩ := Option.map_eq_some_iff.mp h
    rfl
  | locked got =>
    simp only [flushStep] at h
    split at h
    · next i hpc =>
      split at h
      · cases h
        rw [FlushState.answer, hpc]
        cases got with
        | true => rfl
        | false => rfl
      · cases h
    · cases h
  | cpu =>
    change s.answer (lockOutcomes es) = _
    cases flushCpu_move h with
    | again => rfl
    | locksEnd hpc hi =>
      rw [FlushState.answer, hpc, hidle _ rfl]
      rfl
    | collectsEnd hpc hi =>
      rw [FlushState.answer, hpc]
      exact (answer_afterPrivate s _).symm
    | busy hpc | commands hpc | passes hpc | armsEnd hpc | readsBack hpc | flushesL1 hpc | waits hpc
    | skips hpc | doneL2 hpc | clearsL2 hpc | commandsLlc hpc | inProgress hpc | doneLlc hpc
    | clearsLlc hpc =>
      rw [FlushState.answer, hpc]
      rfl

theorem idle_run {es : List FlushEvent} {rc : Option (Except Errno Unit)} (hpc : s.pc = .idle rc)
    (hcall : ∀ m, .call m ∉ es) (hrun : run (flushStep b) s es = some t) : lockOutcomes es = [] := by
  induction es generalizing s with
  | nil => rfl
  | cons e es ih =>
    obtain ⟨u, hu, hrest⟩ := run_cons.mp hrun
    have hmore : ∀ m, .call m ∉ es := fun m hm => hcall m (List.mem_cons_of_mem _ hm)
    cases e with
    | call m => exact absurd List.mem_cons_self (hcall m)
    | cpu => simp [flushStep, flushCpu, hpc] at hu
    | locked got => simp [flushStep, hpc] at hu
    | l2 i m =>
      obtain ⟨c, -, rfl⟩ := Option.map_eq_some_iff.mp hu
      exact @ih { s with l2 := Function.update s.l2 i c } hpc hmore hrest
    | llc i m =>
      obtain ⟨c, -, rfl⟩ := Option.map_eq_some_iff.mp hu
      exact @ih { s with llc := Function.update s.llc i c } hpc hmore hrest

theorem answer_run {es : List FlushEvent} {rc : Option (Except Errno Unit)}
    (hcall : ∀ m, .call m ∉ es) (hrun : run (flushStep b) s es = some t) (hpc : t.pc = .idle rc) :
    s.answer (lockOutcomes es) = rc := by
  induction es generalizing s with
  | nil =>
    cases hrun
    rw [FlushState.answer, hpc]
  | cons e es ih =>
    obtain ⟨u, hu, hrest⟩ := run_cons.mp hrun
    have hmore : ∀ m, .call m ∉ es := fun m hm => hcall m (List.mem_cons_of_mem _ hm)
    have hfirst : ∀ m, e ≠ .call m := fun m he => hcall m (he ▸ List.mem_cons_self)
    rw [answer_step hfirst (fun _ hidle => idle_run hidle hmore hrest) hu]
    exact ih hmore hrest

/-- A call of the machine that returns returns what espFlush says. -/
theorem esp_flush_answers {es : List FlushEvent} {mode : Coherence} {u : FlushState}
    {rc : Option (Except Errno Unit)} (hbegin : flushStep b s (.call mode) = some u)
    (hcall : ∀ m, .call m ∉ es) (hrun : run (flushStep b) u es = some t) (hpc : t.pc = .idle rc) :
    rc = some (espFlush b.riscv mode (lockOutcomes es)) := by
  rw [← answer_run hcall hrun hpc]
  simp only [flushStep] at hbegin
  split at hbegin
  · cases hbegin
    cases hr : b.riscv with
    | true => simp [FlushState.answer, flushEntry, espFlush, hr]
    | false =>
      by_cases hm : mode.value < Coherence.recall.value
      · simp [FlushState.answer, flushEntry, espFlush, hr, hm]
      · have hnot : ¬ mode.value < Coherence.llc.value := fun hlt => hm (Nat.lt_succ_of_lt hlt)
        simp [FlushState.answer, flushEntry, espFlush, hr, hm, hnot, afterPrivate]
  · cases hbegin

theorem esp_flush_answers_once : ∃ s,
    run (flushStep ⟨false, false, 2, 1⟩) coldCaches oneFlush = some s ∧
      s.pc = .idle (some (espFlush false .none [true])) := by
  have hend : (run (flushStep ⟨false, false, 2, 1⟩) coldCaches oneFlush).map FlushState.pc =
      some (.idle (some (.ok ()))) := by rfl
  obtain ⟨s, hrun, hpc⟩ := Option.map_eq_some_iff.mp hend
  obtain ⟨u, hbegin, hrest⟩ := run_cons.mp hrun
  have hanswer := esp_flush_answers hbegin (by simp) hrest hpc
  exact ⟨s, hrun, hpc.trans (congrArg FlushPc.idle hanswer)⟩

end Answer

end Invariant

end EspDrivers.Esp
