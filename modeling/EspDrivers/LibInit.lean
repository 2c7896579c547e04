import EspDrivers.LibMappings

/-! contig_init of the library by many threads: the descriptor in `fd` is also the flag that
it is done, read without the lock and set before the size of a chunk is known. Each step of
a thread is one access to the static variables or one system call. -/
namespace EspDrivers.LibContig
open ContigAlloc Trace

section Model

abbrev Tid := Nat

inductive InitPc where
  | idle
  | test
  | opening
  | lock (localFd : Nat)
  | publish (localFd : Nat)
  | ioctl
  | store
  | unlock (ok : Bool)
  | returned (ok : Bool)
  | crashed
  deriving DecidableEq

/-- The static variables of lib.c; `stored` tells that some thread has stored chunk_size. -/
structure Statics where
  fd : Nat
  lock : Option Tid
  chunkLog : Nat
  chunkSize : Nat
  stored : Bool
  pc : Tid → InitPc

inductive LibCall where
  | alloc | allocPolicy | free | copy
  deriving DecidableEq

/-- The functions that go on with DIV_ROUND_UP(size, chunk_size). -/
def LibCall.divides : LibCall → Bool
  | .alloc => true
  | .allocPolicy => true
  | _ => false

/-- The steps in the order of the source, with the outcome of each system call; `use` is what
the caller of contig_init does next. -/
inductive InitEvent where
  | call (t : Tid)
  | test (t : Tid)
  | opens (t : Tid) (r : Option Nat)
  | lock (t : Tid)
  | publish (t : Tid) (closed : Bool)
  | ioctl (t : Tid) (ok : Bool)
  | store (t : Tid)
  | unlock (t : Tid)
  | use (t : Tid) (c : LibCall)

def Statics.goto (s : Statics) (t : Tid) (pc : InitPc) : Statics :=
  { s with pc := Function.update s.pc t pc }

/-- `log` is what the kernel reports for CONTIG_IOC_CHUNK_LOG. -/
def initStep (log : Nat) (s : Statics) : InitEvent → Option Statics
  | .call t =>
    match s.pc t with
    | .idle => some (s.goto t .test)
    | _ => none
  | .test t =>
    match s.pc t with
    | .test => some (s.goto t (if s.fd ≠ 0 then .returned true else .opening))
    | _ => none
  | .opens t r =>
    match s.pc t, r with
    | .opening, none => some (s.goto t (.returned false))
    | .opening, some localFd => some (s.goto t (.lock localFd))
    | _, _ => none
  | .lock t =>
    match s.pc t, s.lock with
    | .lock localFd, none => some ({ s with lock := some t }.goto t (.publish localFd))
    | _, _ => none
  | .publish t closed =>
    match s.pc t with
    | .publish localFd =>
      if s.fd ≠ 0 then some (s.goto t (if closed then .ioctl else .unlock false))
      else some ({ s with fd := localFd }.goto t .ioctl)
    | _ => none
  | .ioctl t ok =>
    match s.pc t with
    | .ioctl =>
      if ok then some ({ s with chunkLog := log }.goto t .store)
      else some (s.goto t (.unlock false))
    | _ => none
  | .store t =>
    match s.pc t with
    | .store =>
      some ({ s with chunkSize := chunkBytes s.chunkLog, stored := true }.goto t (.unlock true))
    | _ => none
  | .unlock t =>
    match s.pc t with
    | .unlock ok => some ({ s with lock := none }.goto t (.returned ok))
    | _ => none
  | .use t c =>
    match s.pc t with
    | .returned ok =>
      some (s.goto t (if ok && c.divides && s.chunkSize = 0 then .crashed else .idle))
    | _ => none

def Statics.start : Statics := ⟨0, none, 0, 0, false, fun _ => .idle⟩

/-- Where contig_init has returned 0 the size is the one of the kernel, and nobody has
divided by zero. -/
structure Initialised (log : Nat) (s : Statics) : Prop where
  size : ∀ t, s.pc t = .returned true → s.chunkLog = log ∧ s.chunkSize = 2 ^ log
  alive : ∀ t, s.pc t ≠ .crashed

/-- The flag is not seen before some thread has stored the size, and 1 << chunk_log fits an
int. -/
def InTime (log : Nat) (s : Statics) : InitEvent → Prop
  | .test t => s.pc t = .test → s.fd ≠ 0 → s.stored = true ∧ log ≤ 30
  | .unlock t => s.pc t = .unlock true → log ≤ 30
  | _ => True

instance (log : Nat) (s : Statics) : DecidablePred (InTime log s)
  | .test t => inferInstanceAs (Decidable (s.pc t = .test → s.fd ≠ 0 → s.stored = true ∧ log ≤ 30))
  | .unlock t => inferInstanceAs (Decidable (s.pc t = .unlock true → log ≤ 30))
  | .call _ | .opens .. | .lock _ | .publish .. | .ioctl .. | .store _ | .use .. => isTrue trivial

end Model

section Law
variable {log : Nat} {s s' : Statics} {e : InitEvent}

def Relies (log : Nat) (s : Statics) : InitPc → Prop
  | .store => s.chunkLog = log
  | .unlock true => s.stored = true
  | .returned true => s.stored = true ∧ log ≤ 30
  | .crashed => False
  | _ => True

structure InitOk (log : Nat) (s : Statics) : Prop where
  before : s.stored = false → s.chunkSize = 0
  after : s.stored = true → s.chunkLog = log ∧ s.chunkSize = chunkBytes log
  threads : ∀ t, Relies log s (s.pc t)

theorem Relies.mono {pc : InitPc} (h : Relies log s pc) (hst : s.stored = true → s'.stored = true)
    (hlog : s.chunkLog = log → s'.chunkLog = log) : Relies log s' pc := by
  cases pc with
  | store => exact hlog h
  | unlock ok =>
    cases ok with
    | true => exact hst h
    | false => trivial
  | returned ok =>
    cases ok with
    | true => exact ⟨hst h.1, h.2⟩
    | false => trivial
  | crashed => exact h
  | _ => trivial

theorem InitOk.goto {t : Tid} {pc : InitPc} (hs : InitOk log s) (hpc : s'.pc = s.pc)
    (hbefore : s'.stored = false → s'.chunkSize = 0)
    (hafter : s'.stored = true → s'.chunkLog = log ∧ s'.chunkSize = chunkBytes log)
    (hst : s.stored = true → s'.stored = true) (hlog : s.chunkLog = log → s'.chunkLog = log)
    (hr : Relies log s' pc) : InitOk log (s'.goto t pc) := by
  refine ⟨hbefore, hafter, ?_⟩
  intro u
  by_cases hu : u = t
  · subst hu
    change Relies log _ (Function.update s'.pc u pc u)
    rw [Function.update_self]
    exact hr
  · change Relies log _ (Function.update s'.pc t pc u)
    rw [Function.update_of_ne hu, hpc]
    exact (hs.threads u).mono hst hlog

theorem InitOk.move {t : Tid} {pc : InitPc} (hs : InitOk log s) (hr : Relies log s pc) :
    InitOk log (s.goto t pc) := hs.goto rfl hs.before hs.after id id hr

theorem InitOk.test {t : Tid} (hs : InitOk log s) (hc : InTime log s (.test t))
    (h : initStep log s (.test t) = some s') : InitOk log s' := by
  simp only [initStep] at h
  split at h
  · next hpc =>
    cases h
    by_cases hfd : s.fd ≠ 0
    · rw [if_pos hfd]
      exact hs.move (hc hpc hfd)
    · rw [if_neg hfd]
      exact hs.move trivial
  · cases h

/-- The thread that gets the lock publishes the file, or finds it published. -/
theorem InitOk.publish {t : Tid} {closed : Bool} (hs : InitOk log s)
    (h : initStep log s (.publish t closed) = some s') : InitOk log s' := by
  simp only [initStep] at h
  split at h
  · split at h
    · cases h
      cases closed with
      | true => exact hs.move trivial
      | false => exact hs.move trivial
    · cases h
      exact hs.goto rfl hs.before hs.after id id trivial
  · cases h

theorem InitOk.ioctl {t : Tid} {ok : Bool} (hs : InitOk log s)
    (h : initStep log s (.ioctl t ok) = some s') : InitOk log s' := by
  simp only [initStep] at h
  split at h
  · split at h
    · cases h
      exact hs.goto rfl hs.before (fun hst => ⟨rfl, (hs.after hst).2⟩) id (fun _ => rfl) rfl
    · cases h
      exact hs.move trivial
  · cases h

theorem InitOk.store {t : Tid} (hs : InitOk log s) (h : initStep log s (.store t) = some s') :
    InitOk log s' := by
  simp only [initStep] at h
  split at h
  · next hpc =>
    cases h
    have hlog : s.chunkLog = log := by
      have hr := hs.threads t
      rw [hpc] at hr
      exact hr
    refine hs.goto rfl ?_ ?_ (fun _ => rfl) id rfl
    · intro hst
      cases hst
    · intro _
      refine ⟨hlog, ?_⟩
      rw [← hlog]
  · cases h

theorem InitOk.unlock {t : Tid} (hs : InitOk log s) (hc : InTime log s (.unlock t))
    (h : initStep log s (.unlock t) = some s') : InitOk log s' := by
  simp only [initStep] at h
  split at h
  · next ok hpc =>
    cases h
    refine hs.goto rfl hs.before hs.after id id ?_
    cases ok with
    | false => trivial
    | true =>
      have hr := hs.threads t
      rw [hpc] at hr
      exact ⟨hr, hc hpc⟩
  · cases h

theorem InitOk.use {t : Tid} {c : LibCall} (hs : InitOk log s)
    (h : initStep log s (.use t c) = some s') : InitOk log s' := by
  simp only [initStep] at h
  split at h
  · next ok hpc =>
    cases h
    have hnot : ¬ (ok && c.divides && decide (s.chunkSize = 0)) = true := by
      intro hand
      simp only [Bool.and_eq_true, decide_eq_true_eq] at hand
      obtain ⟨⟨hok, -⟩, hzero⟩ := hand
      have hr := hs.threads t
      rw [hpc, hok] at hr
      have hsize := (hs.after hr.1).2
      rw [chunkBytes_small hr.2, hzero] at hsize
      exact (Nat.two_pow_pos log).ne hsize
    rw [if_neg hnot]
    exact hs.move trivial
  · cases h

theorem InitOk.step (hs : InitOk log s) (hc : InTime log s e) (h : initStep log s e = some s') :
    InitOk log s' := by
  cases e with
  | call t =>
    simp only [initStep] at h
    split at h
    · cases h
      exact hs.move trivial
    · cases h
  | test t => exact hs.test hc h
  | opens t r =>
    simp only [initStep] at h
    split at h
    · cases h
      exact hs.move trivial
    · cases h
      exact hs.move trivial
    · cases h
  | lock t =>
    simp only [initStep] at h
    split at h
    · cases h
      exact hs.goto rfl hs.before hs.after id id trivial
    · cases h
  | publish t closed => exact hs.publish h
  | ioctl t ok => exact hs.ioctl h
  | store t => exact hs.store h
  | unlock t => exact hs.unlock hc h
  | use t c => exact hs.use h

theorem InitOk.initialised (hs : InitOk log s) : Initialised log s := by
  refine ⟨?_, ?_⟩
  · intro t ht
    have hr := hs.threads t
    rw [ht] at hr
    obtain ⟨hlog, hsize⟩ := hs.after hr.1
    exact ⟨hlog, hsize.trans (chunkBytes_small hr.2)⟩
  · intro t ht
    have hr := hs.threads t
    rw [ht] at hr
    exact hr

/-- The size of a chunk of 2 GiB has the sign bit of an int set, and its extension. -/
theorem chunkBytes_large (hlog : log < 32) (hle : ¬ log ≤ 30) : chunkBytes log ≠ 2 ^ log := by
  have heq : log = 31 := by omega
  rw [heq]
  decide

theorem InitOk.breaks (hlog : log < 32) (hs : InitOk log s) (hc : ¬ InTime log s e)
    (h : initStep log s e = some s') : ¬ Initialised log s' := by
  intro hinit
  cases e with
  | test t =>
    simp only [InTime, not_forall] at hc
    obtain ⟨hpc, hfd, hlate⟩ := hc
    simp only [initStep, hpc, if_pos hfd, Option.some.injEq] at h
    subst h
    have hsize := (hinit.size t (Function.update_self ..)).2
    change s.chunkSize = 2 ^ log at hsize
    by_cases hst : s.stored = true
    · rw [(hs.after hst).2] at hsize
      exact chunkBytes_large hlog (fun hle => hlate ⟨hst, hle⟩) hsize
    · rw [hs.before (by simpa using hst)] at hsize
      exact (Nat.two_pow_pos log).ne hsize
  | unlock t =>
    simp only [InTime, not_forall] at hc
    obtain ⟨hpc, hle⟩ := hc
    simp only [initStep, hpc, Option.some.injEq] at h
    subst h
    have hsize := (hinit.size t (Function.update_self ..)).2
    change s.chunkSize = 2 ^ log at hsize
    have hr := hs.threads t
    rw [hpc] at hr
    rw [(hs.after hr).2] at hsize
    exact chunkBytes_large hlog hle hsize
  | _ => exact hc trivial

theorem initOk_start (log : Nat) : InitOk log Statics.start := by
  refine ⟨fun _ => rfl, ?_, fun _ => trivial⟩
  intro hst
  cases hst

/-- Over every interleaving contig_init is all or nothing exactly when nobody sees the flag
before the size is stored, and chunk_log is at most 30 wherever it returns 0. -/
theorem initialised_iff_inTime (hlog : log < 32) {es : List InitEvent}
    (hr : run (initStep log) Statics.start es = some s) :
    Always (initStep log) (Initialised log) Statics.start es ↔
      Along (initStep log) (InTime log) Statics.start es :=
  always_iff_along (fun _ _ _ hs hc h => hs.step hc h) (fun _ _ _ hs hc h => hs.breaks hlog hc h)
    (fun _ hs => hs.initialised) (initOk_start log) hr

end Law

section Alone

end Alone

section Runs

/-- Two first calls race: thread 2 is past the test when thread 1 publishes its descriptor. -/
def racingFirstCalls : List InitEvent :=
  [.call 1, .call 2, .test 1, .test 2, .opens 1 (some 3), .opens 2 (some 4), .lock 1,
    .publish 1 true, .ioctl 1 true, .store 1, .unlock 1, .lock 2, .publish 2 true, .use 1 .alloc,
    .ioctl 2 true, .store 2, .unlock 2, .use 2 .allocPolicy]

theorem racing_first_calls_initialised :
    Always (initStep 20) (Initialised 20) Statics.start racingFirstCalls := by
  have hsome : (run (initStep 20) Statics.start racingFirstCalls).isSome = true := by decide +kernel
  obtain ⟨s, hr⟩ := Option.isSome_iff_exists.mp hsome
  exact (initialised_iff_inTime (by decide) hr).mpr (by decide +kernel)

/-- CONTIG_IOC_CHUNK_LOG fails in the first call, and the second one finds the flag. -/
def failThenRetry : List InitEvent :=
  [.call 1, .test 1, .opens 1 (some 3), .lock 1, .publish 1 true, .ioctl 1 false, .unlock 1,
    .use 1 .alloc, .call 1, .test 1, .use 1 .alloc]

theorem retry_divides_by_zero : ∃ s, run (initStep 20) Statics.start failThenRetry = some s ∧
    s.chunkSize = 0 ∧ s.pc 1 = .crashed ∧
    ¬ Always (initStep 20) (Initialised 20) Statics.start failThenRetry := by
  have h : ∃ s, run (initStep 20) Statics.start failThenRetry = some s ∧ s.chunkSize = 0 ∧
      s.pc 1 = .crashed := ⟨_, rfl, rfl, rfl⟩
  obtain ⟨s, hr, hsize, hpc⟩ := h
  refine ⟨s, hr, hsize, hpc, ?_⟩
  intro hall
  exact (hall failThenRetry [] (by simp) s hr).alive 1 hpc

end Runs

end EspDrivers.LibContig
