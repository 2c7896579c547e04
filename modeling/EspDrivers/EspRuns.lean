import EspDrivers.EspExits
import EspDrivers.EspMachine

/-! A run belongs to the access that started it, when an access obtains the device only
after the runs before it are over, and ESP_IOC_RUN stays out of the accesses. -/
namespace EspDrivers.Esp
open ContigAlloc (Desc Errno)
open Trace

variable {Arg : Type} {m : Module Arg} {s s' : Machine Arg} {l l' : Line} {t : Tid}
  {p : Pc Arg} {r : RunId}

section Conditions

/-- Between the wait for esp->lock and the end of the wait for the run. -/
def Pc.usesDevice : Pc Arg → Bool
  | .p2p .. | .config .. | .flush .. | .flushLlc .. | .clearErr .. | .reinit .. | .transfer ..
  | .write .. | .start .. | .wait .. | .readErr .. => true
  | _ => false

def Pc.holds (p : Pc Arg) : Bool :=
  p.usesDevice || match p with
    | .update .. | .unlock .. => true
    | _ => false

def Pc.locking : Pc Arg → Bool
  | .lock .. => true
  | _ => false

def Machine.unused (s : Machine Arg) : Bool :=
  match s.owner with
  | none => true
  | some t => !(s.pc t).usesDevice

/-- esp->lock is obtained when the device is quiet, ESP_IOC_RUN comes when no run is going
on and no access is at work with the device. -/
def Orderly (s : Machine Arg) : DeviceEvent Arg → Prop
  | .access t true => (s.pc t).locking = true → s.line.Quiet
  | .espIocRun _ => s.line.running = [] ∧ s.unused = true
  | _ => True

instance (s : Machine Arg) : DecidablePred (Orderly s)
  | .access t true => inferInstanceAs (Decidable ((s.pc t).locking = true → s.line.Quiet))
  | .espIocRun _ => inferInstanceAs (Decidable (s.line.running = [] ∧ s.unused = true))
  | .access _ false | .enter .. | .espIocFlush .. | .raise .. | .irq | .others _ => isTrue trivial

/-- The next step of the thread writes a configuration register, or 1 to CMD. -/
def Pc.programs : Pc Arg → Bool
  | .p2p _ _ (_ :: _) _ | .transfer .. | .write _ (_ :: _) | .start _ => true
  | _ => false

/-- An ioctl programs the device only when no run is going on. -/
def Clean (s : Machine Arg) : DeviceEvent Arg → Prop
  | .access t _ => (s.pc t).programs = true → s.line.running = []
  | .espIocRun _ => s.line.running = []
  | _ => True

instance (s : Machine Arg) : DecidablePred (Clean s)
  | .access t _ => inferInstanceAs (Decidable ((s.pc t).programs = true → s.line.running = []))
  | .espIocRun _ => inferInstanceAs (Decidable (s.line.running = []))
  | .enter .. | .espIocFlush .. | .raise .. | .irq | .others _ => isTrue trivial

/-- An access that has run the device returns 0 only after its own run has raised done. -/
def Own (s : Machine Arg) : Prop :=
  ∀ t r, s.pc t = .returned (some r) (.ok ()) → r ∈ s.line.raisedDone

end Conditions

section Invariant

/-- How far the run that a thread waits for has come, up to complete_all. -/
inductive Awaits (r : RunId) : Line → Prop where
  | going (done next) : Awaits r ⟨false, false, .idle, 0, [r], done, next⟩
  | raised (error done next) (h : error = false → r ∈ done) :
    Awaits r ⟨false, false, .idle, endStatus error, [], done, next⟩
  | clearing (error done next) (h : error = false → r ∈ done) :
    Awaits r ⟨false, false, .clearCmd error, endStatus error, [], done, next⟩
  | failing (done next) : Awaits r ⟨false, false, .setErr, 0, [], done, next⟩
  | completing (err done next) (h : err = false → r ∈ done) :
    Awaits r ⟨err, false, .complete, 0, [], done, next⟩
  | ended (err done next) (h : err = false → r ∈ done) :
    Awaits r ⟨err, true, .idle, 0, [], done, next⟩

def Earned (l : Line) (run : Option RunId) (rc : Except Errno Unit) : Prop :=
  ∀ r, run = some r → rc = .ok () → r ∈ l.raisedDone

def Relies (l : Line) : Pc Arg → Prop
  | .p2p .. | .config .. | .flush .. | .flushLlc .. | .clearErr .. => l.Quiet
  | .reinit .. => l.Quiet ∧ l.err = false
  | .transfer .. | .write .. | .start .. => l.Quiet ∧ l.err = false ∧ l.completion = false
  | .wait _ r => Awaits r l
  | .readErr _ r => l.Quiet ∧ (l.err = false → r ∈ l.raisedDone)
  | .update _ run rc | .unlock run rc | .returned run rc => Earned l run rc
  | .idle | .lock .. => True

structure Ordered (s : Machine Arg) : Prop where
  holder : ∀ t, (s.pc t).holds = true → s.owner = some t
  fits : ∀ t, Relies s.line (s.pc t)

theorem Pc.usesDevice_holds (h : p.usesDevice = true) : p.holds = true := by
  simp [Pc.holds, h]

theorem Relies.away (h : Relies l p) (hp : p.usesDevice = false)
    (hsub : ∀ r ∈ l.raisedDone, r ∈ l'.raisedDone) : Relies l' p := by
  cases p with
  | idle => trivial
  | lock => trivial
  | update arg run rc => exact fun r hr hrc => hsub r (h r hr hrc)
  | unlock run rc => exact fun r hr hrc => hsub r (h r hr hrc)
  | returned run rc => exact fun r hr hrc => hsub r (h r hr hrc)
  | _ => cases hp

theorem Line.Quiet.raise_absurd (h : l.Quiet) (hr : r ∈ l.running) : False := by
  rw [h.1] at hr
  cases hr

theorem Awaits.raise {q : RunId} {error : Bool} (h : Awaits r l) (hq : q ∈ l.running) :
    Awaits r (l.raise q error) := by
  cases h with
  | going done next =>
    have hqr : q = r := List.mem_singleton.mp hq
    subst hqr
    have hraise : Line.raise ⟨false, false, .idle, 0, [q], done, next⟩ q error =
        ⟨false, false, .idle, endStatus error, [], if error then done else q :: done, next⟩ := by
      simp [Line.raise]
    rw [hraise]
    apply Awaits.raised
    intro he
    simp [he]
  | _ => cases hq

theorem raisedDone_raise {q : RunId} {error : Bool} :
    ∀ r ∈ l.raisedDone, r ∈ (l.raise q error).raisedDone := by
  intro r hr
  cases error with
  | true => exact hr
  | false => exact List.mem_cons_of_mem q hr

theorem Relies.raise {q : RunId} {error : Bool} (h : Relies l p) (hq : q ∈ l.running) :
    Relies (l.raise q error) p := by
  cases hp : p.usesDevice with
  | false => exact h.away hp raisedDone_raise
  | true =>
    cases p with
    | wait arg r => exact Awaits.raise h hq
    | p2p => exact absurd hq h.raise_absurd
    | config => exact absurd hq h.raise_absurd
    | flush => exact absurd hq h.raise_absurd
    | flushLlc => exact absurd hq h.raise_absurd
    | clearErr => exact absurd hq h.raise_absurd
    | reinit => exact absurd hq h.1.raise_absurd
    | transfer => exact absurd hq h.1.raise_absurd
    | write => exact absurd hq h.1.raise_absurd
    | start => exact absurd hq h.1.raise_absurd
    | readErr => exact absurd hq h.1.raise_absurd
    | _ => cases hp

theorem Line.Quiet.handle (h : l.Quiet) : l.handle = l := by
  simp [Line.handle, h.2.1, h.2.2]

theorem Awaits.handle (h : Awaits r l) : Awaits r l.handle := by
  cases h with
  | going done next => simpa [Line.handle] using Awaits.going done next
  | raised error done next h =>
    have hnext := Awaits.clearing error done next h
    cases error with
    | true => simpa [Line.handle, endStatus] using hnext
    | false => simpa [Line.handle, endStatus] using hnext
  | clearing error done next h =>
    cases error with
    | true => exact Awaits.failing done next
    | false => exact Awaits.completing false done next h
  | failing done next => exact Awaits.completing true done next (fun he => by cases he)
  | completing err done next h => exact Awaits.ended err done next h
  | ended err done next h => simpa [Line.handle] using Awaits.ended err done next h

theorem raisedDone_handle : l.handle.raisedDone = l.raisedDone := by
  rw [Line.handle]
  split
  · split
    · rfl
    · split <;> rfl
  · rfl
  · rfl
  · rfl

theorem Relies.handle (h : Relies l p) : Relies l.handle p := by
  cases hp : p.usesDevice with
  | false => exact h.away hp (fun r hr => by rwa [raisedDone_handle])
  | true =>
    cases p with
    | wait arg r => exact Awaits.handle h
    | p2p => rwa [Line.Quiet.handle h]
    | config => rwa [Line.Quiet.handle h]
    | flush => rwa [Line.Quiet.handle h]
    | flushLlc => rwa [Line.Quiet.handle h]
    | clearErr => rwa [Line.Quiet.handle h]
    | reinit => rwa [Line.Quiet.handle h.1]
    | transfer => rwa [Line.Quiet.handle h.1]
    | write => rwa [Line.Quiet.handle h.1]
    | start => rwa [Line.Quiet.handle h.1]
    | readErr => rwa [Line.Quiet.handle h.1]
    | _ => cases hp

theorem Awaits.completed (h : Awaits r l) (hc : l.completion = true) :
    l.Quiet ∧ (l.err = false → r ∈ l.raisedDone) := by
  cases h with
  | ended err done next h => exact ⟨⟨rfl, rfl, rfl⟩, h⟩
  | _ => cases hc

theorem Awaits.launch (hq : l.Quiet) (he : l.err = false) (hc : l.completion = false) :
    Awaits l.next l.launch := by
  have hl : l.launch = ⟨false, false, .idle, 0, [l.next], l.raisedDone, l.next + 1⟩ := by
    simp [Line.launch, hq.1, hq.2.1, hq.2.2, he, hc]
  rw [hl]
  exact Awaits.going l.raisedDone (l.next + 1)

end Invariant

section Steps

theorem Ordered.alone (hs : Ordered s) {u : Tid} (ht : (s.pc t).holds = true)
    (hu : (s.pc u).holds = true) : u = t := by
  have hsome := (hs.holder u hu).symm.trans (hs.holder t ht)
  exact Option.some.inj hsome

theorem ordered_update (hpc : s'.pc = Function.update s.pc t p)
    (hhold : p.holds = true → s'.owner = some t)
    (hothers : ∀ u, u ≠ t → (s.pc u).holds = true → s'.owner = some u)
    (hfit : Relies s'.line p) (hrest : ∀ u, u ≠ t → Relies s'.line (s.pc u)) : Ordered s' := by
  constructor
  · intro u hu
    rw [hpc] at hu
    by_cases hut : u = t
    · subst hut
      rw [Function.update_self] at hu
      exact hhold hu
    · rw [Function.update_of_ne hut] at hu
      exact hothers u hut hu
  · intro u
    rw [hpc]
    by_cases hut : u = t
    · subst hut
      rwa [Function.update_self]
    · rw [Function.update_of_ne hut]
      exact hrest u hut

theorem Ordered.move (hs : Ordered s) (hline : s'.line = s.line) (howner : s'.owner = s.owner)
    (hpc : s'.pc = Function.update s.pc t p) (hhold : p.holds = true → (s.pc t).holds = true)
    (hfit : Relies s.line p) : Ordered s' := by
  rw [← hline] at hfit
  apply ordered_update hpc _ _ hfit
  · intro u _
    rw [hline]
    exact hs.fits u
  · intro hp
    rw [howner]
    exact hs.holder t (hhold hp)
  · intro u _ hu
    rw [howner]
    exact hs.holder u hu

theorem Ordered.act (hs : Ordered s) (huse : (s.pc t).usesDevice = true)
    (howner : s'.owner = s.owner) (hpc : s'.pc = Function.update s.pc t p)
    (hsub : ∀ r ∈ s.line.raisedDone, r ∈ s'.line.raisedDone) (hfit : Relies s'.line p) :
    Ordered s' := by
  have hhold := Pc.usesDevice_holds huse
  apply ordered_update hpc _ _ hfit
  · intro u hut
    apply (hs.fits u).away _ hsub
    cases hu : (s.pc u).usesDevice with
    | false => rfl
    | true => exact absurd (hs.alone hhold (Pc.usesDevice_holds hu)) hut
  · intro _
    rw [howner]
    exact hs.holder t hhold
  · intro u _ hu
    rw [howner]
    exact hs.holder u hu

theorem Ordered.take (hs : Ordered s) (hfree : s.owner = none) (hline : s'.line = s.line)
    (howner : s'.owner = some t) (hpc : s'.pc = Function.update s.pc t p)
    (hfit : Relies s.line p) : Ordered s' := by
  rw [← hline] at hfit
  apply ordered_update hpc (fun _ => howner) _ hfit
  · intro u _
    rw [hline]
    exact hs.fits u
  · intro u _ hu
    have hsome := hs.holder u hu
    rw [hfree] at hsome
    cases hsome

theorem Ordered.give (hs : Ordered s) (hhold : (s.pc t).holds = true) (hline : s'.line = s.line)
    (hpc : s'.pc = Function.update s.pc t p) (hp : p.holds = false)
    (hfit : Relies s.line p) : Ordered s' := by
  rw [← hline] at hfit
  apply ordered_update hpc _ _ hfit
  · intro u _
    rw [hline]
    exact hs.fits u
  · intro htrue
    rw [hp] at htrue
    cases htrue
  · intro u hut hu
    exact absurd (hs.alone hhold hu) hut

theorem Earned.none (l : Line) (rc : Except Errno Unit) : Earned l .none rc := by
  intro r hr
  cases hr

theorem Earned.error (l : Line) (run : Option RunId) (e : Errno) : Earned l run (.error e) := by
  intro r _ hrc
  cases hrc

theorem Ordered.access (hs : Ordered s) {ok : Bool} (hc : Orderly s (.access t ok))
    (h : accessStep m s t ok = some s') : Ordered s' := by
  have hfit := hs.fits t
  cases accessStep_move h with
  | lockFailed hpc => exact hs.move rfl rfl rfl (fun hp => by cases hp) (Earned.none _ _)
  | locked hpc hfree =>
    have hquiet : s.line.Quiet := hc (by rw [hpc]; rfl)
    exact hs.take hfree rfl rfl rfl hquiet
  | p2pWrites hpc =>
    rw [hpc] at hfit
    exact hs.move rfl rfl rfl (fun _ => by rw [hpc]; rfl) hfit
  | p2pFailed hpc => exact hs.move rfl rfl rfl (fun hp => by cases hp) (Earned.error _ _ _)
  | accepted hpc =>
    rw [hpc] at hfit
    refine hs.move rfl rfl rfl (fun _ => by rw [hpc]; rfl) ?_
    split <;> exact hfit
  | configFailed hpc => exact hs.move rfl rfl rfl (fun hp => by cases hp) (Earned.none _ _)
  | configured hpc hrun =>
    rw [hpc] at hfit
    exact hs.move rfl rfl rfl (fun _ => by rw [hpc]; rfl) hfit
  | privateFlushed hpc =>
    rw [hpc] at hfit
    exact hs.move rfl rfl rfl (fun _ => by rw [hpc]; rfl) hfit
  | flushFailed hpc hflush =>
    exact hs.move rfl rfl rfl (fun hp => by cases hp) (Earned.error _ _ _)
  | flushed hpc hflush =>
    rw [hpc] at hfit
    exact hs.move rfl rfl rfl (fun _ => by rw [hpc]; rfl) hfit
  | errCleared hpc =>
    rw [hpc] at hfit
    exact hs.act (by rw [hpc]; rfl) rfl rfl (fun r hr => hr) ⟨hfit, rfl⟩
  | reinited hpc =>
    rw [hpc] at hfit
    exact hs.act (by rw [hpc]; rfl) rfl rfl (fun r hr => hr) ⟨hfit.1, hfit.2, rfl⟩
  | transfers hpc =>
    rw [hpc] at hfit
    exact hs.move rfl rfl rfl (fun _ => by rw [hpc]; rfl) hfit
  | modeWritten hpc =>
    rw [hpc] at hfit
    exact hs.move rfl rfl rfl (fun _ => by rw [hpc]; rfl) hfit
  | writes hpc =>
    rw [hpc] at hfit
    exact hs.move rfl rfl rfl (fun _ => by rw [hpc]; rfl) hfit
  | prepared hpc =>
    rw [hpc] at hfit
    refine hs.move rfl rfl rfl (fun _ => by rw [hpc]; rfl) ?_
    split
    · exact hfit
    · exact Earned.none _ _
  | started hpc =>
    rw [hpc] at hfit
    exact hs.act (by rw [hpc]; rfl) rfl rfl (fun r hr => hr)
      (Awaits.launch hfit.1 hfit.2.1 hfit.2.2)
  | completed hpc hdone =>
    rw [hpc] at hfit
    exact hs.move rfl rfl rfl (fun _ => by rw [hpc]; rfl) (Awaits.completed hfit hdone)
  | interrupted hpc =>
    exact hs.move rfl rfl rfl (fun _ => by rw [hpc]; rfl) (Earned.error _ _ _)
  | errRead hpc =>
    rw [hpc] at hfit
    refine hs.move rfl rfl rfl (fun _ => by rw [hpc]; rfl) ?_
    intro q hq hrc
    cases hq
    split at hrc
    · cases hrc
    · next herr => exact hfit.2 (by simpa using herr)
  | notCharged hpc huses =>
    rw [hpc] at hfit
    exact hs.move rfl rfl rfl (fun _ => by rw [hpc]; rfl) hfit
  | updateFailed hpc huses =>
    exact hs.move rfl rfl rfl (fun hp => by cases hp) (Earned.error _ _ _)
  | updated hpc huses hupd =>
    rw [hpc] at hfit
    exact hs.move rfl rfl rfl (fun _ => by rw [hpc]; rfl) hfit
  | unlocked hpc =>
    rw [hpc] at hfit
    exact hs.give (by rw [hpc]; rfl) rfl rfl rfl hfit
  | left hpc => exact hs.move rfl rfl rfl (fun hp => by cases hp) trivial

theorem unused_away (hs : Ordered s) (hu : s.unused = true) (t : Tid) :
    (s.pc t).usesDevice = false := by
  cases huse : (s.pc t).usesDevice with
  | false => rfl
  | true =>
    have howner := hs.holder t (Pc.usesDevice_holds huse)
    rw [Machine.unused, howner] at hu
    simp [huse] at hu

theorem Ordered.step (hs : Ordered s) {e : DeviceEvent Arg} (hc : Orderly s e)
    (h : deviceStep m s e = some s') : Ordered s' := by
  cases e with
  | enter t arg contig =>
    simp only [deviceStep] at h
    split at h
    · split at h
      · cases h
        exact hs.move rfl rfl rfl (fun hp => by cases hp) trivial
      · cases h
    · cases h
  | access t ok => exact hs.access hc h
  | espIocRun t =>
    simp only [deviceStep] at h
    split at h
    · cases h
      exact ⟨hs.holder, fun u => (hs.fits u).away (unused_away hs hc.2 u) (fun r hr => hr)⟩
    · cases h
  | espIocFlush t coherence =>
    simp only [deviceStep] at h
    split at h
    · cases h
      exact ⟨hs.holder, hs.fits⟩
    · cases h
  | raise r error =>
    simp only [deviceStep] at h
    split at h
    · next hr =>
      cases h
      exact ⟨hs.holder, fun u => (hs.fits u).raise hr⟩
    · cases h
  | irq =>
    simp only [deviceStep] at h
    cases h
    split
    · exact ⟨hs.holder, fun u => (hs.fits u).handle⟩
    · exact ⟨hs.holder, fun u => (hs.fits u).handle⟩
  | others espStatus =>
    cases h
    exact ⟨hs.holder, hs.fits⟩

theorem Ordered.clean (hs : Ordered s) {e : DeviceEvent Arg} (hc : Orderly s e) : Clean s e := by
  cases e with
  | access t ok =>
    intro hp
    have hfit := hs.fits t
    cases hpc : s.pc t with
    | p2p =>
      rw [hpc] at hfit
      exact hfit.1
    | transfer =>
      rw [hpc] at hfit
      exact hfit.1.1
    | write =>
      rw [hpc] at hfit
      exact hfit.1.1
    | start =>
      rw [hpc] at hfit
      exact hfit.1.1
    | _ =>
      rw [hpc] at hp
      cases hp
  | espIocRun t => exact hc.1
  | _ => trivial

theorem Ordered.own (hs : Ordered s) : Own s := by
  intro t r hpc
  have hfit := hs.fits t
  rw [hpc] at hfit
  exact hfit r rfl rfl

theorem registered_ordered (iomem : Iomem) (fields : Fields) (espStatus : Status) :
    Ordered (registered iomem fields espStatus : Machine Arg) :=
  ⟨fun _ h => (by cases h), fun _ => trivial⟩

/-- In an orderly run the device is programmed only while it rests, and a result of 0
means that the access's own run has raised done. -/
theorem runs_belong (m : Module Arg) (iomem : Iomem) (fields : Fields) (espStatus : Status)
    (es : List (DeviceEvent Arg))
    (hc : Along (deviceStep m) Orderly (registered iomem fields espStatus) es) :
    Along (deviceStep m) Clean (registered iomem fields espStatus) es ∧
      Always (deviceStep m) Own (registered iomem fields espStatus) es := by
  have hkeep : ∀ (s : Machine Arg) e s', Ordered s → Orderly s e → deviceStep m s e = some s' →
      Ordered s' := fun _ _ _ hs hc h => hs.step hc h
  have hstart := @registered_ordered Arg iomem fields espStatus
  exact ⟨along_imp hkeep (fun _ _ hs hc => hs.clean hc) hstart hc,
    always_of_along hkeep (fun _ hs => hs.own) hstart hc⟩

end Steps

section Runs

def idleDevice : Machine Access := registered (fun _ => 0) ⟨.none, 0, .preferred, 0, 0, 0⟩ Status.zero

def untilWait (t : Tid) : List (DeviceEvent Access) :=
  .enter t (request 0 .none 0) oneChunk :: List.replicate 15 (.access t true)

def finish (r : RunId) : List (DeviceEvent Access) := [.raise r false, .irq, .irq, .irq]

def orderlyRun : List (DeviceEvent Access) :=
  untilWait 1 ++ finish 0 ++ List.replicate 4 (.access 1 true) ++
    (untilWait 2 ++ finish 1 ++ List.replicate 4 (.access 2 true))

theorem orderlyRun_belongs : Along (deviceStep plainModule) Clean idleDevice orderlyRun ∧
    Always (deviceStep plainModule) Own idleDevice orderlyRun :=
  runs_belong plainModule _ _ _ orderlyRun (by decide +kernel)

/-- The first access is interrupted in its wait; the end of its run then ends the wait of
the second one. -/
def interruptedRun : List (DeviceEvent Access) :=
  untilWait 1 ++ [.access 1 false, .access 1 true, .access 1 true] ++
    (untilWait 2 ++ finish 0 ++ List.replicate 4 (.access 2 true))

theorem interruptedRun_mixes : ¬ Along (deviceStep plainModule) Clean idleDevice interruptedRun ∧
    ∃ s, run (deviceStep plainModule) idleDevice interruptedRun = some s ∧
      s.pc 2 = .returned (some 1) (.ok ()) ∧ s.line.running = [1] ∧ s.line.raisedDone = [0] := by
  refine ⟨by decide +kernel, _, rfl, rfl, rfl, rfl⟩

end Runs

end EspDrivers.Esp
