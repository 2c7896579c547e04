import EspDrivers.Trace

/-! esp_run of libesp: it opens the devices of a configuration, creates a thread for each
accelerator that is to run, and joins the threads and closes the devices again. The threads run
beside it. -/
namespace EspDrivers.LibEsp
open Trace

section Model

/-- enum esp_accelerator_type, and the values that it has no name for. -/
inductive AcceleratorType
  | mac
  | fftaccelerator
  | adderaccelerator
  | fft
  | adder
  | counterAccelerator
  | dummy
  | sort
  | spmv
  | synth
  | visionchip
  | vitbfly2
  | other (value : Nat)

/-- The switches of esp_config and of accelerator_thread have a case for the type. -/
def AcceleratorType.supported : AcceleratorType → Bool
  | .other _ => false
  | _ => true

/-- What the program sets in an esp_thread_info_t. -/
structure ThreadInfo where
  run : Bool
  devname : String
  type : AcceleratorType

/-- What esp_prepare sets in the descriptor, with the handle by its value. -/
structure EspAccess where
  contig : Nat
  run : Bool

def espPrepare (contig : Nat) (_ : EspAccess) : EspAccess := ⟨contig, true⟩

/-- The handle of the memory, and what open and pthread_create answer for the entries. -/
structure Env where
  contig : Nat
  opens : Nat → Bool
  creates : Nat → Bool

/-- Where esp_run is: in esp_config, in one of its loops, in the last loop behind pthread_join, or
at its end, which is the one of the whole program after die. -/
inductive Pc
  | config
  | opening (i : Nat)
  | creating (i : Nat)
  | joining (i : Nat)
  | closing (i : Nat)
  | returned
  | died
  deriving DecidableEq

inductive Status
  | absent
  | running
  | finished
  deriving DecidableEq

/-- The calls. A descriptor has the entry for which it was opened, and no descriptor is closed
before all are open; a join has the entry whose place in `thread` it takes. -/
inductive Call
  | opened (i : Nat)
  | created (i : Nat)
  | invoked (i : Nat)
  | joined (i : Nat)
  | closed (i : Nat)
  | contigFree
  deriving DecidableEq

structure Sys where
  pc : Pc
  esp : Nat → EspAccess
  status : Nat → Status
  log : List Call

/-- Which thread takes the next step: the one of esp_run, or the one created for an entry. -/
inductive Event
  | main
  | thread (i : Nat)

variable (cfg : List ThreadInfo) (env : Env)

/-- The descriptors after esp_config, which dies at a type that it does not know. -/
def espConfig (esp : Nat → EspAccess) : Option (Nat → EspAccess) :=
  if ∀ info ∈ cfg, info.run → info.type.supported then
    some fun i => match cfg[i]? with
      | some info => if info.run then espPrepare env.contig (esp i) else esp i
      | none => esp i
  else none

def Sys.die (s : Sys) : Sys := { s with pc := .died, log := s.log ++ [.contigFree] }

def stepMain (s : Sys) : Option Sys :=
  match s.pc with
  | .config => some <| match espConfig cfg env s.esp with
    | some esp => { s with pc := .opening 0, esp := esp }
    | none => s.die
  | .opening i => some <| match cfg[i]? with
    | some info =>
      if info.devname.utf8ByteSize > 64 then s.die
      else if env.opens i then { s with pc := .opening (i + 1), log := s.log ++ [.opened i] }
      else s.die
    | none => { s with pc := .creating 0 }
  | .creating i => some <| match cfg[i]? with
    | some info =>
      if info.run && env.creates i then
        { s with
          pc := .creating (i + 1), status := Function.update s.status i .running,
          log := s.log ++ [.created i] }
      else { s with pc := .creating (i + 1) }
    | none => { s with pc := .joining 0 }
  | .joining i => match cfg[i]? with
    | some info =>
      if info.run then
        -- without a thread the call is made with what malloc has left there
        if s.status i = .running then none
        else some { s with pc := .closing i, log := s.log ++ [.joined i] }
      else some { s with pc := .joining (i + 1) }
    | none => some { s with pc := .returned }
  | .closing i => some { s with pc := .joining (i + 1), log := s.log ++ [.closed i] }
  | .returned => none
  | .died => none

def stepThread (s : Sys) (i : Nat) : Option Sys :=
  match cfg[i]?, s.status i with
  | some info, .running => some { s with
      status := Function.update s.status i .finished,
      log := s.log ++ if info.type.supported then [.invoked i] else [] }
  | _, _ => none

def step (s : Sys) : Event → Option Sys
  | .main => stepMain cfg env s
  | .thread i => stepThread cfg s i

def start (esp : Nat → EspAccess) : Sys := ⟨.config, esp, fun _ => .absent, []⟩

/-- The calls belong together: what was created was joined and made its one ioctl, and what was
opened was closed. -/
def Clean (log : List Call) : Prop :=
  ∀ i, log.count (.joined i) = log.count (.created i) ∧
    log.count (.invoked i) = log.count (.created i) ∧
    log.count (.closed i) = log.count (.opened i)

/-- The types are supported, and the devices can be opened by their names. -/
structure Usable (cfg : List ThreadInfo) (env : Env) : Prop where
  supported : ∀ info ∈ cfg, info.type.supported = true
  named : ∀ info ∈ cfg, info.devname.utf8ByteSize ≤ 64
  opens : ∀ i < cfg.length, env.opens i = true

end Model

section Books
variable {cfg : List ThreadInfo} {env : Env} {s t : Sys} {i : Nat}

def Pc.openedTo (n : Nat) : Pc → Nat
  | .config | .died => 0
  | .opening i => i
  | _ => n

def Pc.createdTo (n : Nat) : Pc → Nat
  | .config | .died | .opening _ => 0
  | .creating i => i
  | _ => n

def Pc.joinedTo (n : Nat) : Pc → Nat
  | .joining i => i
  | .closing i => i + 1
  | .returned => n
  | _ => 0

def Pc.closedTo (n : Nat) : Pc → Nat
  | .joining i | .closing i => i
  | .returned => n
  | _ => 0

def runs (cfg : List ThreadInfo) (i : Nat) : Bool :=
  match cfg[i]? with
  | some info => info.run
  | none => false

/-- The calls of each entry, by how far the loops have come. -/
structure Books (cfg : List ThreadInfo) (env : Env) (s : Sys) : Prop where
  alive : s.pc ≠ .died
  opened : ∀ i, s.log.count (.opened i) = if i < s.pc.openedTo cfg.length then 1 else 0
  created : ∀ i, s.log.count (.created i) =
    if i < s.pc.createdTo cfg.length ∧ runs cfg i = true ∧ env.creates i = true then 1 else 0
  invoked : ∀ i, s.log.count (.invoked i) = if s.status i = .finished then 1 else 0
  joined : ∀ i, s.log.count (.joined i) =
    if i < s.pc.joinedTo cfg.length ∧ runs cfg i = true then 1 else 0
  closed : ∀ i, s.log.count (.closed i) =
    if i < s.pc.closedTo cfg.length ∧ runs cfg i = true then 1 else 0
  status : ∀ i, s.status i = .absent ↔ s.log.count (.created i) = 0
  waited : ∀ i, i < s.pc.joinedTo cfg.length → s.status i ≠ .running
  place : s.pc.openedTo cfg.length ≤ cfg.length ∧ s.pc.createdTo cfg.length ≤ cfg.length ∧
    s.pc.joinedTo cfg.length ≤ cfg.length
  closing : ∀ i, s.pc = .closing i → runs cfg i = true

theorem count_snoc (log : List Call) (a b : Call) :
    (log ++ [a]).count b = log.count b + if a = b then 1 else 0 := by
  rw [List.count_append, List.count_singleton]
  simp

theorem count_other (log : List Call) {a b : Call} (h : a ≠ b) :
    (log ++ [a]).count b = log.count b := by
  rw [count_snoc, if_neg h, Nat.add_zero]

theorem book_other {log : List Call} {a : Call} {b : Nat → Call} {f : Nat → Nat}
    (h : ∀ j, log.count (b j) = f j) (hne : ∀ j, a ≠ b j) (j : Nat) :
    (log ++ [a]).count (b j) = f j := by
  rw [count_other _ (hne j)]
  exact h j

theorem book_next {log : List Call} {b : Nat → Call} {P : Nat → Prop} [DecidablePred P]
    (h : ∀ j, log.count (b j) = if j < i ∧ P j then 1 else 0)
    (hinj : Function.Injective b) (hi : P i) (j : Nat) :
    (log ++ [b i]).count (b j) = if j < i + 1 ∧ P j then 1 else 0 := by
  rw [count_snoc, h]
  by_cases hij : i = j
  · subst hij
    simp [hi]
  · have hne : b i ≠ b j := fun heq => hij (hinj heq)
    have hlt : j < i + 1 ↔ j < i := by omega
    simp [hne, hlt]

theorem books_start (cfg : List ThreadInfo) (env : Env) (esp : Nat → EspAccess) :
    Books cfg env (start esp) := by
  constructor <;> simp [start, Pc.openedTo, Pc.createdTo, Pc.joinedTo, Pc.closedTo]

theorem runs_of_some {info : ThreadInfo} (h : cfg[i]? = some info) : runs cfg i = info.run := by
  rw [runs, h]

theorem lt_of_some {info : ThreadInfo} (h : cfg[i]? = some info) : i < cfg.length :=
  (List.getElem?_eq_some_iff.mp h).1

theorem le_of_none (h : cfg[i]? = none) : cfg.length ≤ i := List.getElem?_eq_none_iff.mp h

theorem Books.absent (h : Books cfg env s) (hnone : runs cfg i = false ∨ env.creates i = false) :
    s.status i = .absent := by
  rw [h.status, h.created, if_neg]
  intro hmade
  cases hnone with
  | inl hidle => rw [hidle] at hmade; exact Bool.false_ne_true hmade.2.1
  | inr hfail => rw [hfail] at hmade; exact Bool.false_ne_true hmade.2.2

theorem Books.thread (h : Books cfg env s) (hu : Usable cfg env)
    (hstep : stepThread cfg s i = some t) : Books cfg env t := by
  rw [stepThread] at hstep
  split at hstep
  · next info hinfo hrunning =>
    obtain rfl := Option.some.inj hstep
    rw [if_pos (hu.supported info (List.mem_of_getElem? hinfo))]
    constructor
    · exact h.alive
    · intro j
      simpa [count_snoc] using h.opened j
    · intro j
      simpa [count_snoc] using h.created j
    · intro j
      have hj := h.invoked j
      by_cases hij : i = j
      · subst hij
        simpa [count_snoc, hrunning] using hj
      · have hji : j ≠ i := Ne.symm hij
        simpa [count_snoc, hij, hji] using hj
    · intro j
      simpa [count_snoc] using h.joined j
    · intro j
      simpa [count_snoc] using h.closed j
    · intro j
      have hj := h.status j
      by_cases hij : j = i
      · subst hij
        simpa [count_snoc, hrunning] using hj
      · simpa [count_snoc, hij] using hj
    · intro j hlt
      by_cases hij : j = i
      · subst hij
        simp
      · simpa [hij] using h.waited j hlt
    · exact h.place
    · exact h.closing
  · cases hstep

theorem Books.move (h : Books cfg env s) {pc : Pc} (esp : Nat → EspAccess) (halive : pc ≠ .died)
    (hopened : pc.openedTo cfg.length = s.pc.openedTo cfg.length)
    (hcreated : ∀ j, runs cfg j = true →
      (j < pc.createdTo cfg.length ↔ j < s.pc.createdTo cfg.length) ∨ env.creates j = false)
    (hjoined : ∀ j, runs cfg j = true →
      (j < pc.joinedTo cfg.length ↔ j < s.pc.joinedTo cfg.length))
    (hclosed : ∀ j, runs cfg j = true →
      (j < pc.closedTo cfg.length ↔ j < s.pc.closedTo cfg.length))
    (hplace : pc.createdTo cfg.length ≤ cfg.length ∧ pc.joinedTo cfg.length ≤ cfg.length)
    (hclosing : ∀ j, pc ≠ .closing j) : Books cfg env { s with pc := pc, esp := esp } := by
  have hcreatedBook : ∀ j, s.log.count (.created j) =
      if j < pc.createdTo cfg.length ∧ runs cfg j = true ∧ env.creates j = true then 1 else 0 := by
    intro j
    rw [h.created]
    refine if_congr (and_congr_left ?_) rfl rfl
    intro hmade
    cases hcreated j hmade.1 with
    | inl hsame => exact hsame.symm
    | inr hfail => rw [hfail] at hmade; exact absurd hmade.2 Bool.false_ne_true
  constructor
  · exact halive
  · intro j
    rw [hopened]
    exact h.opened j
  · exact hcreatedBook
  · exact h.invoked
  · intro j
    rw [h.joined]
    exact if_congr (and_congr_left fun hrun => (hjoined j hrun).symm) rfl rfl
  · intro j
    rw [h.closed]
    exact if_congr (and_congr_left fun hrun => (hclosed j hrun).symm) rfl rfl
  · exact h.status
  · intro j hlt
    cases hrun : runs cfg j with
    | true => exact h.waited j ((hjoined j hrun).mp hlt)
    | false =>
      have habsent := h.absent (Or.inl hrun)
      intro hrunning
      exact absurd (habsent.symm.trans hrunning) (by decide)
  · exact ⟨hopened ▸ h.place.1, hplace⟩
  · intro j hj
    exact absurd hj (hclosing j)

theorem Books.open (h : Books cfg env s) (hpc : s.pc = .opening i) (hi : i < cfg.length) :
    Books cfg env { s with pc := .opening (i + 1), log := s.log ++ [.opened i] } := by
  have hopened := h.opened
  have hcreated := h.created
  have hjoined := h.joined
  have hclosed := h.closed
  rw [hpc] at hopened hcreated hjoined hclosed
  constructor
  · exact Pc.noConfusion
  · intro j
    have hbook : ∀ j, s.log.count (.opened j) = if j < i ∧ True then 1 else 0 := by
      intro j
      rw [hopened]
      exact if_congr (and_iff_left trivial).symm rfl rfl
    rw [book_next hbook (fun _ _ => Call.opened.inj) trivial]
    exact if_congr (and_iff_left trivial) rfl rfl
  · exact book_other hcreated fun _ => Call.noConfusion
  · exact book_other h.invoked fun _ => Call.noConfusion
  · exact book_other hjoined fun _ => Call.noConfusion
  · exact book_other hclosed fun _ => Call.noConfusion
  · intro j
    rw [count_other _ Call.noConfusion]
    exact h.status j
  · intro j hlt
    cases hlt
  · exact ⟨hi, Nat.zero_le _, Nat.zero_le _⟩
  · intro j hj
    cases hj

theorem Books.create (h : Books cfg env s) (hpc : s.pc = .creating i) (hi : i < cfg.length)
    (hrun : runs cfg i = true) (hcreates : env.creates i = true) :
    Books cfg env { s with
      pc := .creating (i + 1), status := Function.update s.status i .running,
      log := s.log ++ [.created i] } := by
  have hopened := h.opened
  have hcreated := h.created
  have hjoined := h.joined
  have hclosed := h.closed
  rw [hpc] at hopened hcreated hjoined hclosed
  have habsent : s.status i = .absent := by
    rw [h.status, hcreated]
    exact if_neg fun hmade => Nat.lt_irrefl i hmade.1
  constructor
  · exact Pc.noConfusion
  · exact book_other hopened fun _ => Call.noConfusion
  · exact book_next hcreated (fun _ _ => Call.created.inj) ⟨hrun, hcreates⟩
  · intro j
    have hj := h.invoked j
    by_cases hij : j = i
    · subst hij
      simpa [count_snoc, habsent] using hj
    · simpa [count_snoc, hij] using hj
  · exact book_other hjoined fun _ => Call.noConfusion
  · exact book_other hclosed fun _ => Call.noConfusion
  · intro j
    by_cases hij : j = i
    · subst hij
      simp
    · have hji : i ≠ j := Ne.symm hij
      simpa [count_snoc, hij, hji] using h.status j
  · intro j hlt
    cases hlt
  · exact ⟨le_rfl, hi, Nat.zero_le _⟩
  · intro j hj
    cases hj

theorem Books.join (h : Books cfg env s) (hpc : s.pc = .joining i) (hi : i < cfg.length)
    (hrun : runs cfg i = true) (hended : s.status i ≠ .running) :
    Books cfg env { s with pc := .closing i, log := s.log ++ [.joined i] } := by
  have hopened := h.opened
  have hcreated := h.created
  have hjoined := h.joined
  have hclosed := h.closed
  have hwaited := h.waited
  rw [hpc] at hopened hcreated hjoined hclosed hwaited
  constructor
  · exact Pc.noConfusion
  · exact book_other hopened fun _ => Call.noConfusion
  · exact book_other hcreated fun _ => Call.noConfusion
  · exact book_other h.invoked fun _ => Call.noConfusion
  · exact book_next hjoined (fun _ _ => Call.joined.inj) hrun
  · exact book_other hclosed fun _ => Call.noConfusion
  · intro j
    rw [count_other _ Call.noConfusion]
    exact h.status j
  · intro j hlt
    by_cases hij : j = i
    · exact hij ▸ hended
    · have hlt' : j < i + 1 := hlt
      exact hwaited j (Nat.lt_of_le_of_ne (Nat.lt_succ_iff.mp hlt') hij)
  · exact ⟨le_rfl, le_rfl, hi⟩
  · intro j hj
    cases hj
    exact hrun

theorem Books.close (h : Books cfg env s) (hpc : s.pc = .closing i) :
    Books cfg env { s with pc := .joining (i + 1), log := s.log ++ [.closed i] } := by
  have hrun := h.closing i hpc
  have hopened := h.opened
  have hcreated := h.created
  have hjoined := h.joined
  have hclosed := h.closed
  have hwaited := h.waited
  have hplace := h.place
  rw [hpc] at hopened hcreated hjoined hclosed hwaited hplace
  constructor
  · exact Pc.noConfusion
  · exact book_other hopened fun _ => Call.noConfusion
  · exact book_other hcreated fun _ => Call.noConfusion
  · exact book_other h.invoked fun _ => Call.noConfusion
  · exact book_other hjoined fun _ => Call.noConfusion
  · exact book_next hclosed (fun _ _ => Call.closed.inj) hrun
  · intro j
    rw [count_other _ Call.noConfusion]
    exact h.status j
  · exact hwaited
  · exact ⟨le_rfl, le_rfl, hplace.2.2⟩
  · intro j hj
    cases hj

theorem lt_succ_of_runs (hidle : runs cfg i = false) {j : Nat} (hrun : runs cfg j = true) :
    j < i + 1 ↔ j < i := by
  have hne : j ≠ i := by
    intro heq
    rw [heq, hidle] at hrun
    exact Bool.false_ne_true hrun
  omega

theorem Books.main_opening (h : Books cfg env s) (hu : Usable cfg env) (hpc : s.pc = .opening i)
    (hstep : stepMain cfg env s = some t) : Books cfg env t := by
  have hplace := h.place
  rw [hpc] at hplace
  rw [stepMain, hpc] at hstep
  obtain rfl := Option.some.inj hstep
  split
  · next info hinfo =>
    have hi := lt_of_some hinfo
    have hnamed := hu.named info (List.mem_of_getElem? hinfo)
    rw [if_neg (Nat.not_lt.mpr hnamed), if_pos (hu.opens i hi)]
    exact h.open hpc hi
  · next hend =>
    have hall : cfg.length = i := Nat.le_antisymm (le_of_none hend) hplace.1
    refine h.move s.esp Pc.noConfusion ?_ ?_ ?_ ?_ ⟨Nat.zero_le _, Nat.zero_le _⟩
      (fun _ => Pc.noConfusion) <;> rw [hpc]
    · exact hall
    · exact fun j _ => Or.inl Iff.rfl
    · exact fun j _ => Iff.rfl
    · exact fun j _ => Iff.rfl

theorem Books.main_creating (h : Books cfg env s) (hpc : s.pc = .creating i)
    (hstep : stepMain cfg env s = some t) : Books cfg env t := by
  have hplace := h.place
  rw [hpc] at hplace
  rw [stepMain, hpc] at hstep
  obtain rfl := Option.some.inj hstep
  split
  · next info hinfo =>
    have hi := lt_of_some hinfo
    have hruns := runs_of_some hinfo
    split
    · next hmade =>
      obtain ⟨hrun, hcreates⟩ := Bool.and_eq_true_iff.mp hmade
      exact h.create hpc hi (hruns.trans hrun) hcreates
    · next hskip =>
      refine h.move s.esp Pc.noConfusion ?_ ?_ ?_ ?_ ⟨hi, Nat.zero_le _⟩
        (fun _ => Pc.noConfusion) <;> rw [hpc]
      · rfl
      · intro j hrun
        by_cases hij : j = i
        · subst hij
          rw [← hruns, hrun, Bool.true_and] at hskip
          exact Or.inr (Bool.eq_false_iff.mpr hskip)
        · have hlt : j < i + 1 ↔ j < i := by omega
          exact Or.inl hlt
      · exact fun j _ => Iff.rfl
      · exact fun j _ => Iff.rfl
  · next hend =>
    have hall : cfg.length = i := Nat.le_antisymm (le_of_none hend) hplace.2.1
    refine h.move s.esp Pc.noConfusion ?_ ?_ ?_ ?_ ⟨le_rfl, Nat.zero_le _⟩
      (fun _ => Pc.noConfusion) <;> rw [hpc]
    · rfl
    · exact fun j _ => Or.inl (iff_of_eq (congrArg (j < ·) hall))
    · exact fun j _ => Iff.rfl
    · exact fun j _ => Iff.rfl

theorem Books.main_joining (h : Books cfg env s) (hpc : s.pc = .joining i)
    (hstep : stepMain cfg env s = some t) : Books cfg env t := by
  have hplace := h.place
  rw [hpc] at hplace
  rw [stepMain, hpc] at hstep
  dsimp only at hstep
  split at hstep
  · next info hinfo =>
    have hi := lt_of_some hinfo
    have hruns := runs_of_some hinfo
    split at hstep
    · next hrun =>
      split at hstep
      · cases hstep
      · next hended =>
        obtain rfl := Option.some.inj hstep
        exact h.join hpc hi (hruns.trans hrun) hended
    · next hidle =>
      obtain rfl := Option.some.inj hstep
      have hfalse : runs cfg i = false := hruns.trans (Bool.eq_false_iff.mpr hidle)
      refine h.move s.esp Pc.noConfusion ?_ ?_ ?_ ?_ ⟨le_rfl, hi⟩
        (fun _ => Pc.noConfusion) <;> rw [hpc]
      · rfl
      · exact fun j _ => Or.inl Iff.rfl
      · exact fun j hrun => lt_succ_of_runs hfalse hrun
      · exact fun j hrun => lt_succ_of_runs hfalse hrun
  · next hend =>
    obtain rfl := Option.some.inj hstep
    have hall : cfg.length = i := Nat.le_antisymm (le_of_none hend) hplace.2.2
    refine h.move s.esp Pc.noConfusion ?_ ?_ ?_ ?_ ⟨le_rfl, le_rfl⟩
      (fun _ => Pc.noConfusion) <;> rw [hpc]
    · rfl
    · exact fun j _ => Or.inl Iff.rfl
    · exact fun j _ => iff_of_eq (congrArg (j < ·) hall)
    · exact fun j _ => iff_of_eq (congrArg (j < ·) hall)

theorem Books.main (h : Books cfg env s) (hu : Usable cfg env)
    (hstep : stepMain cfg env s = some t) : Books cfg env t := by
  cases hpc : s.pc with
  | config =>
    have hknown : ∀ info ∈ cfg, info.run = true → info.type.supported = true :=
      fun info hinfo _ => hu.supported info hinfo
    rw [stepMain, hpc, espConfig, if_pos hknown] at hstep
    obtain rfl := Option.some.inj hstep
    refine h.move _ Pc.noConfusion (hpc ▸ rfl) ?_ ?_ ?_ ⟨Nat.zero_le _, Nat.zero_le _⟩
      (fun _ => Pc.noConfusion) <;> rw [hpc]
    · exact fun j _ => Or.inl Iff.rfl
    · exact fun j _ => Iff.rfl
    · exact fun j _ => Iff.rfl
  | opening i => exact h.main_opening hu hpc hstep
  | creating i => exact h.main_creating hpc hstep
  | joining i => exact h.main_joining hpc hstep
  | closing i =>
    rw [stepMain, hpc] at hstep
    obtain rfl := Option.some.inj hstep
    exact h.close hpc
  | returned =>
    rw [stepMain, hpc] at hstep
    cases hstep
  | died =>
    rw [stepMain, hpc] at hstep
    cases hstep

end Books

section Runs
variable {cfg : List ThreadInfo} {env : Env} {esp : Nat → EspAccess} {s t : Sys} {i : Nat}
  {es : List Event}

theorem books_run (hu : Usable cfg env) (hrun : run (step cfg env) (start esp) es = some s) :
    Books cfg env s := by
  refine run_invariant ?_ (books_start cfg env esp) hrun
  intro s e t h hstep
  cases e with
  | main => exact h.main hu hstep
  | thread i => exact h.thread hu hstep

theorem Books.totals (h : Books cfg env s) (hpc : s.pc = .returned) (i : Nat) :
    s.log.count (.opened i) = (if i < cfg.length then 1 else 0) ∧
    s.log.count (.created i) =
      (if i < cfg.length ∧ runs cfg i = true ∧ env.creates i = true then 1 else 0) ∧
    s.log.count (.joined i) = (if i < cfg.length ∧ runs cfg i = true then 1 else 0) ∧
    s.log.count (.closed i) = (if i < cfg.length ∧ runs cfg i = true then 1 else 0) := by
  have hopened := h.opened i
  have hcreated := h.created i
  have hjoined := h.joined i
  have hclosed := h.closed i
  rw [hpc] at hopened hcreated hjoined hclosed
  exact ⟨hopened, hcreated, hjoined, hclosed⟩

theorem Books.clean_iff (h : Books cfg env s) (hpc : s.pc = .returned) :
    Clean s.log ↔ ∀ i < cfg.length, runs cfg i = true ∧ env.creates i = true := by
  have hopened := fun i => (h.totals hpc i).1
  have hcreated := fun i => (h.totals hpc i).2.1
  have hjoined := fun i => (h.totals hpc i).2.2.1
  have hclosed := fun i => (h.totals hpc i).2.2.2
  constructor
  · intro hclean i hi
    obtain ⟨hjoin, -, hclose⟩ := hclean i
    have hruns : runs cfg i = true := by
      rw [hclosed, hopened, if_pos hi] at hclose
      by_contra hidle
      rw [if_neg fun hboth => hidle hboth.2] at hclose
      cases hclose
    refine ⟨hruns, ?_⟩
    rw [hjoined, hcreated, if_pos ⟨hi, hruns⟩] at hjoin
    by_contra hfail
    rw [if_neg fun hall => hfail hall.2.2] at hjoin
    cases hjoin
  · intro hall i
    have hmade : (i < cfg.length ∧ runs cfg i = true ∧ env.creates i = true) ↔ i < cfg.length :=
      ⟨fun hmade => hmade.1, fun hi => ⟨hi, hall i hi⟩⟩
    have hrun : (i < cfg.length ∧ runs cfg i = true) ↔ i < cfg.length :=
      ⟨fun hboth => hboth.1, fun hi => ⟨hi, (hall i hi).1⟩⟩
    have hstatus : s.log.count (.invoked i) = s.log.count (.created i) := by
      rw [h.invoked]
      by_cases hi : i < cfg.length
      · have hwaited := h.waited i (by rw [hpc]; exact hi)
        have hpresent : s.status i ≠ .absent := by
          rw [Ne, h.status, hcreated, if_pos (hmade.mpr hi)]
          exact Nat.one_ne_zero
        rw [hcreated, if_pos (hmade.mpr hi), if_pos]
        cases hs : s.status i with
        | absent => exact absurd hs hpresent
        | running => exact absurd hs hwaited
        | finished => rfl
      · have habsent : s.status i = .absent := by
          rw [h.status, hcreated, if_neg fun hboth => hi hboth.1]
        have hended : s.status i ≠ .finished := by
          rw [habsent]
          decide
        rw [hcreated, if_neg hended, if_neg fun hboth => hi hboth.1]
    refine ⟨?_, hstatus, ?_⟩
    · rw [hjoined, hcreated]
      simp only [hmade, hrun]
    · rw [hclosed, hopened]
      simp only [hrun]

def Pc.left (n : Nat) : Pc → Nat
  | .config => 4 * n + 4
  | .opening i => (n - i) + 3 * n + 3
  | .creating i => (n - i) + 2 * n + 2
  | .joining i => 2 * (n - i) + 1
  | .closing i => 2 * (n - i)
  | .returned | .died => 0

theorem Books.progress (h : Books cfg env s) (hu : Usable cfg env) (hpc : s.pc ≠ .returned)
    (hfree : ∀ i, s.pc = .joining i → s.status i ≠ .running) :
    ∃ t, stepMain cfg env s = some t ∧ t.pc.left cfg.length < s.pc.left cfg.length := by
  have hplace := h.place
  rw [stepMain]
  cases hs : s.pc with
  | config =>
    have hknown : ∀ info ∈ cfg, info.run = true → info.type.supported = true :=
      fun info hinfo _ => hu.supported info hinfo
    rw [espConfig, if_pos hknown]
    refine ⟨_, rfl, ?_⟩
    change cfg.length - 0 + 3 * cfg.length + 3 < 4 * cfg.length + 4
    omega
  | opening i =>
    dsimp only
    cases hinfo : cfg[i]? with
    | some info =>
      have hi := lt_of_some hinfo
      have hnamed := hu.named info (List.mem_of_getElem? hinfo)
      refine ⟨{ s with pc := .opening (i + 1), log := s.log ++ [.opened i] }, ?_, ?_⟩
      · simp only [if_neg (Nat.not_lt.mpr hnamed), if_pos (hu.opens i hi)]
      · simp only [Pc.left]
        omega
    | none =>
      refine ⟨_, rfl, ?_⟩
      simp only [Pc.left]
      omega
  | creating i =>
    dsimp only
    cases hinfo : cfg[i]? with
    | some info =>
      have hi := lt_of_some hinfo
      refine ⟨_, rfl, ?_⟩
      simp only [apply_ite Sys.pc, ite_self, Pc.left]
      omega
    | none =>
      refine ⟨_, rfl, ?_⟩
      simp only [Pc.left]
      omega
  | joining i =>
    dsimp only
    cases hinfo : cfg[i]? with
    | some info =>
      have hi := lt_of_some hinfo
      cases hrun : info.run with
      | true =>
        refine ⟨{ s with pc := .closing i, log := s.log ++ [.joined i] }, ?_, ?_⟩
        · simp only [hrun, if_true, if_neg (hfree i hs)]
        · simp only [Pc.left]
          omega
      | false =>
        refine ⟨{ s with pc := .joining (i + 1) }, ?_, ?_⟩
        · simp [hrun]
        · simp only [Pc.left]
          omega
    | none =>
      refine ⟨_, rfl, ?_⟩
      simp only [Pc.left]
      omega
  | closing i =>
    rw [hs] at hplace
    have hi : i + 1 ≤ cfg.length := hplace.2.2
    refine ⟨_, rfl, ?_⟩
    simp only [Pc.left]
    omega
  | returned => exact absurd hs hpc
  | died => exact absurd hs h.alive

theorem Books.unblock (h : Books cfg env s) (hrunning : s.status i = .running) :
    ∃ t, stepThread cfg s i = some t ∧ t.pc = s.pc ∧ t.status i = .finished := by
  have hcount : s.log.count (.created i) ≠ 0 := by
    intro hzero
    have habsent := (h.status i).mpr hzero
    rw [hrunning] at habsent
    cases habsent
  have hi : i < cfg.length := by
    by_contra hge
    rw [h.created, if_neg] at hcount
    · exact hcount rfl
    · intro hmade
      exact hge (Nat.lt_of_lt_of_le hmade.1 h.place.2.1)
  rw [stepThread, List.getElem?_eq_getElem hi, hrunning]
  exact ⟨_, rfl, rfl, Function.update_self _ _ _⟩

theorem Books.returns (h : Books cfg env s) (hu : Usable cfg env) :
    ∃ es t, run (step cfg env) s es = some t ∧ t.pc = .returned := by
  induction hleft : s.pc.left cfg.length using Nat.strong_induction_on generalizing s with
  | _ k ih =>
    subst hleft
    by_cases hpc : s.pc = .returned
    · exact ⟨[], s, rfl, hpc⟩
    · obtain ⟨first, u, hu', hbooks, hfree, hsame⟩ : ∃ first u,
          run (step cfg env) s first = some u ∧ Books cfg env u ∧
          (∀ i, u.pc = .joining i → u.status i ≠ .running) ∧ u.pc = s.pc := by
        by_cases hblocked : ∃ i, s.pc = .joining i ∧ s.status i = .running
        · obtain ⟨i, hjoining, hrunning⟩ := hblocked
          obtain ⟨u, hstep, hsame, hfinished⟩ := h.unblock hrunning
          refine ⟨[.thread i], u, run_cons.mpr ⟨u, hstep, rfl⟩, h.thread hu hstep, ?_, hsame⟩
          intro j hj
          rw [hsame, hjoining] at hj
          cases hj
          rw [hfinished]
          decide
        · refine ⟨[], s, rfl, h, ?_, rfl⟩
          intro i hi hrunning
          exact hblocked ⟨i, hi, hrunning⟩
      obtain ⟨v, hv, hlt⟩ := hbooks.progress hu (hsame ▸ hpc) hfree
      rw [hsame] at hlt
      obtain ⟨rest, t, ht, hend⟩ := ih _ hlt (hbooks.main hu hv) rfl
      refine ⟨first ++ .main :: rest, t, ?_, hend⟩
      exact (run_append _ _).mpr ⟨u, hu', run_cons.mpr ⟨v, hv, ht⟩⟩

/-- Every run of esp_run cleans up exactly when every entry is to run and gets its thread. -/
theorem espRun_clean_iff (cfg : List ThreadInfo) (env : Env) (esp : Nat → EspAccess)
    (hu : Usable cfg env) :
    (∀ es s, run (step cfg env) (start esp) es = some s → s.pc = .returned → Clean s.log) ↔
      ∀ i < cfg.length, runs cfg i = true ∧ env.creates i = true := by
  constructor
  · intro hclean
    obtain ⟨es, s, hs, hpc⟩ := (books_start cfg env esp).returns hu
    exact ((books_run hu hs).clean_iff hpc).mp (hclean es s hs hpc)
  · intro hall es s hs hpc
    exact ((books_run hu hs).clean_iff hpc).mpr hall

/-- An accelerator that is to run, and one that is not. -/
def macInfo : ThreadInfo := ⟨true, "mac.0", .mac⟩
def idleInfo : ThreadInfo := ⟨false, "fft.0", .fft⟩

def willing : Env := ⟨4096, fun _ => true, fun _ => true⟩

def noAccess (_ : Nat) : EspAccess := ⟨0, false⟩

theorem usable_two : Usable [macInfo, macInfo] willing := by
  refine ⟨?_, ?_, fun _ _ => rfl⟩
  · simp [macInfo, AcceleratorType.supported]
  · simp [macInfo]
    decide

theorem espRun_clean_two : Usable [macInfo, macInfo] willing ∧ ∀ es s,
    run (step [macInfo, macInfo] willing) (start noAccess) es = some s → s.pc = .returned →
      Clean s.log := by
  refine ⟨usable_two, (espRun_clean_iff [macInfo, macInfo] willing noAccess usable_two).mpr ?_⟩
  intro i hi
  have hcases : i = 0 ∨ i = 1 := by
    simp only [List.length_cons, List.length_nil] at hi
    omega
  rcases hcases with rfl | rfl <;> exact ⟨rfl, rfl⟩

/-- The descriptor of the accelerator that is not to run stays open, and without a thread there is
a join all the same. -/
theorem espRun_unclean :
    (∃ es s, run (step [macInfo, idleInfo] willing) (start noAccess) es = some s ∧
      s.pc = .returned ∧ ¬Clean s.log) ∧
    ∃ es s, run (step [macInfo] { willing with creates := fun _ => false }) (start noAccess) es =
      some s ∧ s.pc = .returned ∧ ¬Clean s.log := by
  refine ⟨⟨[.main, .main, .main, .main, .main, .main, .main, .thread 0, .main, .main, .main, .main],
    _, rfl, rfl, ?_⟩, ⟨[.main, .main, .main, .main, .main, .main, .main, .main], _, rfl, rfl, ?_⟩⟩
  · intro hclean
    exact absurd (hclean 1).2.2 (by decide)
  · intro hclean
    exact absurd (hclean 0).1 (by decide)

end Runs
end EspDrivers.LibEsp
