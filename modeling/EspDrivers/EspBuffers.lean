import EspDrivers.ContigSteps
import EspDrivers.ContigConservation
import EspDrivers.EspRuns

/-! The devices over the allocator: an access takes the descriptor behind its handle and
uses it, through the waits, until its run is over. Nothing keeps the descriptor live
meanwhile but its owner, who must not free it. -/
namespace EspDrivers.Esp
open ContigAlloc
open Trace

section Model

abbrev DevId := Nat

/-- Who uses a descriptor: an access up to the start of its run, then the run. -/
inductive Holder where
  | access (d : DevId) (t : Tid)
  | run (d : DevId) (r : RunId)
  deriving DecidableEq

/-- The descriptor behind the handle, as it was when the handle was looked up. -/
structure Use (Arg : Type) where
  arg : Arg
  addr : Addr
  desc : Desc

structure Whole (Arg : Type) where
  contig : Desk
  dev : DevId → Machine Arg
  uses : List (Holder × Use Arg)

/-- `shown` is what the access reads through its pointer. -/
inductive WholeEvent (Arg : Type) where
  | contig (e : DeskEvent)
  | lookup (d : DevId) (t : Tid) (arg : Arg) (shown : Desc)
  | check (d : DevId) (t : Tid) (shown : Desc)
  | device (d : DevId) (e : DeviceEvent Arg)

variable {Arg : Type}

abbrev Whole.heap (s : Whole Arg) : Addr → Option Desc := s.contig.sys.alloc.heap

/-- A pointer to a descriptor shows it; behind any other pointer can be anything. -/
def Whole.shows (s : Whole Arg) (a : Addr) (shown : Desc) : Bool :=
  match s.heap a with
  | none => true
  | some desc => desc = shown

def user (uses : List (Holder × Use Arg)) (h : Holder) : Option (Use Arg) :=
  (uses.find? fun p => p.1 = h).map Prod.snd

def drop (uses : List (Holder × Use Arg)) (h : Holder) : List (Holder × Use Arg) :=
  uses.filter fun p => p.1 ≠ h

/-- The start of the run hands the descriptor over to it; the end of the run, or of an
access that has started none, ends the use. -/
def handOver (d : DevId) (e : DeviceEvent Arg) (before after : Machine Arg)
    (uses : List (Holder × Use Arg)) : List (Holder × Use Arg) :=
  match e with
  | .access t _ =>
    match before.pc t, after.pc t with
    | .start _, .wait _ r =>
      match user uses (.access d t) with
      | none => uses
      | some u => (.run d r, u) :: drop uses (.access d t)
    | _, .returned none _ => drop uses (.access d t)
    | _, _ => uses
  | .raise r _ => drop uses (.run d r)
  | _ => uses

/-- esp_access_ioctl up to contig_khandle_to_desc, then up to esp->lock, then the device.
`listHead` belongs to a variable of the module, so kmalloc does not answer with it. -/
def wholeStep (m : DevId → Module Arg) (listHead : Addr) (s : Whole Arg) :
    WholeEvent Arg → Option (Whole Arg)
  | .contig e =>
    match deskStep s.contig e with
    | none => none
    | some contig =>
      if contig.sys.alloc.heap listHead = none then some { s with contig := contig } else none
  | .lookup d t arg shown =>
    match (s.dev d).pc t, user s.uses (.access d t) with
    | .idle, none =>
      match contigKhandleToDesc s.contig.sys.alloc listHead ((m d).driver.access arg).contig with
      | none => some s
      | some a =>
        if s.shows a shown then some { s with uses := (.access d t, ⟨arg, a, shown⟩) :: s.uses }
        else none
    | _, _ => none
  | .check d t shown =>
    match (s.dev d).pc t, user s.uses (.access d t) with
    | .idle, some u =>
      if s.shows u.addr shown then
        match deviceStep (m d) (s.dev d) (.enter t u.arg shown) with
        | none => some { s with uses := drop s.uses (.access d t) }
        | some dev => some { s with dev := Function.update s.dev d dev }
      else none
    | _, _ => none
  | .device _ (.enter ..) => none
  | .device d e =>
    match deviceStep (m d) (s.dev d) e with
    | none => none
    | some dev => some { s with
        dev := Function.update s.dev d dev
        uses := handOver d e (s.dev d) dev s.uses }

end Model

section Law
variable {Arg : Type} {m : DevId → Module Arg} {listHead : Addr} {s t : Whole Arg}
  {e : WholeEvent Arg} {s0 : State}

def Live (s : State) (u : Use Arg) : Prop :=
  s.heap u.addr = some u.desc ∧ ∀ ch ∈ u.desc.allocList,
    (∀ i, ch ∉ s.inactiveChunks i) ∧
      ∀ b desc, b ≠ u.addr → s.heap b = some desc → ch ∉ desc.allocList

def Pinned (s : Whole Arg) : Prop := ∀ p ∈ s.uses, Live s.contig.sys.alloc p.2

/-- A descriptor in use is not freed, and a handle is not the address behind the head of
desc_list. -/
def Careful (m : DevId → Module Arg) (listHead : Addr) (s : Whole Arg) : WholeEvent Arg → Prop
  | .contig (.free _ a) => ∀ p ∈ s.uses, p.2.addr ≠ a
  | .lookup d _ arg _ => ((m d).driver.access arg).contig ≠ listHead
  | _ => True

instance (m : DevId → Module Arg) (listHead : Addr) (s : Whole Arg) :
    DecidablePred (Careful m listHead s)
  | .contig (.free _ a) => inferInstanceAs (Decidable (∀ p ∈ s.uses, p.2.addr ≠ a))
  | .lookup d _ arg _ =>
    inferInstanceAs (Decidable (((m d).driver.access arg).contig ≠ listHead))
  | .contig (.openFile _) | .contig (.alloc ..) | .contig (.link ..) | .contig (.unlink ..)
  | .contig (.close _) | .check .. | .device .. => isTrue trivial

structure Held (s0 : State) (listHead : Addr) (s : Whole Arg) : Prop where
  books : Consistent s0 s.contig.sys.alloc
  head : s.heap listHead = none
  uses : ∀ p ∈ s.uses, s.heap p.2.addr = some p.2.desc

theorem mem_handOver {d : DevId} {e : DeviceEvent Arg} {before after : Machine Arg}
    {uses : List (Holder × Use Arg)} {p : Holder × Use Arg}
    (h : p ∈ handOver d e before after uses) : ∃ q ∈ uses, q.2 = p.2 := by
  have hdrop : ∀ k, p ∈ drop uses k → ∃ q ∈ uses, q.2 = p.2 :=
    fun k hk => ⟨p, (List.mem_filter.mp hk).1, rfl⟩
  have hsame : p ∈ uses → ∃ q ∈ uses, q.2 = p.2 := fun hp => ⟨p, hp, rfl⟩
  unfold handOver at h
  split at h
  · split at h
    · split at h
      · exact hsame h
      · next u hu =>
        cases List.mem_cons.mp h with
        | inl heq =>
          obtain ⟨q, hq, hqu⟩ := Option.map_eq_some_iff.mp hu
          exact ⟨q, List.mem_of_find?_eq_some hq, by rw [heq, hqu]⟩
        | inr hp => exact hdrop _ hp
    · exact hdrop _ h
    · exact hsame h
  · exact hdrop _ h
  · exact hsame h

inductive WholeMove (m : DevId → Module Arg) (listHead : Addr) (s t : Whole Arg) :
    WholeEvent Arg → Prop where
  | contig {e : DeskEvent} (h : deskStep s.contig e = some t.contig)
    (hhead : t.heap listHead = none) (huses : t.uses = s.uses) :
    WholeMove m listHead s t (.contig e)
  | unknown {d : DevId} {u : Tid} {arg : Arg} {shown : Desc}
    (hlook : contigKhandleToDesc s.contig.sys.alloc listHead ((m d).driver.access arg).contig = none)
    (h : t = s) : WholeMove m listHead s t (.lookup d u arg shown)
  | found {d : DevId} {u : Tid} {arg : Arg} {shown : Desc} {a : Addr}
    (hlook : contigKhandleToDesc s.contig.sys.alloc listHead ((m d).driver.access arg).contig = some a)
    (hshow : s.shows a shown = true)
    (h : t = { s with uses := (.access d u, ⟨arg, a, shown⟩) :: s.uses }) :
    WholeMove m listHead s t (.lookup d u arg shown)
  | check {d : DevId} {u : Tid} {shown : Desc} (hcontig : t.contig = s.contig)
    (huses : ∀ p ∈ t.uses, ∃ q ∈ s.uses, q.2 = p.2) : WholeMove m listHead s t (.check d u shown)
  | device {d : DevId} {e : DeviceEvent Arg} (hcontig : t.contig = s.contig)
    (huses : ∀ p ∈ t.uses, ∃ q ∈ s.uses, q.2 = p.2) : WholeMove m listHead s t (.device d e)

theorem wholeStep_move (h : wholeStep m listHead s e = some t) : WholeMove m listHead s t e := by
  cases e with
  | contig e =>
    simp only [wholeStep] at h
    split at h
    · cases h
    · next contig hdesk =>
      split at h
      · next hhead =>
        cases h
        exact .contig hdesk hhead rfl
      · cases h
  | lookup d u arg shown =>
    simp only [wholeStep] at h
    split at h
    · split at h
      · next hlook =>
        cases h
        exact .unknown hlook rfl
      · next a hlook =>
        split at h
        · next hshow =>
          cases h
          exact .found hlook hshow rfl
        · cases h
    · cases h
  | check d u shown =>
    simp only [wholeStep] at h
    split at h
    · split at h
      · split at h
        · cases h
          exact .check rfl (fun p hp => ⟨p, (List.mem_filter.mp hp).1, rfl⟩)
        · cases h
          exact .check rfl (fun p hp => ⟨p, hp, rfl⟩)
      · cases h
    · cases h
  | device d e =>
    cases e with
    | enter => cases h
    | _ =>
      simp only [wholeStep] at h
      split at h
      · cases h
      · next dev hdev =>
        cases h
        refine .device rfl ?_
        intro p hp
        dsimp only at hp
        exact mem_handOver hp

theorem Held.sub (hs : Held s0 listHead s) (hcontig : t.contig = s.contig)
    (huses : ∀ p ∈ t.uses, ∃ q ∈ s.uses, q.2 = p.2) : Held s0 listHead t := by
  refine ⟨hcontig ▸ hs.books, ?_, ?_⟩
  · rw [Whole.heap, hcontig]
    exact hs.head
  · intro p hp
    obtain ⟨q, hq, heq⟩ := huses p hp
    rw [Whole.heap, hcontig, ← heq]
    exact hs.uses q hq

theorem shows_live {a : Addr} {shown desc : Desc} (hshow : s.shows a shown = true)
    (ha : s.heap a = some desc) : desc = shown := by
  rw [Whole.shows, ha] at hshow
  exact of_decide_eq_true hshow

theorem Held.step (h0 : Small s0) (hs : Held s0 listHead s) (hc : Careful m listHead s e)
    (h : wholeStep m listHead s e = some t) : Held s0 listHead t := by
  cases wholeStep_move h with
  | contig hdesk hhead huses =>
    refine ⟨deskStep_consistent h0 hs.books hdesk, hhead, ?_⟩
    intro p hp
    rw [huses] at hp
    apply deskStep_heap h0 hs.books hdesk (hs.uses p hp)
    intro f hf
    subst hf
    exact hc p hp rfl
  | unknown hlook hst =>
    rw [hst]
    exact hs
  | @found d u arg shown a hlook hshow hst =>
    rw [hst]
    refine ⟨hs.books, hs.head, ?_⟩
    intro p hp
    cases List.mem_cons.mp hp with
    | inr hmem => exact hs.uses p hmem
    | inl heq =>
      have hfound := contigKhandleToDesc_some.mp hlook
      have hlive : a ∈ s.contig.sys.alloc.descList := by
        rw [hfound.1]
        exact hfound.2.resolve_right hc
      have hsome := (hs.books.live a).mp hlive
      cases ha : s.heap a with
      | none => exact absurd ha hsome
      | some desc =>
        rw [heq]
        dsimp only
        rw [← shows_live hshow ha]
        exact ha
  | check hcontig huses => exact hs.sub hcontig huses
  | device hcontig huses => exact hs.sub hcontig huses

theorem Held.pinned (hn : (created s0).Nodup) (hs : Held s0 listHead s) : Pinned s := by
  intro p hp
  have hlive : s.contig.sys.alloc.heap p.2.addr = some p.2.desc := hs.uses p hp
  refine ⟨hlive, ?_⟩
  intro ch hch
  have hheld : ch ∈ held s.contig.sys.alloc p.2.addr := by
    rw [held, hlive]
    exact hch
  have howned := ownedBy_desc hs.books hn hheld
  refine ⟨fun i => howned.2 (.inactive i) (by simp), ?_⟩
  intro b desc hb hdesc hmem
  have hother : ch ∉ held s.contig.sys.alloc b := howned.2 (.desc b) (by simpa using hb)
  rw [held, hdesc] at hother
  exact hother hmem

theorem Held.broken (h0 : Small s0) (hs : Held s0 listHead s) (hc : ¬ Careful m listHead s e)
    (h : wholeStep m listHead s e = some t) : ¬ Pinned t := by
  intro hpin
  cases wholeStep_move h with
  | @contig e hdesk hhead huses =>
    cases e with
    | free f a =>
      have hused : ∃ p ∈ s.uses, p.2.addr = a := by
        by_contra hno
        exact hc (fun p hp heq => hno ⟨p, hp, heq⟩)
      obtain ⟨p, hp, heq⟩ := hused
      rw [← huses] at hp
      have hlive := (hpin p hp).1
      rw [heq, deskStep_free h0 hs.books hdesk] at hlive
      cases hlive
    | _ => exact hc trivial
  | @unknown d u arg shown hlook hst =>
    have heq : ((m d).driver.access arg).contig = listHead := not_not.mp hc
    have hfound : contigKhandleToDesc s.contig.sys.alloc listHead
        ((m d).driver.access arg).contig = some listHead :=
      contigKhandleToDesc_some.mpr ⟨heq.symm, Or.inr heq⟩
    rw [hlook] at hfound
    cases hfound
  | @found d u arg shown a hlook hshow hst =>
    have heq : ((m d).driver.access arg).contig = listHead := not_not.mp hc
    have ha := (contigKhandleToDesc_some.mp hlook).1
    rw [hst] at hpin
    have hlive := (hpin _ List.mem_cons_self).1
    have hhead : s.contig.sys.alloc.heap listHead = none := hs.head
    dsimp only at hlive
    rw [ha, heq, hhead] at hlive
    cases hlive
  | check hcontig huses => exact hc trivial
  | device hcontig huses => exact hc trivial

def booted (s0 : State) (iomem : DevId → Iomem) (fields : DevId → Fields) (espStatus : Status) :
    Whole Arg :=
  ⟨⟨Sys.closed s0, []⟩, fun d => registered (iomem d) (fields d) espStatus, []⟩

theorem held_booted {p : Insmod} {o : InitCalls} (h : contigInit p o = .ok s0)
    (iomem : DevId → Iomem) (fields : DevId → Fields) (espStatus : Status) :
    Held s0 listHead (booted s0 iomem fields espStatus : Whole Arg) := by
  refine ⟨consistent_init h, ?_, fun p hp => by cases hp⟩
  have hs0 := (contigInit_ok h).1
  rw [hs0]
  rfl

/-- The descriptors in use stay live all along a run exactly when nobody frees one of
them, and nobody passes the address behind the list head. -/
theorem pinned_iff_careful {p : Insmod} {o : InitCalls} (h : contigInit p o = .ok s0)
    (m : DevId → Module Arg) (listHead : Addr) (iomem : DevId → Iomem)
    (fields : DevId → Fields) (espStatus : Status) {es : List (WholeEvent Arg)}
    (hr : run (wholeStep m listHead) (booted s0 iomem fields espStatus) es = some t) :
    Always (wholeStep m listHead) Pinned (booted s0 iomem fields espStatus) es ↔
      Along (wholeStep m listHead) (Careful m listHead) (booted s0 iomem fields espStatus) es := by
  have hn : (created s0).Nodup := by
    rw [(contigInit_ok h).1]
    exact nodup_created p
  exact always_iff_along (fun _ _ _ hs hc he => hs.step (small_init h) hc he)
    (fun _ _ _ hs hc he => hs.broken (small_init h) hc he) (fun _ hs => hs.pinned hn)
    (held_booted h iomem fields espStatus) hr

end Law

section Runs

def wholeIdle : Whole Access :=
  booted (initState smallInsmod) (fun _ _ => 0) (fun _ => ⟨.none, 0, .preferred, 0, 0, 0⟩)
    Status.zero

def firstBuffer : Desc := ⟨[2 ^ 20], 64, 1, firstNode, [⟨2 ^ 20, firstNode, 0⟩]⟩

def stepWhole : Whole Access → WholeEvent Access → Option (Whole Access) :=
  wholeStep (fun _ => plainModule) 16

def runOnBuffer : List (WholeEvent Access) :=
  [.contig (.openFile 1), .contig (.alloc 1 (.preferred 0) 4096 (blockAt 64)),
    .contig (.link 1 64), .lookup 0 1 { request 0 .none 0 with contig := 64 } firstBuffer,
    .check 0 1 firstBuffer] ++ List.replicate 15 (.device 0 (.access 1 true))

/-- Another thread frees the buffer of the run, and another process gets its chunk. -/
def freeAndReuse : List (WholeEvent Access) :=
  [.contig (.unlink 1 64), .contig (.free 1 64), .contig (.openFile 2),
    .contig (.alloc 2 (.preferred 0) 4096 (blockAt 128)), .contig (.link 2 128)]

theorem freed_under_run : ∃ s, run stepWhole wholeIdle (runOnBuffer ++ freeAndReuse) = some s ∧
    (s.dev 0).line.running = [0] ∧ (s.heap 128).map Desc.allocList = some firstBuffer.allocList ∧
    ¬ Pinned s := by
  refine ⟨_, rfl, rfl, rfl, ?_⟩
  intro h
  have hlive := (h _ List.mem_cons_self).1
  cases hlive

/-- The same with the end of the run in between. -/
theorem free_after_run_pinned : Always stepWhole Pinned wholeIdle
    (runOnBuffer ++ .device 0 (.raise 0 false) :: freeAndReuse) :=
  (pinned_iff_careful (t := _) contigInit_small _ 16 _ _ _ rfl).mpr (by decide +kernel)

end Runs

end EspDrivers.Esp
