import EspDrivers.CircularList
import EspDrivers.ContigSteps
import EspDrivers.EspExits

/-! desc_list as the kernel has it in memory: descriptors that are linked through a member,
and a head that is no descriptor. contig_khandle_to_desc walks over it with a pointer that
it computes from each node, and from the head when nothing was found. -/
namespace EspDrivers.ContigAlloc
open CircularList Trace

section Layout

/-- The offset of desc_node in struct contig_desc, and the sizes of this structure and of a
struct list_head, with 64-bit pointers. -/
def descNodeOffset : Nat := 24
def descBytes : Nat := 72
def listHeadBytes : Nat := 16

def descNode (desc : Nat) : Nat := desc + descNodeOffset

/-- list_entry(node, struct contig_desc, desc_node) -/
def descOf (node : Nat) : Nat := ulongSub node descNodeOffset

/-- Where the variable desc_list lies, and what list_del leaves in a node. -/
structure Layout where
  listHead : Nat
  poison : Addr × Addr
  low : descNodeOffset < listHead
  high : listHead + listHeadBytes ≤ 2 ^ 64

/-- A block for a descriptor lies in memory and beside the variable. -/
def Layout.Beside (k : Layout) (desc : Nat) : Prop :=
  desc + descBytes ≤ 2 ^ 64 ∧ (desc + descBytes ≤ k.listHead ∨ k.listHead + listHeadBytes ≤ desc)

instance (k : Layout) (desc : Nat) : Decidable (k.Beside desc) :=
  inferInstanceAs (Decidable (_ ∧ _))

end Layout

section Model

structure Chained where
  s : State
  links : Links Addr

/-- The calls of the module with what they do to the links: list_add at the end of an
allocation, list_del at the end of a free. -/
def chainStep (k : Layout) (l : Chained) : Op → Option Chained
  | .alloc params size m =>
    match contigAlloc l.s params size m with
    | .error _ => none
    | .ok (s, .error _) => some { l with s := s }
    | .ok (s, .ok a) =>
      if k.Beside a then some ⟨s, listAdd l.links (descNode a) k.listHead⟩ else none
  | .free a =>
    match contigFree l.s a with
    | .error _ => none
    | .ok s => some ⟨s, listDel k.poison l.links (descNode a)⟩

/-- LIST_HEAD(desc_list); nothing else of the links matters before the first call. -/
def chained (k : Layout) (links : Links Addr) (s0 : State) : Chained :=
  ⟨s0, initHead links k.listHead⟩

/-- contig_khandle_to_desc with 0 for NULL; the fuel bounds the loop. -/
def khandleToDesc (k : Layout) (links : Links Addr) (fuel : Nat) (khandle : Addr) :
    Option Addr := do
  let node ← walk links k.listHead (fun node => descOf node = khandle) fuel
    (links.next k.listHead)
  let desc := descOf node
  some (if desc = khandle then desc else 0)

def LinkedIn (k : Layout) (links : Links Addr) (a : Addr) : Prop :=
  ∃ nodes, Ring links k.listHead nodes ∧ descNode a ∈ nodes

end Model

section Law
variable {k : Layout} {s0 : State} {l l' : Chained} {op : Op} {a : Nat}

theorem descNode_inj {a b : Nat} : descNode a = descNode b ↔ a = b := Nat.add_right_cancel_iff

theorem descOf_descNode (ha : k.Beside a) : descOf (descNode a) = a := by
  have hlt := ha.1
  simp only [descOf, descNode, ulongSub, ulong, descNodeOffset, descBytes] at hlt ⊢
  omega

theorem descOf_listHead (k : Layout) : descOf k.listHead + descNodeOffset = k.listHead := by
  have hlow := k.low
  have hhigh := k.high
  simp only [descOf, ulongSub, ulong, descNodeOffset, listHeadBytes] at hlow hhigh ⊢
  omega

theorem Layout.Beside.ne_head (ha : k.Beside a) : a ≠ descOf k.listHead := by
  intro heq
  have hhead := descOf_listHead k
  rw [← heq] at hhead
  have hor := ha.2
  simp only [descBytes, listHeadBytes, descNodeOffset] at hor hhead
  omega

structure Threaded (s0 : State) (k : Layout) (l : Chained) : Prop where
  books : Consistent s0 l.s
  ring : Ring l.links k.listHead (l.s.descList.map descNode)
  beside : ∀ a ∈ l.s.descList, k.Beside a ∧ a ≠ 0

inductive ChainMove (k : Layout) (l l' : Chained) : Op → Prop where
  | same {op : Op} (hs : l'.s = l.s) (hl : l'.links = l.links) : ChainMove k l l' op
  | alloc {params : Params} {size : Nat} {m : Kmalloc} {a : Addr}
    (h : contigAlloc l.s params size m = .ok (l'.s, .ok a)) (ha : k.Beside a)
    (hl : l'.links = listAdd l.links (descNode a) k.listHead) :
    ChainMove k l l' (.alloc params size m)
  | free {a : Addr} (h : contigFree l.s a = .ok l'.s)
    (hl : l'.links = listDel k.poison l.links (descNode a)) : ChainMove k l l' (.free a)

theorem chainStep_move (h : chainStep k l op = some l') : ChainMove k l l' op := by
  cases op with
  | alloc params size m =>
    simp only [chainStep] at h
    split at h
    · cases h
    · next s e hc =>
      cases h
      exact .same (contigAlloc_error hc) rfl
    · next s a hc =>
      split at h
      · next ha =>
        cases h
        exact .alloc hc ha rfl
      · cases h
  | free a =>
    simp only [chainStep] at h
    split at h
    · cases h
    · next s hc =>
      cases h
      exact .free hc rfl

theorem Threaded.step (h0 : Small s0) (hl : Threaded s0 k l) (h : chainStep k l op = some l') :
    Threaded s0 k l' := by
  cases chainStep_move h with
  | same hs hlinks =>
    refine ⟨hs ▸ hl.books, ?_, hs ▸ hl.beside⟩
    rw [hs, hlinks]
    exact hl.ring
  | @alloc params size m a hc ha hlinks =>
    obtain ⟨cs, t, desc, -, ht, hf, hfresh, hpos, heq⟩ := contigAlloc_ok (hl.books.nodeOk h0) hc
    have hlist : l'.s.descList = a :: l.s.descList := by
      rw [heq]
      exact congrArg (a :: ·) ht.descList
    have hnot : a ∉ l.s.descList := fun hmem => (hl.books.live a).mp hmem hfresh
    refine ⟨heq ▸ consistent_publish hl.books ht hf hfresh, ?_, ?_⟩
    · rw [hlist, hlinks]
      apply hl.ring.listAdd
      intro hmem
      cases List.mem_cons.mp hmem with
      | inl hhead =>
        refine ha.ne_head ?_
        rw [← hhead, descOf_descNode ha]
      | inr hmem =>
        obtain ⟨b, hb, hab⟩ := List.mem_map.mp hmem
        exact hnot (descNode_inj.mp hab ▸ hb)
    · intro b hb
      rw [hlist] at hb
      cases List.mem_cons.mp hb with
      | inl hba => exact ⟨hba ▸ ha, hba ▸ hpos⟩
      | inr hb => exact hl.beside b hb
  | @free a hc hlinks =>
    obtain ⟨desc, ha, heq⟩ := hl.books.free_ok h0 hc
    have hlist : l'.s.descList = l.s.descList.erase a := by
      rw [heq]
      rfl
    have hmem : a ∈ l.s.descList := (hl.books.live a).mpr (by simp [ha])
    refine ⟨heq ▸ consistent_unpublish hl.books ha, ?_, ?_⟩
    · rw [hlist, hlinks, List.map_erase (fun _ _ hab => descNode_inj.mp hab)]
      exact hl.ring.listDel (List.mem_map_of_mem hmem)
    · intro b hb
      rw [hlist] at hb
      exact hl.beside b (List.mem_of_mem_erase hb)

theorem threaded_run {p : Insmod} {o : InitCalls} {links : Links Addr} {ops : List Op}
    (h : contigInit p o = .ok s0) (hr : run (chainStep k) (chained k links s0) ops = some l) :
    Threaded s0 k l := by
  have hinit : Threaded s0 k (chained k links s0) := by
    refine ⟨consistent_init h, ?_, ?_⟩
    · rw [(contigInit_ok h).1]
      exact ring_initHead links k.listHead
    · rw [(contigInit_ok h).1]
      intro a ha
      cases ha
  exact run_invariant (fun _ _ _ hl hst => hl.step (small_init h) hst) hinit hr

theorem Threaded.linkedIn (hl : Threaded s0 k l) : LinkedIn k l.links a ↔ a ∈ l.s.descList := by
  constructor
  · rintro ⟨nodes, hring, hmem⟩
    rw [hring.unique hl.ring] at hmem
    obtain ⟨b, hb, hab⟩ := List.mem_map.mp hmem
    exact descNode_inj.mp hab ▸ hb
  · intro hmem
    exact ⟨_, hl.ring, List.mem_map_of_mem hmem⟩

theorem Threaded.khandleToDesc (hl : Threaded s0 k l) (khandle : Nat) {fuel : Nat}
    (hfuel : l.s.descList.length < fuel) :
    khandleToDesc k l.links fuel khandle =
      some ((contigKhandleToDesc l.s (descOf k.listHead) khandle).getD 0) := by
  have hwalk := @Ring.walk _ _ _ _ _ (fun node => decide (descOf node = khandle)) fuel hl.ring
    (by rwa [List.length_map])
  have hfind : (l.s.descList.map descNode).find? (fun node => decide (descOf node = khandle)) =
      (l.s.descList.find? fun desc => decide (desc = khandle)).map descNode := by
    have hsame : l.s.descList.find? ((fun node => decide (descOf node = khandle)) ∘ descNode) =
        l.s.descList.find? (fun desc => decide (desc = khandle)) := by
      refine List.find?_congr ?_
      intro b hb
      rw [Function.comp_apply, descOf_descNode (hl.beside b hb).1]
    rw [List.find?_map, hsame]
  rw [hfind] at hwalk
  simp only [ContigAlloc.khandleToDesc, hwalk, contigKhandleToDesc, bind, Option.bind]
  have hpoint (d : Nat) : (if d = khandle then d else 0) =
      (if d = khandle then some d else none).getD 0 := by
    by_cases hd : d = khandle
    · rw [if_pos hd, if_pos hd, Option.getD_some]
    · rw [if_neg hd, if_neg hd, Option.getD_none]
  cases hf : l.s.descList.find? (fun desc => decide (desc = khandle)) with
  | none =>
    rw [Option.map_none, Option.getD_none, Option.getD_none, hpoint]
  | some b =>
    have hb := List.mem_of_find?_eq_some hf
    rw [Option.map_some, Option.getD_some, Option.getD_some, descOf_descNode (hl.beside b hb).1,
      hpoint]

theorem Threaded.lookup (hl : Threaded s0 k l) (khandle : Nat) {fuel : Nat}
    (hfuel : l.s.descList.length < fuel) :
    ContigAlloc.khandleToDesc k l.links fuel khandle =
      some (if khandle ∈ l.s.descList ∨ khandle = descOf k.listHead then khandle else 0) := by
  rw [hl.khandleToDesc khandle hfuel]
  cases hc : contigKhandleToDesc l.s (descOf k.listHead) khandle with
  | none =>
    rw [if_neg]
    · rfl
    · intro hor
      rw [contigKhandleToDesc_some.mpr ⟨rfl, hor⟩] at hc
      cases hc
  | some d =>
    obtain ⟨rfl, hor⟩ := contigKhandleToDesc_some.mp hc
    rw [if_pos hor]
    rfl

end Law

end EspDrivers.ContigAlloc

namespace EspDrivers.Esp
open ContigAlloc CircularList Trace
variable {Arg : Type}

/-- esp_access_ioctl with the pointer that contig_khandle_to_desc has returned; `shown` is
what memory holds behind each pointer. -/
def espAccessIoctlOn (desc : Addr) (shown : Addr → Desc) (m : Module Arg) (arg : Arg)
    (o : Outcomes) (w : World) : Result :=
  espAccessIoctl m arg { o with contig := if desc = 0 then none else some (shown desc) } w

/-- The loop ends on a pointer that is not NULL just for a descriptor that is live and
linked, and any other handle is refused. -/
def Validated (k : Layout) (l : Chained) (shown : Addr → Desc) (m : Module Arg) (arg : Arg)
    (o : Outcomes) (w : World) : Prop :=
  let khandle := (m.driver.access arg).contig
  let valid := l.s.heap khandle ≠ none ∧ LinkedIn k l.links khandle
  ∃ desc, (∀ fuel, l.s.descList.length < fuel → khandleToDesc k l.links fuel khandle = some desc) ∧
    (desc ≠ 0 ↔ valid) ∧ (¬ valid → desc = 0 ∧ espAccessIoctlOn desc shown m arg o w =
      .returns w (.error (if o.kmalloc then .efault else .enomem)))

theorem espAccessIoctlOn_null (shown : Addr → Desc) (m : Module Arg) (arg : Arg) (o : Outcomes)
    (w : World) : espAccessIoctlOn 0 shown m arg o w =
      .returns w (.error (if o.kmalloc then .efault else .enomem)) := by
  cases hk : o.kmalloc with
  | false => simp [espAccessIoctlOn, espAccessIoctl, hk]
  | true =>
    cases hc : o.copied with
    | false => simp [espAccessIoctlOn, espAccessIoctl, hk, hc]
    | true => simp [espAccessIoctlOn, espAccessIoctl, hk, hc]

/-- In every reachable state a handle is validated exactly, unless it is the pointer that
belongs to the head of desc_list. -/
theorem khandle_validated {p : Insmod} {c : InitCalls} {s0 : State} {k : Layout}
    {links : Links Addr} {ops : List Op} {l : Chained} (h : contigInit p c = .ok s0)
    (hr : run (chainStep k) (chained k links s0) ops = some l) (shown : Addr → Desc)
    (m : Module Arg) (arg : Arg) (o : Outcomes) (w : World) :
    Validated k l shown m arg o w ↔ (m.driver.access arg).contig ≠ descOf k.listHead := by
  have hl := threaded_run h hr
  have hvalid (a : Addr) : l.s.heap a ≠ none ∧ LinkedIn k l.links a ↔ a ∈ l.s.descList := by
    rw [hl.linkedIn, ← hl.books.live, and_self]
  have hhead : descOf k.listHead ∉ l.s.descList := fun hmem => (hl.beside _ hmem).1.ne_head rfl
  have hpos : descOf k.listHead ≠ 0 := by
    have hadd := descOf_listHead k
    have hlow := k.low
    omega
  simp only [Validated, hvalid]
  constructor
  · intro hall heq
    obtain ⟨desc, hdesc, hiff, -⟩ := hall
    have hlast := Nat.lt_succ_self l.s.descList.length
    have hfound := hl.lookup (m.driver.access arg).contig hlast
    rw [hdesc _ hlast, if_pos (Or.inr heq)] at hfound
    have hne : desc ≠ 0 := by
      rw [Option.some.inj hfound, heq]
      exact hpos
    rw [heq] at hiff
    exact hhead (hiff.mp hne)
  · intro hne
    by_cases hmem : (m.driver.access arg).contig ∈ l.s.descList
    · refine ⟨(m.driver.access arg).contig, ?_, ?_, fun hno => absurd hmem hno⟩
      · intro fuel hfuel
        rw [hl.lookup _ hfuel, if_pos (Or.inl hmem)]
      · exact iff_of_true (hl.beside _ hmem).2 hmem
    · refine ⟨0, ?_, iff_of_false (not_not.mpr rfl) hmem, ?_⟩
      · intro fuel hfuel
        rw [hl.lookup _ hfuel, if_neg (not_or.mpr ⟨hmem, hne⟩)]
      · intro _
        exact ⟨rfl, espAccessIoctlOn_null shown m arg o w⟩

section Handles

/-- desc_list at 4096; the constants of list_del. -/
def smallLayout : Layout := ⟨4096, (0x100, 0x122), by decide, by decide⟩

def noLinks : Links Addr := ⟨id, id⟩

theorem khandle_validated_small : ∃ l, run (chainStep smallLayout)
    (chained smallLayout noLinks (initState smallInsmod))
      [.alloc (.balanced 0 1) 12288 (blockAt 64), .alloc (.leastLoaded 0) 4096 (blockAt 256),
        .free 64] = some l ∧
    Validated smallLayout l (fun _ => ⟨[], 0, 0, firstNode, []⟩) plainModule
      { request 0 .none 0 with contig := 256 } success quiet ∧
    Validated smallLayout l (fun _ => ⟨[], 0, 0, firstNode, []⟩) plainModule
      { request 0 .none 0 with contig := 64 } success quiet := by
  have h : ∃ l, run (chainStep smallLayout)
      (chained smallLayout noLinks (initState smallInsmod))
        [.alloc (.balanced 0 1) 12288 (blockAt 64), .alloc (.leastLoaded 0) 4096 (blockAt 256),
          .free 64] = some l := ⟨_, rfl⟩
  obtain ⟨l, hr⟩ := h
  have hhead : descOf smallLayout.listHead = 4072 := rfl
  refine ⟨l, hr, (khandle_validated contigInit_small hr _ _ _ _ _).mpr ?_,
    (khandle_validated contigInit_small hr _ _ _ _ _).mpr ?_⟩
  · rw [hhead]
    decide
  · rw [hhead]
    decide

/-- The pointer of the head gets through while there is no descriptor at all. -/
theorem head_handle_accepted : contigInit smallInsmod allOk = .ok (initState smallInsmod) ∧
    descOf smallLayout.listHead = 4072 ∧
    khandleToDesc smallLayout (chained smallLayout noLinks (initState smallInsmod)).links 1 4072 =
      some 4072 ∧
    ∀ shown o w, ¬ Validated smallLayout (chained smallLayout noLinks (initState smallInsmod)) shown
      plainModule { request 0 .none 0 with contig := 4072 } o w := by
  have hhead : descOf smallLayout.listHead = 4072 := rfl
  have hl := @threaded_run smallLayout _ (chained smallLayout noLinks (initState smallInsmod)) _ _
    noLinks [] contigInit_small rfl
  have hval := @Threaded.lookup _ _ _ hl 4072 1 Nat.one_pos
  rw [if_pos (Or.inr hhead.symm)] at hval
  refine ⟨contigInit_small, hhead, hval, ?_⟩
  intro shown o w h
  obtain ⟨desc, hdesc, hiff, -⟩ := h
  have hfound := hval.symm.trans (hdesc 1 Nat.one_pos)
  have hne : desc ≠ 0 := by
    rw [← Option.some.inj hfound]
    decide
  exact (hiff.mp hne).1 rfl

end Handles

end EspDrivers.Esp
