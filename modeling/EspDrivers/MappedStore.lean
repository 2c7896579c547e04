import Mathlib

/-! Objects that lie in pieces in one memory and are written and read through an address
map. A journal, newest entry first, says what happened to each object; while no two live
objects share a place, the memory holds what the journal says. Addresses, places and
objects are arbitrary. -/
namespace EspDrivers.MappedStore

variable {α β κ : Type*}

section Copies

/-- Write the items from address `v` on; `none` at the first address without a place. -/
def store [DecidableEq α] (addr : Nat → Option α) (mem : α → β) (v : Nat) : List β → Option (α → β)
  | [] => some mem
  | b :: bs => (addr v).bind fun a => store addr (Function.update mem a b) (v + 1) bs

def load (addr : Nat → Option α) (mem : α → β) (v : Nat) : Nat → Option (List β)
  | 0 => some []
  | k + 1 => (addr v).bind fun a => (load addr mem (v + 1) k).map (mem a :: ·)

/-- The memory after the items have been written to their places. -/
structure Written (mem mem' : α → β) (place : Nat → α) (bs : List β) : Prop where
  inside : ∀ i, i < bs.length → bs[i]? = some (mem' (place i))
  outside : ∀ a, (∀ i, i < bs.length → place i ≠ a) → mem' a = mem a

variable {addr : Nat → Option α} {place : Nat → α} {mem : α → β}

theorem store_placed [DecidableEq α] {v : Nat} {bs : List β}
    (hp : ∀ i, i < bs.length → addr (v + i) = some (place i))
    (hinj : ∀ i j, i < bs.length → j < bs.length → place i = place j → i = j) :
    ∃ mem', store addr mem v bs = some mem' ∧ Written mem mem' place bs := by
  induction bs generalizing mem v place with
  | nil => exact ⟨mem, rfl, ⟨fun i hi => absurd hi (Nat.not_lt_zero i), fun _ _ => rfl⟩⟩
  | cons b bs ih =>
    have hfirst : addr v = some (place 0) := hp 0 (Nat.zero_lt_succ _)
    obtain ⟨mem', hstore, hw⟩ := @ih (fun i => place (i + 1)) (Function.update mem (place 0) b) (v + 1)
      (by
        intro i hi
        rw [Nat.add_right_comm]
        exact hp (i + 1) (Nat.succ_lt_succ hi))
      (by
        intro i j hi hj he
        exact Nat.succ.inj (hinj (i + 1) (j + 1) (Nat.succ_lt_succ hi) (Nat.succ_lt_succ hj) he))
    have hkept : mem' (place 0) = b := by
      rw [hw.outside (place 0), Function.update_self]
      intro i hi he
      exact absurd (hinj (i + 1) 0 (Nat.succ_lt_succ hi) (Nat.zero_lt_succ _) he) (Nat.succ_ne_zero i)
    refine ⟨mem', by rw [store, hfirst]; exact hstore, ⟨?_, ?_⟩⟩
    · intro i hi
      cases i with
      | zero => simp [hkept]
      | succ i => exact hw.inside i (Nat.lt_of_succ_lt_succ hi)
    · intro a ha
      have hne : a ≠ place 0 := (ha 0 (Nat.zero_lt_succ _)).symm
      rw [hw.outside a (fun i hi => ha (i + 1) (Nat.succ_lt_succ hi)), Function.update_of_ne hne]

theorem store_outside [DecidableEq α] {v : Nat} {bs : List β}
    (hp : ∀ i, i < bs.length → addr (v + i) = some (place i)) :
    ∃ mem', store addr mem v bs = some mem' ∧
      ∀ a, (∀ i, i < bs.length → place i ≠ a) → mem' a = mem a := by
  induction bs generalizing mem v place with
  | nil => exact ⟨mem, rfl, fun _ _ => rfl⟩
  | cons b bs ih =>
    have hfirst : addr v = some (place 0) := hp 0 (Nat.zero_lt_succ _)
    obtain ⟨mem', hstore, hout⟩ := @ih (fun i => place (i + 1)) (Function.update mem (place 0) b) (v + 1)
      (by
        intro i hi
        rw [Nat.add_right_comm]
        exact hp (i + 1) (Nat.succ_lt_succ hi))
    refine ⟨mem', by rw [store, hfirst]; exact hstore, ?_⟩
    intro a ha
    have hne : a ≠ place 0 := (ha 0 (Nat.zero_lt_succ _)).symm
    rw [hout a (fun i hi => ha (i + 1) (Nat.succ_lt_succ hi)), Function.update_of_ne hne]

theorem load_placed {v k : Nat} (hp : ∀ i, i < k → addr (v + i) = some (place i)) :
    load addr mem v k = some ((List.range k).map fun i => mem (place i)) := by
  induction k generalizing v place with
  | zero => rfl
  | succ k ih =>
    have hfirst : addr v = some (place 0) := hp 0 (Nat.zero_lt_succ _)
    have hrest := @ih (fun i => place (i + 1)) (v + 1) (by
      intro i hi
      rw [Nat.add_right_comm]
      exact hp (i + 1) (Nat.succ_lt_succ hi))
    rw [load, hfirst, Option.bind_some, hrest, List.range_succ_eq_map]
    simp [Function.comp_def]

end Copies

section Journal
variable [DecidableEq κ]

/-- What can happen to an object: it comes into being with the items at its places, items
are written from `start` on, or read. -/
inductive Entry (κ β : Type*) where
  | fresh (x : κ) (initial : Nat → Option β)
  | wrote (x : κ) (start : Nat) (bs : List β)
  | read (x : κ) (start : Nat) (bs : List β)

/-- The last item written at an index of an object, or else the one it began with. -/
def contents : List (Entry κ β) → κ → Nat → Option β
  | [], _, _ => none
  | .fresh y initial :: es, x, i => if y = x then initial i else contents es x i
  | .wrote y start bs :: es, x, i =>
    if y = x ∧ start ≤ i ∧ i < start + bs.length then bs[i - start]? else contents es x i
  | .read _ _ _ :: es, x, i => contents es x i

/-- Every item that was read is the one last written at its index of its object. -/
def Coherent (es : List (Entry κ β)) : Prop :=
  ∀ later x start bs earlier, es = later ++ .read x start bs :: earlier →
    ∀ k, k < bs.length → bs[k]? = contents earlier x (start + k)

theorem coherent_nil : Coherent ([] : List (Entry κ β)) := by
  intro later x start bs earlier h
  simp at h

theorem Coherent.cons {es : List (Entry κ β)} {e : Entry κ β} (h : Coherent es)
    (he : ∀ x start bs, e = .read x start bs →
      ∀ k, k < bs.length → bs[k]? = contents es x (start + k)) : Coherent (e :: es) := by
  intro later x start bs earlier heq
  cases later with
  | nil =>
    obtain ⟨rfl, rfl⟩ := List.cons.inj heq
    exact he x start bs rfl
  | cons d later => exact h later x start bs earlier (List.cons.inj heq).2

/-- How many items an object has and where each of them lies. -/
structure Placement (κ α : Type*) where
  size : κ → Nat
  place : κ → Nat → α

/-- No place belongs to two items of live objects. -/
def Placement.Separate (l : Placement κ α) (live : List κ) : Prop :=
  ∀ x ∈ live, ∀ y ∈ live, ∀ i j, i < l.size x → j < l.size y → l.place x i = l.place y j →
    x = y ∧ i = j

/-- The memory agrees with the journal about the live objects. -/
def Holds (l : Placement κ α) (live : List κ) (mem : α → β) (es : List (Entry κ β)) : Prop :=
  ∀ x ∈ live, ∀ i, i < l.size x → contents es x i = some (mem (l.place x i))

variable {l : Placement κ α} {live live' : List κ} {mem mem' : α → β} {es : List (Entry κ β)} {x : κ}

theorem holds_nil (l : Placement κ α) (mem : α → β) (es : List (Entry κ β)) : Holds l [] mem es := by
  intro x hx
  cases hx

theorem Holds.subset (h : Holds l live mem es) (hsub : ∀ y ∈ live', y ∈ live) :
    Holds l live' mem es := fun y hy => h y (hsub y hy)

theorem Holds.frame (h : Holds l live mem es)
    (hsame : ∀ y ∈ live, ∀ i, i < l.size y → mem' (l.place y i) = mem (l.place y i)) :
    Holds l live mem' es := by
  intro y hy i hi
  rw [hsame y hy i hi]
  exact h y hy i hi

theorem Holds.read (h : Holds l live mem es) (start : Nat) (bs : List β) :
    Holds l live mem (.read x start bs :: es) := h

theorem Holds.fresh {initial : Nat → Option β} (h : Holds l live mem es)
    (hi : ∀ i, i < l.size x → initial i = some (mem (l.place x i))) :
    Holds l (x :: live) mem (.fresh x initial :: es) := by
  intro y hy i hlt
  rw [contents]
  by_cases he : x = y
  · subst he
    rw [if_pos rfl]
    exact hi i hlt
  · rw [if_neg he]
    cases List.mem_cons.mp hy with
    | inl hyx => exact absurd hyx.symm he
    | inr hmem => exact h y hmem i hlt

theorem Holds.wrote {start : Nat} {bs : List β} (h : Holds l live mem es) (hsep : l.Separate live)
    (hx : x ∈ live) (hin : start + bs.length ≤ l.size x)
    (hw : Written mem mem' (fun i => l.place x (start + i)) bs) :
    Holds l live mem' (.wrote x start bs :: es) := by
  intro y hy i hi
  rw [contents]
  by_cases hhit : x = y ∧ start ≤ i ∧ i < start + bs.length
  · obtain ⟨rfl, hle, hlt⟩ := hhit
    have hval := hw.inside (i - start) (by omega)
    rw [Nat.add_sub_cancel' hle] at hval
    rw [if_pos ⟨rfl, hle, hlt⟩, hval]
  · rw [if_neg hhit, hw.outside (l.place y i)]
    · exact h y hy i hi
    · intro k hk he
      obtain ⟨rfl, rfl⟩ := hsep x hx y hy (start + k) i (by omega) hi he
      exact hhit ⟨rfl, by omega, by omega⟩

theorem Holds.coherent {start k : Nat} (h : Holds l live mem es) (hc : Coherent es) (hx : x ∈ live)
    (hin : start + k ≤ l.size x) :
    Coherent (.read x start ((List.range k).map fun i => mem (l.place x (start + i))) :: es) := by
  apply hc.cons
  rintro y st bs he j hj
  obtain ⟨rfl, rfl, rfl⟩ := Entry.read.inj he
  rw [List.length_map, List.length_range] at hj
  rw [h x hx (start + j) (by omega)]
  simp [hj]

end Journal

end EspDrivers.MappedStore
