import Mathlib

/-! Circular doubly linked lists in memory. Each node has the addresses of the node after
it and of the node before it, and a list is known by its head, which is no element of
it. Addresses are of an arbitrary type. -/
namespace EspDrivers.CircularList

variable {α : Type*}

structure Links (α : Type*) where
  next : α → α
  prev : α → α

section Segments

/-- From `a` the links lead through `xs` to `b`, and from `b` back to `a`. -/
def Linked (m : Links α) : α → List α → α → Prop
  | a, [], b => m.next a = b ∧ m.prev b = a
  | a, x :: xs, b => m.next a = x ∧ m.prev x = a ∧ Linked m x xs b

variable {m m' : Links α} {a b x : α} {xs ys zs : List α}

theorem linked_append : Linked m a (ys ++ x :: zs) b ↔ Linked m a ys x ∧ Linked m x zs b := by
  induction ys generalizing a with
  | nil => exact and_assoc.symm
  | cons y ys ih =>
    rw [List.cons_append, Linked, Linked, ih]
    constructor
    · intro h
      exact ⟨⟨h.1, h.2.1, h.2.2.1⟩, h.2.2.2⟩
    · intro h
      exact ⟨h.1.1, h.1.2.1, h.1.2.2, h.2⟩

/-- A segment reads `next` of all its nodes but the last, and `prev` of all but the first. -/
theorem Linked.congr (h : Linked m a xs b) (hnext : ∀ y ∈ a :: xs, m'.next y = m.next y)
    (hprev : ∀ y ∈ xs ++ [b], m'.prev y = m.prev y) : Linked m' a xs b := by
  induction xs generalizing a with
  | nil =>
    refine ⟨?_, ?_⟩
    · rw [hnext a (by simp)]
      exact h.1
    · rw [hprev b (by simp)]
      exact h.2
  | cons x xs ih =>
    refine ⟨?_, ?_, ?_⟩
    · rw [hnext a (by simp)]
      exact h.1
    · rw [hprev x (by simp)]
      exact h.2.1
    · apply ih h.2.2
      · intro y hy
        exact hnext y (List.mem_cons_of_mem a hy)
      · intro y hy
        exact hprev y (List.mem_cons_of_mem x hy)

theorem Linked.next_mem (h : Linked m a xs b) : m.next a ∈ xs ++ [b] := by
  cases xs with
  | nil => simp [h.1]
  | cons x xs => simp [h.1]

theorem Linked.prev_mem (h : Linked m a xs b) : m.prev b ∈ a :: xs := by
  induction xs generalizing a with
  | nil => simp [h.2]
  | cons x xs ih => exact List.mem_cons_of_mem a (ih h.2.2)

theorem Linked.unique (h : Linked m a xs b) (h' : Linked m a ys b) (hx : b ∉ xs)
    (hy : b ∉ ys) : xs = ys := by
  induction xs generalizing a ys with
  | nil =>
    cases ys with
    | nil => rfl
    | cons y ys =>
      have heq : y = b := h'.1.symm.trans h.1
      exact absurd (heq ▸ List.mem_cons_self) hy
  | cons x xs ih =>
    cases ys with
    | nil =>
      have heq : x = b := h.1.symm.trans h'.1
      exact absurd (heq ▸ List.mem_cons_self) hx
    | cons y ys =>
      obtain rfl : x = y := h.1.symm.trans h'.1
      rw [ih h.2.2 h'.2.2 (fun hmem => hx (List.mem_cons_of_mem x hmem))
        (fun hmem => hy (List.mem_cons_of_mem x hmem))]

structure Ring (m : Links α) (head : α) (xs : List α) : Prop where
  linked : Linked m head xs head
  nodup : (head :: xs).Nodup

theorem Ring.unique {head : α} (h : Ring m head xs) (h' : Ring m head ys) : xs = ys :=
  h.linked.unique h'.linked (List.nodup_cons.mp h.nodup).1 (List.nodup_cons.mp h'.nodup).1

end Segments

section Operations
variable [DecidableEq α]

def initHead (m : Links α) (head : α) : Links α :=
  ⟨Function.update m.next head head, Function.update m.prev head head⟩

/-- `new` goes behind the head. -/
def listAdd (m : Links α) (new head : α) : Links α where
  next := Function.update (Function.update m.next new (m.next head)) head new
  prev := Function.update (Function.update m.prev (m.next head) new) new head

def join (m : Links α) (p n : α) : Links α :=
  ⟨Function.update m.next p n, Function.update m.prev n p⟩

/-- The neighbours of `entry` are joined, and its own links are overwritten. -/
def listDel (poison : α × α) (m : Links α) (entry : α) : Links α :=
  let m' := join m (m.prev entry) (m.next entry)
  ⟨Function.update m'.next entry poison.1, Function.update m'.prev entry poison.2⟩

/-- A cursor goes from `node` on until it is back at the head or stands on a node that is
wanted. The fuel bounds its steps. -/
def walk (m : Links α) (head : α) (wanted : α → Bool) : Nat → α → Option α
  | 0, _ => none
  | fuel + 1, node =>
    if node = head then some head
    else if wanted node then some node
    else walk m head wanted fuel (m.next node)

variable {m : Links α} {a b x : α} {ys zs : List α}

theorem Linked.bypass (hl : Linked m a ys x) (hr : Linked m x zs b)
    (hn : (a :: (ys ++ x :: zs)).Nodup) (hb : b ∉ ys ++ x :: zs) :
    Linked (join m (m.prev x) (m.next x)) a (ys ++ zs) b := by
  induction ys generalizing a with
  | nil =>
    have hp : m.prev x = a := hl.2
    cases zs with
    | nil =>
      have hnb : m.next x = b := hr.1
      rw [hp, hnb]
      exact ⟨Function.update_self .., Function.update_self ..⟩
    | cons z zs =>
      have hnz : m.next x = z := hr.1
      obtain ⟨ha, hn⟩ := List.nodup_cons.mp hn
      obtain ⟨-, hn⟩ := List.nodup_cons.mp hn
      obtain ⟨hz, -⟩ := List.nodup_cons.mp hn
      rw [hp, hnz]
      refine ⟨Function.update_self .., Function.update_self .., ?_⟩
      apply hr.2.2.congr
      · intro y hy
        refine Function.update_of_ne ?_ ..
        intro heq
        subst heq
        exact ha (List.mem_cons_of_mem x hy)
      · intro y hy
        refine Function.update_of_ne ?_ ..
        intro heq
        subst heq
        cases List.mem_append.mp hy with
        | inl hy => exact hz hy
        | inr hy =>
          rw [List.mem_singleton.mp hy] at hb
          simp at hb
  | cons y ys ih =>
    obtain ⟨ha, hn⟩ := List.nodup_cons.mp hn
    have hrest := ih hl.2.2 hn (fun hmem => hb (List.mem_cons_of_mem y hmem))
    have hy := (List.nodup_cons.mp hn).1
    refine ⟨?_, ?_, hrest⟩
    · have hne : a ≠ m.prev x := by
        intro heq
        have hmem := hl.2.2.prev_mem
        rw [← heq] at hmem
        exact ha (List.mem_append_left _ hmem)
      exact (Function.update_of_ne hne ..).trans hl.1
    · have hne : y ≠ m.next x := by
        intro heq
        have hmem := hr.next_mem
        rw [← heq] at hmem
        cases List.mem_append.mp hmem with
        | inl hmem => exact hy (List.mem_append_right _ (List.mem_cons_of_mem x hmem))
        | inr hmem =>
          rw [← List.mem_singleton.mp hmem] at hb
          exact hb List.mem_cons_self
      exact (Function.update_of_ne hne ..).trans hl.2.1

end Operations

section Rings
variable [DecidableEq α]

variable {m : Links α} {poison : α × α} {head x : α} {xs : List α}

theorem ring_initHead (m : Links α) (head : α) : Ring (initHead m head) head [] :=
  ⟨⟨Function.update_self .., Function.update_self ..⟩, by simp⟩

theorem Ring.listAdd (h : Ring m head xs) (hx : x ∉ head :: xs) :
    Ring (listAdd m x head) head (x :: xs) := by
  obtain ⟨hhead, hxs⟩ := not_or.mp (fun hor => hx (List.mem_cons.mpr hor))
  obtain ⟨hnot, hn⟩ := List.nodup_cons.mp h.nodup
  refine ⟨⟨Function.update_self .., Function.update_self .., ?_⟩, ?_⟩
  · cases xs with
    | nil =>
      have hnext : m.next head = head := h.linked.1
      refine ⟨?_, ?_⟩
      · simp [CircularList.listAdd, Function.update_of_ne hhead, hnext]
      · simp [CircularList.listAdd, Function.update_of_ne (Ne.symm hhead), hnext]
    | cons y ys =>
      have hnext : m.next head = y := h.linked.1
      have hyx : y ≠ x := fun heq => hxs (heq ▸ List.mem_cons_self)
      refine ⟨?_, ?_, ?_⟩
      · simp [CircularList.listAdd, Function.update_of_ne hhead, hnext]
      · simp [CircularList.listAdd, Function.update_of_ne hyx, hnext]
      · apply h.linked.2.2.congr
        · intro z hz
          have hzx : z ≠ x := fun heq => hxs (heq ▸ hz)
          have hzh : z ≠ head := fun heq => hnot (heq ▸ hz)
          simp [CircularList.listAdd, Function.update_of_ne hzx, Function.update_of_ne hzh]
        · intro z hz
          have hzx : z ≠ x := by
            intro heq
            subst heq
            cases List.mem_append.mp hz with
            | inl hz => exact hxs (List.mem_cons_of_mem y hz)
            | inr hz => exact hhead (List.mem_singleton.mp hz)
          have hzy : z ≠ y := by
            intro heq
            subst heq
            cases List.mem_append.mp hz with
            | inl hz => exact (List.nodup_cons.mp hn).1 hz
            | inr hz => exact hnot (List.mem_singleton.mp hz ▸ List.mem_cons_self)
          simp [CircularList.listAdd, Function.update_of_ne hzx, hnext, Function.update_of_ne hzy]
  · refine List.nodup_cons.mpr ⟨?_, List.nodup_cons.mpr ⟨hxs, hn⟩⟩
    intro hmem
    cases List.mem_cons.mp hmem with
    | inl heq => exact hhead heq.symm
    | inr hmem => exact hnot hmem

theorem Ring.listDel (h : Ring m head xs) (hx : x ∈ xs) :
    Ring (listDel poison m x) head (xs.erase x) := by
  obtain ⟨hnot, hn⟩ := List.nodup_cons.mp h.nodup
  have hsub : (head :: xs.erase x).Sublist (head :: xs) := List.erase_sublist.cons_cons head
  refine ⟨?_, h.nodup.sublist hsub⟩
  obtain ⟨ys, zs, rfl⟩ := List.append_of_mem hx
  have hys : x ∉ ys := by
    intro hmem
    exact (List.nodup_append.mp hn).2.2 x hmem x List.mem_cons_self rfl
  obtain ⟨hl, hr⟩ := linked_append.mp h.linked
  have hjoin := hl.bypass hr h.nodup hnot
  have hgone : (ys ++ x :: zs).erase x = ys ++ zs := by
    rw [List.erase_append_right _ hys, List.erase_cons_head]
  have hout : x ∉ ys ++ zs := hgone ▸ fun hmem => (hn.mem_erase_iff.mp hmem).1 rfl
  have hhead : x ≠ head := fun heq => hnot (heq ▸ hx)
  rw [hgone]
  apply hjoin.congr
  · intro y hy
    refine Function.update_of_ne ?_ ..
    intro heq
    subst heq
    cases List.mem_cons.mp hy with
    | inl hy => exact hhead hy
    | inr hy => exact hout hy
  · intro y hy
    refine Function.update_of_ne ?_ ..
    intro heq
    subst heq
    cases List.mem_append.mp hy with
    | inl hy => exact hout hy
    | inr hy => exact hhead (List.mem_singleton.mp hy)

theorem walk_linked {a : α} {wanted : α → Bool} {fuel : Nat} (h : Linked m a xs head)
    (hnot : head ∉ xs) (hfuel : xs.length < fuel) :
    walk m head wanted fuel (m.next a) = some ((xs.find? wanted).getD head) := by
  induction xs generalizing a fuel with
  | nil =>
    obtain ⟨fuel, rfl⟩ := Nat.exists_eq_succ_of_ne_zero (Nat.ne_of_gt hfuel)
    simp [walk, h.1]
  | cons x xs ih =>
    obtain ⟨fuel, rfl⟩ := Nat.exists_eq_succ_of_ne_zero (Nat.ne_of_gt (Nat.zero_lt_of_lt hfuel))
    have hx : x ≠ head := fun heq => hnot (heq ▸ List.mem_cons_self)
    rw [h.1, walk, if_neg hx]
    by_cases hw : wanted x = true
    · simp [hw]
    · rw [if_neg hw, ih h.2.2 (fun hmem => hnot (List.mem_cons_of_mem x hmem))
        (Nat.lt_of_succ_lt_succ hfuel)]
      simp [hw]

/-- The cursor ends on the first node that is wanted, or else on the head. -/
theorem Ring.walk {wanted : α → Bool} {fuel : Nat} (h : Ring m head xs)
    (hfuel : xs.length < fuel) :
    walk m head wanted fuel (m.next head) = some ((xs.find? wanted).getD head) :=
  walk_linked h.linked (List.nodup_cons.mp h.nodup).1 hfuel

end Rings

end EspDrivers.CircularList
