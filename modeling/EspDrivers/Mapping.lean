import Mathlib

/-! Address spaces as partial functions: mapping and unmapping a range, and when a
space is exactly the union of a list of regions. The targets are arbitrary. -/
namespace EspDrivers.Mapping

variable {β : Type*}

/-- A range of addresses with what it maps to, by offset. -/
structure Region (β : Type*) where
  base : Nat
  size : Nat
  image : Nat → β

namespace Region

def lookup (r : Region β) (v : Nat) : Option β :=
  if r.base ≤ v ∧ v < r.base + r.size then some (r.image (v - r.base)) else none

theorem lookup_inside {r : Region β} {v : Nat} (h : r.base ≤ v ∧ v < r.base + r.size) :
    r.lookup v = some (r.image (v - r.base)) := if_pos h

theorem lookup_outside {r : Region β} {v : Nat} (h : ¬ (r.base ≤ v ∧ v < r.base + r.size)) :
    r.lookup v = none := if_neg h

end Region

def mapRegion (m : Nat → Option β) (r : Region β) : Nat → Option β :=
  fun v => if r.base ≤ v ∧ v < r.base + r.size then some (r.image (v - r.base)) else m v

def unmap (m : Nat → Option β) (base size : Nat) : Nat → Option β :=
  fun v => if base ≤ v ∧ v < base + size then none else m v

/-- The space maps what the regions map, and nothing else. -/
def Covers (m : Nat → Option β) (rs : List (Region β)) : Prop :=
  ∀ v b, m v = some b ↔ ∃ r ∈ rs, r.lookup v = some b

/-- The space maps at least what the regions map. -/
def Contains (m : Nat → Option β) (rs : List (Region β)) : Prop :=
  ∀ r ∈ rs, ∀ v b, r.lookup v = some b → m v = some b

/-- No address lies in two regions of the list. -/
def Apart (rs : List (Region β)) : Prop :=
  rs.Pairwise fun r r' => ∀ v, r.lookup v = none ∨ r'.lookup v = none

theorem unmap_zero (m : Nat → Option β) (base : Nat) : unmap m base 0 = m := by
  funext v
  have hout : ¬ (base ≤ v ∧ v < base + 0) := by omega
  rw [unmap, if_neg hout]

variable {m : Nat → Option β} {r : Region β} {rs rs' : List (Region β)}

theorem covers_nil : Covers (fun _ => none : Nat → Option β) [] := by
  intro v b
  simp

theorem Covers.perm (h : Covers m rs) (hp : rs.Perm rs') : Covers m rs' := by
  intro v b
  rw [h v b]
  simp [hp.mem_iff]

theorem Apart.perm (h : Apart rs) (hp : rs.Perm rs') : Apart rs' := by
  apply List.Pairwise.perm h hp
  intro r r' hr v
  exact (hr v).symm

theorem Covers.cons (h : Covers m rs) (hfresh : ∀ v, r.base ≤ v → v < r.base + r.size → m v = none) :
    Covers (mapRegion m r) (r :: rs) := by
  intro v b
  simp only [mapRegion, List.mem_cons, exists_eq_or_imp]
  by_cases hv : r.base ≤ v ∧ v < r.base + r.size
  · have hnone : ¬ ∃ q ∈ rs, q.lookup v = some b := by
      intro hq
      have := (h v b).mpr hq
      rw [hfresh v hv.1 hv.2] at this
      cases this
    simp [hv, r.lookup_inside hv, hnone]
  · simp [hv, r.lookup_outside hv, h v b]

theorem Covers.contains (h : Covers m rs) : Contains m rs :=
  fun r hr v b hb => (h v b).mpr ⟨r, hr, hb⟩

theorem Contains.perm (h : Contains m rs) (hp : rs.Perm rs') : Contains m rs' :=
  fun r hr => h r (hp.mem_iff.mpr hr)

theorem Contains.cons (h : Contains m rs)
    (hfresh : ∀ v, r.base ≤ v → v < r.base + r.size → m v = none) :
    Contains (mapRegion m r) (r :: rs) := by
  intro q hq v b hb
  by_cases hv : r.base ≤ v ∧ v < r.base + r.size
  · cases List.mem_cons.mp hq with
    | inl he =>
      rw [he, r.lookup_inside hv] at hb
      rwa [mapRegion, if_pos hv]
    | inr hmem =>
      have hm := h q hmem v b hb
      rw [hfresh v hv.1 hv.2] at hm
      cases hm
  · cases List.mem_cons.mp hq with
    | inl he =>
      rw [he, r.lookup_outside hv] at hb
      cases hb
    | inr hmem =>
      rw [mapRegion, if_neg hv]
      exact h q hmem v b hb

theorem Contains.unmap {n : Nat} (h : Contains m (r :: rs)) (ha : Apart (r :: rs))
    (hn : n ≤ r.size) : Contains (Mapping.unmap m r.base n) rs := by
  intro q hq v b hb
  have hout : ¬ (r.base ≤ v ∧ v < r.base + n) := by
    intro hin
    have hor := List.rel_of_pairwise_cons ha hq v
    rw [r.lookup_inside (by omega), hb] at hor
    simp at hor
  rw [Mapping.unmap, if_neg hout]
  exact h q (List.mem_cons_of_mem r hq) v b hb

theorem Apart.cons (h : Apart rs) (hc : Contains m rs)
    (hfresh : ∀ v, r.base ≤ v → v < r.base + r.size → m v = none) : Apart (r :: rs) := by
  refine List.pairwise_cons.mpr ⟨?_, h⟩
  intro q hq v
  by_cases hv : r.base ≤ v ∧ v < r.base + r.size
  · right
    cases hb : q.lookup v with
    | none => rfl
    | some b =>
      have hm := hc q hq v b hb
      rw [hfresh v hv.1 hv.2] at hm
      cases hm
  · exact Or.inl (r.lookup_outside hv)

theorem Covers.unmap (h : Covers m (r :: rs)) (ha : Apart (r :: rs)) :
    Covers (unmap m r.base r.size) rs := by
  intro v b
  have hr : ∀ q ∈ rs, ∀ v, r.lookup v = none ∨ q.lookup v = none := (List.pairwise_cons.mp ha).1
  have hv := h v b
  simp only [List.mem_cons, exists_eq_or_imp] at hv
  by_cases hin : r.base ≤ v ∧ v < r.base + r.size
  · have hnone : ¬ ∃ q ∈ rs, q.lookup v = some b := by
      intro hq
      obtain ⟨q, hq, hb⟩ := hq
      have hor := hr q hq v
      rw [r.lookup_inside hin, hb] at hor
      simp at hor
    simp [Mapping.unmap, hin, hnone]
  · rw [r.lookup_outside hin] at hv
    simpa [Mapping.unmap, hin] using hv

theorem Covers.not_unmap {n k : Nat} (h : Covers m (r :: rs)) (ha : Apart (r :: rs))
    (hn : n ≤ k) (hk : k < r.size) : ¬ Covers (Mapping.unmap m r.base n) rs := by
  intro hc
  have hin : r.base ≤ r.base + k ∧ r.base + k < r.base + r.size := by omega
  have hlook := r.lookup_inside hin
  have hm : m (r.base + k) = some (r.image (r.base + k - r.base)) :=
    (h _ _).mpr ⟨r, by simp, hlook⟩
  have hkeep : Mapping.unmap m r.base n (r.base + k) = m (r.base + k) := by
    simp only [Mapping.unmap]
    rw [if_neg (by omega)]
  obtain ⟨q, hq, hb⟩ := (hc _ _).mp (hkeep.trans hm)
  have hor := List.rel_of_pairwise_cons ha hq (r.base + k)
  rw [hlook, hb] at hor
  simp at hor

end EspDrivers.Mapping
