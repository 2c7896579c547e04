import EspDrivers.Buffers

/-! Rearrangements of the cells of a buffer. A cut is a place that no cell has to cross when
the buffer is sorted. -/
namespace EspDrivers.Buffers

variable {α β γ : Type*}

section Cells
variable {b : Buffer α} {i j k : Nat}

def Buffer.cells (b : Buffer α) : List α := (List.range b.size).map b.cell

def Buffer.map (f : α → β) (b : Buffer α) : Buffer β := ⟨b.size, fun k => f (b.cell k)⟩

theorem Buffer.load_map (f : α → β) (b : Buffer α) (k : Nat) :
    (b.map f).load k = (b.load k).map f := by
  unfold load
  by_cases h : k < b.size
  · rw [if_pos h, if_pos (show k < (b.map f).size from h)]
    rfl
  · rw [if_neg h, if_neg (show ¬ k < (b.map f).size from h)]
    rfl

theorem Buffer.store_map (f : α → β) (b : Buffer α) (k : Nat) (v : α) :
    (b.map f).store k (f v) = (b.store k v).map (Buffer.map f) := by
  unfold store
  by_cases h : k < b.size
  · rw [if_pos h, if_pos (show k < (b.map f).size from h)]
    refine congrArg some (Buffer.ext rfl ?_)
    exact (Function.comp_update f b.cell k v).symm
  · rw [if_neg h, if_neg (show ¬ k < (b.map f).size from h)]
    rfl

def Buffer.swap (b : Buffer α) (i j : Nat) : Buffer α := ⟨b.size, fun k => b.cell (Equiv.swap i j k)⟩

@[simp] theorem Buffer.swap_left (b : Buffer α) (i j : Nat) : (b.swap i j).cell i = b.cell j :=
  congrArg b.cell (Equiv.swap_apply_left i j)

@[simp] theorem Buffer.swap_right (b : Buffer α) (i j : Nat) : (b.swap i j).cell j = b.cell i :=
  congrArg b.cell (Equiv.swap_apply_right i j)

theorem Buffer.swap_of_ne (hi : k ≠ i) (hj : k ≠ j) : (b.swap i j).cell k = b.cell k :=
  congrArg b.cell (Equiv.swap_apply_of_ne_of_ne hi hj)

theorem Buffer.update_update (b : Buffer α) (i j : Nat) :
    (⟨b.size, Function.update (Function.update b.cell i (b.cell j)) j (b.cell i)⟩ : Buffer α) =
      b.swap i j := by
  refine Buffer.ext rfl ?_
  funext k
  by_cases hj : k = j
  · subst hj
    simp
  · by_cases hi : k = i
    · subst hi
      simp [hj]
    · simp [hi, hj, swap_of_ne]

end Cells

section Rearrangements
variable {S T : Set Nat} {b c d : Buffer α} {i j k : Nat}

/-- The cells in `S` change places with each other. -/
structure Rearranged (S : Set Nat) (b c : Buffer α) : Prop where
  size : c.size = b.size
  places : ∃ σ : Equiv.Perm Nat, (∀ k ∉ S, σ k = k) ∧ ∀ k, c.cell k = b.cell (σ k)

theorem Rearranged.refl (S : Set Nat) (b : Buffer α) : Rearranged S b b :=
  ⟨rfl, Equiv.refl Nat, fun _ _ => rfl, fun _ => rfl⟩

theorem Rearranged.trans (h : Rearranged S b c) (h' : Rearranged S c d) : Rearranged S b d := by
  obtain ⟨σ, hσ, hc⟩ := h.places
  obtain ⟨τ, hτ, hd⟩ := h'.places
  refine ⟨h'.size.trans h.size, τ.trans σ, ?_, ?_⟩
  · intro k hk
    rw [Equiv.trans_apply, hτ k hk, hσ k hk]
  · intro k
    rw [hd, hc, Equiv.trans_apply]

theorem Rearranged.mono (h : Rearranged S b c) (hST : S ⊆ T) : Rearranged T b c := by
  obtain ⟨σ, hσ, hc⟩ := h.places
  exact ⟨h.size, σ, fun k hk => hσ k fun hS => hk (hST hS), hc⟩

theorem rearranged_swap (b : Buffer α) (hi : i ∈ S) (hj : j ∈ S) :
    Rearranged S b (b.swap i j) := by
  refine ⟨rfl, Equiv.swap i j, ?_, fun k => rfl⟩
  intro k hk
  refine Equiv.swap_apply_of_ne_of_ne ?_ ?_
  · rintro rfl
    exact hk hi
  · rintro rfl
    exact hk hj

theorem Rearranged.outside (h : Rearranged S b c) (hk : k ∉ S) : c.cell k = b.cell k := by
  obtain ⟨σ, hσ, hc⟩ := h.places
  rw [hc, hσ k hk]

theorem Rearranged.inside (h : Rearranged S b c) (hk : k ∈ S) : ∃ j ∈ S, c.cell k = b.cell j := by
  obtain ⟨σ, hσ, hc⟩ := h.places
  refine ⟨σ k, ?_, hc k⟩
  by_contra hS
  have hfix : σ k = k := σ.injective (hσ (σ k) hS)
  rw [hfix] at hS
  exact hS hk

theorem Rearranged.target (h : Rearranged S b c) (hk : k ∈ S) : ∃ j ∈ S, c.cell j = b.cell k := by
  obtain ⟨σ, hσ, hc⟩ := h.places
  refine ⟨σ.symm k, ?_, by rw [hc, σ.apply_symm_apply]⟩
  by_contra hS
  have hfix := hσ (σ.symm k) hS
  rw [σ.apply_symm_apply] at hfix
  rw [← hfix] at hS
  exact hS hk

/-- Every cell of a part that `S` does not leave comes from that part. -/
theorem Rearranged.source (h : Rearranged S b c) (hT : S ⊆ T ∨ Disjoint S T) (hk : k ∈ T) :
    ∃ j ∈ T, c.cell k = b.cell j := by
  by_cases hS : k ∈ S
  · obtain ⟨j, hj, hcell⟩ := h.inside hS
    cases hT with
    | inl hsub => exact ⟨j, hsub hj, hcell⟩
    | inr happ => exact absurd hk (Set.disjoint_left.mp happ hS)
  · exact ⟨k, hk, h.outside hS⟩

theorem Rearranged.perm (h : Rearranged S b c) (hS : S ⊆ Set.Iio b.size) :
    c.cells.Perm b.cells := by
  obtain ⟨σ, hσ, hc⟩ := h.places
  have hlt (k : Nat) : σ k < b.size ↔ k < b.size := by
    by_cases hk : k < b.size
    · refine iff_of_true ?_ hk
      by_contra hout
      have hfix : σ k = k := σ.injective (hσ (σ k) fun hmem => hout (hS hmem))
      rw [hfix] at hout
      exact hout hk
    · rw [hσ k fun hmem => hk (hS hmem)]
  have hrange : ((List.range b.size).map σ).Perm (List.range b.size) := by
    refine (List.perm_ext_iff_of_nodup ?_ List.nodup_range).mpr ?_
    · exact List.nodup_range.map σ.injective
    · intro k
      rw [List.mem_map, List.mem_range]
      constructor
      · rintro ⟨j, hj, rfl⟩
        exact (hlt j).mpr (List.mem_range.mp hj)
      · intro hk
        refine ⟨σ.symm k, List.mem_range.mpr ?_, σ.apply_symm_apply k⟩
        rwa [← hlt, σ.apply_symm_apply]
  have hcells : c.cells = ((List.range b.size).map σ).map b.cell := by
    rw [Buffer.cells, h.size, List.map_map]
    exact List.map_congr_left fun k _ => hc k
  rw [hcells]
  exact hrange.map b.cell

end Rearrangements

section Cuts
variable [LinearOrder β] {key : α → β} {S : Set Nat} {b c : Buffer α} {s : Nat}

/-- No cell before `s` is greater than one from `s` on. -/
def Cut (key : α → β) (b : Buffer α) (s : Nat) : Prop :=
  ∀ i < s, ∀ j, s ≤ j → j < b.size → key (b.cell i) ≤ key (b.cell j)

theorem cut_zero (key : α → β) (b : Buffer α) : Cut key b 0 := by
  intro i hi
  exact absurd hi (Nat.not_lt_zero i)

theorem cut_size (key : α → β) (b : Buffer α) : Cut key b b.size := by
  intro i _ j hj hlt
  omega

theorem Cut.rearranged (h : Cut key b s) (hr : Rearranged S b c)
    (hS : S ⊆ Set.Iio s ∨ S ⊆ Set.Ico s b.size) : Cut key c s := by
  intro i hi j hj hlt
  rw [hr.size] at hlt
  have hlow : S ⊆ Set.Iio s ∨ Disjoint S (Set.Iio s) := by
    refine hS.imp id fun hsub => Set.disjoint_left.mpr ?_
    intro k hk hks
    exact absurd (hsub hk).1 (Nat.not_le.mpr hks)
  have hhigh : S ⊆ Set.Ico s b.size ∨ Disjoint S (Set.Ico s b.size) := by
    refine hS.symm.imp id fun hsub => Set.disjoint_left.mpr ?_
    intro k hk hks
    exact absurd hks.1 (Nat.not_le.mpr (hsub hk))
  obtain ⟨i', hi', hci⟩ := hr.source hlow hi
  obtain ⟨j', hj', hcj⟩ := hr.source hhigh ⟨hj, hlt⟩
  rw [hci, hcj]
  exact h i' hi' j' hj'.1 hj'.2

/-- Two neighbours that are in the wrong order change places. -/
def Sifted (key : α → β) (b c : Buffer α) : Prop :=
  ∃ e, e + 1 < b.size ∧ key (b.cell (e + 1)) < key (b.cell e) ∧ c = b.swap e (e + 1)

theorem Sifted.size (h : Sifted key b c) : c.size = b.size := by
  obtain ⟨e, -, -, rfl⟩ := h
  rfl

/-- Neighbours on the two sides of a cut are in order, so that a step that sifts crosses none. -/
theorem Sifted.cut {tag : α → Nat} (h : Sifted key b c) (hcut : Cut key b s)
    (htag : ∀ j, tag (b.cell j) < s ↔ j < s) :
    Cut key c s ∧ ∀ j, tag (c.cell j) < s ↔ j < s := by
  obtain ⟨e, he, hlt, rfl⟩ := h
  have hs : s ≠ e + 1 := by
    rintro rfl
    exact absurd (hcut e (Nat.lt_succ_self e) (e + 1) le_rfl he) (not_le.mpr hlt)
  constructor
  · refine hcut.rearranged (rearranged_swap (S := Set.Icc e (e + 1)) b (by simp) (by simp)) ?_
    by_cases hside : e + 1 < s
    · refine Or.inl ?_
      intro k hk
      exact Nat.lt_of_le_of_lt hk.2 hside
    · refine Or.inr ?_
      intro k hk
      have hk' := hk.1
      exact ⟨by omega, Nat.lt_of_le_of_lt hk.2 he⟩
  · intro j
    by_cases hj : j = e
    · subst hj
      rw [Buffer.swap_left, htag]
      omega
    · by_cases hj' : j = e + 1
      · subst hj'
        rw [Buffer.swap_right, htag]
        omega
      · rw [Buffer.swap_of_ne hj hj', htag]

abbrev Siftings (key : α → β) : Buffer α → Buffer α → Prop := Relation.ReflTransGen (Sifted key)

theorem Siftings.size (h : Siftings key b c) : c.size = b.size := by
  induction h with
  | refl => rfl
  | tail _ hstep ih => exact hstep.size.trans ih

theorem Siftings.rearranged (h : Siftings key b c) : Rearranged (Set.Iio b.size) b c := by
  induction h with
  | refl => exact Rearranged.refl _ b
  | tail hrun hstep ih =>
    obtain ⟨e, he, -, rfl⟩ := hstep
    rw [Siftings.size hrun] at he
    refine ih.trans (rearranged_swap _ ?_ he)
    exact Nat.lt_of_succ_lt he

theorem Siftings.cut (tag : α → Nat) (h : Siftings key b c) (hcut : Cut key b s)
    (htag : ∀ j, tag (b.cell j) < s ↔ j < s) :
    Cut key c s ∧ ∀ j, tag (c.cell j) < s ↔ j < s := by
  induction h with
  | refl => exact ⟨hcut, htag⟩
  | tail _ hstep ih => exact hstep.cut ih.1 ih.2

end Cuts

end EspDrivers.Buffers
