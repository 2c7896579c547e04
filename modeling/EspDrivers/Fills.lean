import EspDrivers.Buffers

/-! Loops that fill consecutive cells of a buffer. -/
namespace EspDrivers.Fills
open Buffers

variable {α σ : Type*} {b c : Buffer α} {base len k n : Nat} {new : Nat → α}

/-- The `len` cells from `base` on hold new values. -/
def fill (b : Buffer α) (base len : Nat) (new : Nat → α) : Buffer α :=
  ⟨b.size, fun k => if base ≤ k ∧ k < base + len then new (k - base) else b.cell k⟩

@[simp] theorem fill_size (b : Buffer α) (base len : Nat) (new : Nat → α) :
    (fill b base len new).size = b.size := rfl

theorem fill_inside (h : k < len) : (fill b base len new).cell (base + k) = new k := by
  simp [fill, h]

theorem fill_outside (h : k < base ∨ base + len ≤ k) : (fill b base len new).cell k = b.cell k :=
  if_neg (by omega)

theorem fill_zero (b : Buffer α) (base : Nat) (new : Nat → α) : fill b base 0 new = b := by
  have hnone (k : Nat) : ¬(base ≤ k ∧ k < base + 0) := by omega
  simp only [fill, hnone, if_false]

theorem update_fill (b : Buffer α) (base len : Nat) (new : Nat → α) :
    (⟨b.size, Function.update (fill b base len new).cell (base + len) (new len)⟩ : Buffer α) =
      fill b base (len + 1) new := by
  refine Buffer.ext rfl ?_
  funext k
  change Function.update (fill b base len new).cell (base + len) (new len) k = _
  rw [Function.update_apply]
  by_cases hk : k = base + len
  · simp [fill, hk]
  · have hiff : base ≤ k ∧ k < base + (len + 1) ↔ base ≤ k ∧ k < base + len := by omega
    simp only [if_neg hk, fill, hiff]

theorem fill_fill (b : Buffer α) (base len m : Nat) (new : Nat → α) :
    fill (fill b base len new) (base + len) m (fun k => new (len + k)) =
      fill b base (len + m) new := by
  refine Buffer.ext rfl ?_
  funext k
  by_cases hlow : base ≤ k ∧ k < base + len
  · have hhigh : ¬(base + len ≤ k ∧ k < base + len + m) := by omega
    have hall : base ≤ k ∧ k < base + (len + m) := by omega
    simp only [fill, hlow, hhigh, hall, and_self, if_true, if_false]
  · by_cases hhigh : base + len ≤ k ∧ k < base + len + m
    · have hall : base ≤ k ∧ k < base + (len + m) := by omega
      have hk : len + (k - (base + len)) = k - base := by omega
      simp only [fill, hhigh, hall, and_self, if_true, hk]
    · have hall : ¬(base ≤ k ∧ k < base + (len + m)) := by omega
      simp only [fill, hlow, hhigh, hall, if_false]

/-- The round `i` stores to the cell `base + i` and sees the cells from there on as they were. -/
theorem foldlM_fill {body : Buffer α → Nat → Option (Buffer α)} (n : Nat)
    (h : base + n ≤ b.size)
    (hbody : ∀ i < n, ∀ c : Buffer α, c.size = b.size → (∀ k, base + i ≤ k → c.cell k = b.cell k) →
      body c i = c.store (base + i) (new i)) :
    (List.range n).foldlM body b = some (fill b base n new) := by
  have hends : ∃ c, (List.range n).foldlM body b = some c ∧ c = fill b base n new := by
    refine foldlM_range_ends n (fun i c => c = fill b base i new) (fill_zero b base new).symm ?_
    intro i hi c hc
    subst hc
    have hkept (k : Nat) (hk : base + i ≤ k) : (fill b base i new).cell k = b.cell k :=
      fill_outside (Or.inr hk)
    have hlt : base + i < (fill b base i new).size :=
      Nat.lt_of_lt_of_le (Nat.add_lt_add_left hi base) h
    refine ⟨fill b base (i + 1) new, ?_, rfl⟩
    rw [hbody i hi (fill b base i new) rfl hkept, Buffer.store_eq hlt]
    exact congrArg some (update_fill b base i new)
  obtain ⟨c, hc, rfl⟩ := hends
  exact hc

theorem foldlM_fill_values {value : Nat → Option α} (h : base + n ≤ b.size)
    (hvalue : ∀ i < n, value i = some (new i)) :
    (List.range n).foldlM (fun c i => do c.store (base + i) (← value i)) b =
      some (fill b base n new) := by
  refine foldlM_fill n h ?_
  intro i hi c _ _
  rw [hvalue i hi]
  rfl

theorem foldlM_range_nest (f : σ → Nat → Option σ) (n m : Nat) (s : σ) :
    (List.range n).foldlM (fun s i => (List.range m).foldlM (fun s j => f s (i * m + j)) s) s =
      (List.range (n * m)).foldlM f s := by
  induction n with
  | zero => simp
  | succ n ih =>
    rw [List.range_succ, List.foldlM_append, ih, Nat.succ_mul, List.range_add,
      List.foldlM_append]
    congr 1
    funext t
    simp [List.foldlM_map]

theorem foldlM_pair {ι τ : Type*} {f : σ → ι → Option σ} {g : τ → ι → Option τ}
    {body : σ × τ → ι → Option (σ × τ)} {js : List ι} {s s' : σ} {t t' : τ}
    (hbody : ∀ u v j, body (u, v) j = (f u j).bind fun u' => (g v j).map fun v' => (u', v'))
    (hs : js.foldlM f s = some s') (ht : js.foldlM g t = some t') :
    js.foldlM body (s, t) = some (s', t') := by
  induction js generalizing s t with
  | nil =>
    obtain rfl := Option.some.inj hs
    obtain rfl := Option.some.inj ht
    rfl
  | cons j js ih =>
    rw [List.foldlM_cons] at hs ht
    obtain ⟨u, hu, hs⟩ := Option.bind_eq_some_iff.mp hs
    obtain ⟨v, hv, ht⟩ := Option.bind_eq_some_iff.mp ht
    rw [List.foldlM_cons, hbody, hu, hv]
    exact ih hs ht

end EspDrivers.Fills
