import Mathlib

/-! Walks of a binary shift register. Each step drops the oldest digit and takes a new one in, and
its weight is looked up in tables that repeat in time. `costs` is a lower bound of the weight of
all walks of a length at once, computed backwards over the layers. -/
namespace EspDrivers.RegisterWalks

variable {H c n L T a b : Nat} {tables : List (List Nat)} {z : Nat → Nat}

section Lists
variable {ws l : List Nat} {i s : Nat}

def pairs : List Nat → List (Nat × Nat)
  | x :: y :: l => (x, y) :: pairs l
  | _ => []

theorem length_pairs (l : List Nat) : (pairs l).length = l.length / 2 := by
  fun_induction pairs l with
  | case1 x y l ih =>
    simp only [List.length_cons, ih]
    omega
  | case2 l h =>
    match l with
    | [] => rfl
    | [x] => simp
    | x :: y :: l => exact absurd rfl (h x y l)

theorem getElem?_pairs (h : 2 * i + 1 < l.length) :
    (pairs l)[i]? = some (l.getD (2 * i) 0, l.getD (2 * i + 1) 0) := by
  induction i generalizing l with
  | zero =>
    match l, h with
    | x :: y :: l, _ => rfl
  | succ i ih =>
    match l, h with
    | x :: y :: l, h =>
      have hrest := ih (l := l) (by simp only [List.length_cons] at h; omega)
      simpa [pairs, Nat.mul_succ] using hrest

def relax (ws l : List Nat) : List Nat :=
  List.zipWith (fun w d => min (w.1 + d.1) (w.2 + d.2)) (pairs ws) (pairs l ++ pairs l)

theorem length_relax (hw : ws.length = 4 * H) (hl : l.length = 2 * H) :
    (relax ws l).length = 2 * H := by
  simp only [relax, List.length_zipWith, List.length_append, length_pairs, hw, hl]
  omega

theorem relax_getD (hw : ws.length = 4 * H) (hl : l.length = 2 * H) (hs : s < 2 * H) :
    (relax ws l).getD s 0 = min (ws.getD (2 * s) 0 + l.getD (2 * (s % H)) 0)
      (ws.getD (2 * s + 1) 0 + l.getD (2 * (s % H) + 1) 0) := by
  have hmod := Nat.mod_lt s (show 0 < H by omega)
  have hfirst : (pairs ws)[s]? = some (ws.getD (2 * s) 0, ws.getD (2 * s + 1) 0) :=
    getElem?_pairs (by omega)
  have hlast : (pairs l)[s % H]? = some (l.getD (2 * (s % H)) 0, l.getD (2 * (s % H) + 1) 0) :=
    getElem?_pairs (by omega)
  have hhalf : (pairs l).length = H := by
    rw [length_pairs]
    omega
  have htwice : (pairs l ++ pairs l)[s]? = (pairs l)[s % H]? := by
    by_cases hlow : s < H
    · rw [List.getElem?_append_left (by omega), Nat.mod_eq_of_lt hlow]
    · have hsub : s % H = s - H := by
        rw [Nat.mod_eq_sub_mod (by omega), Nat.mod_eq_of_lt (by omega)]
      rw [List.getElem?_append_right (by omega), hhalf, hsub]
  rw [List.getD_eq_getElem?_getD, relax, List.getElem?_zipWith, hfirst, htwice, hlast]
  rfl

end Lists

section Costs

/-- The weights of the step `n`, one for each content of the register. -/
def layer (tables : List (List Nat)) (n : Nat) : List Nat := tables.getD (n % tables.length) []

/-- For every state of the time `n`, what `L` steps cost at the least; from state zero the price
is `c`, whatever comes after. -/
def costs (H : Nat) (tables : List (List Nat)) (c : Nat) : Nat → Nat → List Nat
  | 0, _ => c :: List.replicate (2 * H - 1) 0
  | L + 1, n => c :: (relax (layer tables n) (costs H tables c L (n + 1))).tail

/-- There is a table, and every table has a weight for each content of the register. -/
structure Complete (H : Nat) (tables : List (List Nat)) : Prop where
  states : 0 < H
  period : 0 < tables.length
  weights : ∀ ws ∈ tables, ws.length = 4 * H

theorem Complete.length_layer (h : Complete H tables) (n : Nat) :
    (layer tables n).length = 4 * H := by
  have hlt := Nat.mod_lt n h.period
  rw [layer, List.getD_eq_getElem _ _ hlt]
  exact h.weights _ (List.getElem_mem hlt)

theorem Complete.length_costs (h : Complete H tables) (c L n : Nat) :
    (costs H tables c L n).length = 2 * H := by
  have hpos := h.states
  induction L generalizing n with
  | zero =>
    simp only [costs, List.length_cons, List.length_replicate]
    omega
  | succ L ih =>
    simp only [costs, List.length_cons, List.length_tail,
      length_relax (h.length_layer n) (ih (n + 1))]
    omega

theorem costs_zero (H : Nat) (tables : List (List Nat)) (c L n : Nat) :
    (costs H tables c L n).getD 0 0 = c := by
  cases L <;> rfl

theorem costs_mod (H : Nat) (tables : List (List Nat)) (c L n : Nat) :
    costs H tables c L (n % tables.length) = costs H tables c L n := by
  induction L generalizing n with
  | zero => rfl
  | succ L ih =>
    have hnext : costs H tables c L (n % tables.length + 1) = costs H tables c L (n + 1) := by
      rw [← ih (n % tables.length + 1), Nat.mod_add_mod, ih]
    rw [costs, costs, hnext, layer, layer, Nat.mod_mod]

end Costs

section Walks

/-- The states up to the time `T` follow one another. -/
structure Walk (H T : Nat) (z : Nat → Nat) : Prop where
  small : ∀ n ≤ T, z n < 2 * H
  shift : ∀ n < T, z (n + 1) / 2 = z n % H

def taken (z : Nat → Nat) (n : Nat) : Nat := 2 * z n + z (n + 1) % 2

def weight (tables : List (List Nat)) (z : Nat → Nat) (a b : Nat) : Nat :=
  ∑ n ∈ Finset.Ico a b, (layer tables n).getD (taken z n) 0

theorem weight_self (tables : List (List Nat)) (z : Nat → Nat) (a : Nat) :
    weight tables z a a = 0 := by
  simp [weight]

theorem weight_add (tables : List (List Nat)) (z : Nat → Nat) {m : Nat} (ham : a ≤ m)
    (hmb : m ≤ b) : weight tables z a m + weight tables z m b = weight tables z a b :=
  Finset.sum_Ico_consecutive _ ham hmb

theorem weight_head (tables : List (List Nat)) (z : Nat → Nat) (h : a < b) : weight tables z a b =
    (layer tables a).getD (taken z a) 0 + weight tables z (a + 1) b :=
  Finset.sum_eq_sum_Ico_succ_bot h _

theorem weight_mono (tables : List (List Nat)) (z : Nat → Nat) {a' b' : Nat} (ha : a ≤ a')
    (hab : a' ≤ b') (hb : b' ≤ b) : weight tables z a' b' ≤ weight tables z a b := by
  have hfront := weight_add tables z ha (hab.trans hb)
  have hback := weight_add tables z hab hb
  omega

theorem Walk.next (h : Walk H T z) (hn : n < T) : z (n + 1) = 2 * (z n % H) + z (n + 1) % 2 := by
  have hshift := h.shift n hn
  omega

theorem costs_step (hc : Complete H tables) (h : Walk H T z) (hn : n < T)
    (hzero : z n = 0 → c = 0) : (costs H tables c (L + 1) n).getD (z n) 0 ≤
      (layer tables n).getD (taken z n) 0 + (costs H tables c L (n + 1)).getD (z (n + 1)) 0 := by
  by_cases hz : z n = 0
  · rw [hz, costs_zero, hzero hz]
    exact Nat.zero_le _
  · have htail : (costs H tables c (L + 1) n).getD (z n) 0 =
        (relax (layer tables n) (costs H tables c L (n + 1))).getD (z n) 0 := by
      obtain ⟨s, hs⟩ := Nat.exists_eq_succ_of_ne_zero hz
      rw [hs, costs, List.getD_cons_succ, List.getD_eq_getElem?_getD, List.getElem?_tail,
        ← List.getD_eq_getElem?_getD]
    rw [htail, relax_getD (hc.length_layer n) (hc.length_costs c L (n + 1)) (h.small n hn.le)]
    have hnext := h.next hn
    cases Nat.mod_two_eq_zero_or_one (z (n + 1)) with
    | inl heven =>
      rw [heven] at hnext
      rw [taken, heven, hnext]
      exact min_le_left _ _
    | inr hodd =>
      rw [hodd] at hnext
      rw [taken, hodd, hnext]
      exact min_le_right _ _

/-- A walk that stays away from zero costs what `costs` says, whatever the price of zero is. -/
theorem costs_le (hc : Complete H tables) (h : Walk H T z) (hT : n + L ≤ T)
    (haway : ∀ i, n ≤ i → i ≤ n + L → z i = 0 → c = 0) :
    (costs H tables c L n).getD (z n) 0 ≤ weight tables z n (n + L) := by
  induction L generalizing n with
  | zero =>
    have hsmall := h.small n hT
    by_cases hz : z n = 0
    · rw [hz, costs_zero, haway n le_rfl le_rfl hz]
      exact Nat.zero_le _
    · obtain ⟨s, hs⟩ := Nat.exists_eq_succ_of_ne_zero hz
      rw [hs, costs, List.getD_cons_succ, List.getD_replicate _ (by omega)]
      exact Nat.zero_le _
  | succ L ih =>
    have hrest := ih (n := n + 1) (by omega) fun i hi hle => haway i (by omega) (by omega)
    have hstep := costs_step (L := L) hc h (n := n) (by omega) (haway n le_rfl (by omega))
    have hlen : n + 1 + L = n + (L + 1) := by omega
    rw [hlen] at hrest
    rw [weight_head tables z (by omega)]
    omega

/-- When zero is free, a walk may also end there before its time. -/
theorem costs_free_le (hc : Complete H tables) (h : Walk H T z) (hnb : n ≤ b) (hb : b ≤ T)
    (hend : z b = 0 ∨ n + L ≤ b) :
    (costs H tables 0 L n).getD (z n) 0 ≤ weight tables z n b := by
  induction L generalizing n with
  | zero =>
    have hfirst := costs_le (L := 0) (c := 0) hc h (hnb.trans hb) fun _ _ _ _ => rfl
    rw [Nat.add_zero, weight_self] at hfirst
    exact hfirst.trans (Nat.zero_le _)
  | succ L ih =>
    cases Nat.lt_or_eq_of_le hnb with
    | inl hlt =>
      have hrest := ih (n := n + 1) hlt (by omega)
      have hstep := costs_step (L := L) (c := 0) hc h (hlt.trans_le hb) fun _ => rfl
      rw [weight_head tables z hlt]
      omega
    | inr heq =>
      have hz : z n = 0 := by
        rw [heq]
        exact hend.resolve_right (by omega)
      rw [hz, costs_zero]
      exact Nat.zero_le _

theorem windows_le {W m : Nat} (hc : Complete H tables) (h : Walk H T z)
    (hwindow : ∀ n s, 0 < s → s < 2 * H → m < (costs H tables c W n).getD s 0) (q : Nat)
    (hT : a + q * W ≤ T) (haway : ∀ i, a ≤ i → i ≤ a + q * W → z i ≠ 0) :
    q * (m + 1) ≤ weight tables z a (a + q * W) := by
  induction q with
  | zero =>
    rw [Nat.zero_mul]
    exact Nat.zero_le _
  | succ q ih =>
    rw [Nat.succ_mul, ← Nat.add_assoc] at hT haway
    have hrest := ih (by omega) fun i hi hle => haway i hi (by omega)
    have hlast := costs_le (c := c) hc h hT fun i hi hle hz =>
      absurd hz (haway i (by omega) hle)
    have hmore := hwindow (a + q * W) (z (a + q * W))
      (Nat.pos_of_ne_zero (haway _ (by omega) (by omega))) (h.small _ (by omega))
    have hsum : weight tables z a (a + q * W) + weight tables z (a + q * W) (a + q * W + W) =
        weight tables z a (a + q * W + W) := weight_add tables z (by omega) (by omega)
    rw [Nat.succ_mul, Nat.succ_mul, ← Nat.add_assoc a, ← hsum]
    omega

end Walks

section Stretches

theorem stretch_before (z : Nat → Nat) (m : Nat) :
    ∃ a ≤ m, (a = 0 ∨ z a = 0) ∧ ∀ i, a < i → i ≤ m → z i ≠ 0 := by
  induction m with
  | zero => exact ⟨0, le_rfl, Or.inl rfl, fun i hi hle => absurd hle (Nat.not_le_of_lt hi)⟩
  | succ m ih =>
    by_cases hz : z (m + 1) = 0
    · exact ⟨m + 1, le_rfl, Or.inr hz, fun i hi hle => absurd hle (Nat.not_le_of_lt hi)⟩
    · obtain ⟨a, ha, hstart, haway⟩ := ih
      refine ⟨a, Nat.le_succ_of_le ha, hstart, ?_⟩
      intro i hi hle
      cases Nat.lt_or_eq_of_le hle with
      | inl hlt => exact haway i hi (Nat.le_of_lt_succ hlt)
      | inr heq => exact heq ▸ hz

theorem stretch_after (z : Nat → Nat) {m : Nat} (hm : m ≤ T) :
    ∃ b, m ≤ b ∧ b ≤ T ∧ (b = T ∨ z b = 0) ∧ ∀ i, m ≤ i → i < b → z i ≠ 0 := by
  have hex : ∃ b, m ≤ b ∧ (b = T ∨ z b = 0) := ⟨T, hm, Or.inl rfl⟩
  classical
  obtain ⟨hge, hend⟩ := Nat.find_spec hex
  refine ⟨Nat.find hex, hge, Nat.find_min' hex ⟨hm, Or.inl rfl⟩, hend, ?_⟩
  intro i hi hlt hz
  exact Nat.find_min hex hlt ⟨hi, Or.inr hz⟩

end Stretches

end EspDrivers.RegisterWalks
