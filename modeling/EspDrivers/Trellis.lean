import Mathlib

/-! Layered graphs in which every step earns a gain, and tables of best metrics that are filled
by add, compare and select. The nodes are arbitrary. A traceback through the chosen
predecessors gives a path of the metric in the table, and no path does better. -/
namespace EspDrivers.Trellis

variable {S : Type*}

/-- The edges of a layer and what they earn in the step `n`. -/
structure Graph (S : Type*) where
  Edge : S → S → Prop
  gain : Nat → S → S → Nat

variable {G : Graph S} {x y : Nat → S} {a b c n T : Nat} {r s : S}

section Paths

/-- The nodes of the times `a` to `b` form a path. -/
def Graph.Path (G : Graph S) (x : Nat → S) (a b : Nat) : Prop :=
  ∀ n, a ≤ n → n < b → G.Edge (x n) (x (n + 1))

def Graph.total (G : Graph S) (x : Nat → S) (a b : Nat) : Nat :=
  ∑ n ∈ Finset.Ico a b, G.gain n (x n) (x (n + 1))

theorem Graph.total_self (G : Graph S) (x : Nat → S) (a : Nat) : G.total x a a = 0 := by
  simp [total]

theorem Graph.total_succ (h : a ≤ b) :
    G.total x a (b + 1) = G.total x a b + G.gain b (x b) (x (b + 1)) :=
  Finset.sum_Ico_succ_top h _

theorem Graph.total_le {w : Nat} (hw : ∀ n r s, G.gain n r s ≤ w) :
    G.total x a b ≤ (b - a) * w := by
  have h := Finset.sum_le_card_nsmul (Finset.Ico a b) (fun n => G.gain n (x n) (x (n + 1))) w
    fun n _ => hw n _ _
  simpa [total] using h

theorem Graph.Path.mono {a' b' : Nat} (h : G.Path x a b) (ha : a ≤ a') (hb : b' ≤ b) :
    G.Path x a' b' :=
  fun n hn hlt => h n (ha.trans hn) (hlt.trans_le hb)

end Paths

section Tables
variable {M : Nat → S → Nat} {prev : Nat → S → S}

/-- Up to the time `T`, every entry is the best over the edges that lead to it. -/
structure Table (G : Graph S) (T : Nat) (M : Nat → S → Nat) (prev : Nat → S → S) : Prop where
  edge : ∀ n < T, ∀ s, G.Edge (prev n s) s
  metric : ∀ n < T, ∀ s, M (n + 1) s = M n (prev n s) + G.gain n (prev n s) s
  best : ∀ n < T, ∀ r s, G.Edge r s → M n r + G.gain n r s ≤ M (n + 1) s

/-- The node of the time `k` on the way back from `s` at the time `n`. -/
def trace (prev : Nat → S → S) : Nat → S → Nat → S
  | 0, s, _ => s
  | n + 1, s, k => if n < k then s else trace prev n (prev n s) k

theorem trace_self (prev : Nat → S → S) (n : Nat) (s : S) : trace prev n s n = s := by
  cases n with
  | zero => rfl
  | succ n => simp [trace]

theorem trace_succ {k : Nat} (h : k ≤ n) : trace prev (n + 1) s k = trace prev n (prev n s) k := by
  simp [trace, Nat.not_lt.mpr h]

theorem trace_trace {j k : Nat} (hk : k ≤ j) (hj : j ≤ n) :
    trace prev j (trace prev n s j) k = trace prev n s k := by
  induction n generalizing s with
  | zero =>
    obtain rfl : j = 0 := Nat.le_zero.mp hj
    rfl
  | succ n ih =>
    cases Nat.lt_or_eq_of_le hj with
    | inl hlt =>
      have hjn : j ≤ n := Nat.le_of_lt_succ hlt
      rw [trace_succ hjn, trace_succ (hk.trans hjn), ih hjn]
    | inr heq =>
      subst heq
      rw [trace_self]

theorem trace_prev {k : Nat} (h : k < n) :
    prev k (trace prev n s (k + 1)) = trace prev n s k := by
  rw [← trace_trace (Nat.le_succ k) h, trace_succ le_rfl, trace_self]

theorem Table.trace_path (h : Table G T M prev) (hn : n ≤ T) (s : S) :
    G.Path (trace prev n s) 0 n := by
  intro k _ hk
  rw [← trace_prev hk]
  exact h.edge k (hk.trans_le hn) _

theorem Table.trace_metric (h : Table G T M prev) (hn : n ≤ T) (s : S) (hab : a ≤ b)
    (hb : b ≤ n) : M a (trace prev n s a) + G.total (trace prev n s) a b =
      M b (trace prev n s b) := by
  induction b, hab using Nat.le_induction with
  | base => rw [Graph.total_self, Nat.add_zero]
  | succ b hab ih =>
    have hprev : prev b (trace prev n s (b + 1)) = trace prev n s b := trace_prev hb
    rw [h.metric b (by omega), hprev, Graph.total_succ hab, ← ih (by omega), Nat.add_assoc]

theorem Table.path_metric (h : Table G T M prev) (hx : G.Path x a b) (hab : a ≤ b) (hb : b ≤ T) :
    M a (x a) + G.total x a b ≤ M b (x b) := by
  induction b, hab using Nat.le_induction with
  | base => rw [Graph.total_self, Nat.add_zero]
  | succ b hab ih =>
    have hrest := ih (hx.mono le_rfl (Nat.le_succ b)) (by omega)
    have hlast := h.best b hb (x b) (x (b + 1)) (hx b hab (Nat.lt_succ_self b))
    rw [Graph.total_succ hab]
    omega

/-- Between two times, a traceback earns at least what a path earns whose metrics are not worse
at the earlier time, but for `β`, and not better at the later one. -/
theorem Table.total_le_trace (h : Table G T M prev) (hn : n ≤ T) {β : Nat}
    (hx : G.Path x a b) (hab : a ≤ b) (hb : b ≤ n)
    (hstart : M a (trace prev n s a) ≤ M a (x a) + β) (hend : M b (x b) ≤ M b (trace prev n s b)) :
    G.total x a b ≤ G.total (trace prev n s) a b + β := by
  have hpath := h.path_metric hx hab (hb.trans hn)
  have htrace := h.trace_metric hn s hab hb
  omega

end Tables

section Spread
variable {M : Nat → S → Nat} {prev : Nat → S → S} {K w : Nat}

/-- Some path of `K` steps leads from every node to every node. -/
def Graph.Mixes (G : Graph S) (K : Nat) : Prop :=
  ∀ a r s, ∃ x, x a = r ∧ x (a + K) = s ∧ G.Path x a (a + K)

/-- Once everything can be reached from everywhere, the metrics stay close together. -/
theorem Table.spread (h : Table G T M prev) (hmix : G.Mixes K) (hw : ∀ n r s, G.gain n r s ≤ w)
    (hK : K ≤ n) (hn : n ≤ T) (r s : S) : M n r ≤ M n s + K * w := by
  obtain ⟨x, hstart, hend, hpath⟩ := hmix (n - K) (trace prev n r (n - K)) s
  rw [Nat.sub_add_cancel hK] at hend hpath
  have hbelow := h.path_metric hpath (Nat.sub_le n K) hn
  have habove := h.trace_metric hn r (Nat.sub_le n K) le_rfl
  have hgain := Graph.total_le (G := G) (x := trace prev n r) (a := n - K) (b := n) hw
  rw [hstart, hend] at hbelow
  rw [trace_self] at habove
  rw [Nat.sub_sub_self hK] at hgain
  omega

end Spread

end EspDrivers.Trellis
