import Mathlib

/-! Buffers that are accessed inside their bounds only, and counted loops over them. In a
loop whose rounds write different cells, every cell ends up with what its round writes. -/
namespace EspDrivers.Buffers

variable {α ι σ : Type*}

section Cells

/-- The cells below `size` are accessible. -/
@[ext]
structure Buffer (α : Type*) where
  size : Nat
  cell : Nat → α

def Buffer.load (b : Buffer α) (k : Nat) : Option α :=
  if k < b.size then some (b.cell k) else none

def Buffer.store (b : Buffer α) (k : Nat) (v : α) : Option (Buffer α) :=
  if k < b.size then some ⟨b.size, Function.update b.cell k v⟩ else none

variable {b c : Buffer α} {k : Nat} {v : α}

theorem Buffer.load_eq (h : k < b.size) : b.load k = some (b.cell k) := if_pos h

theorem Buffer.store_eq (h : k < b.size) (v : α) :
    b.store k v = some ⟨b.size, Function.update b.cell k v⟩ := if_pos h

theorem Buffer.load_some (h : b.load k = some v) : k < b.size ∧ v = b.cell k := by
  rw [load] at h
  split at h
  · next hk => exact ⟨hk, (Option.some.inj h).symm⟩
  · cases h

theorem Buffer.store_some (h : b.store k v = some c) :
    k < b.size ∧ c = ⟨b.size, Function.update b.cell k v⟩ := by
  rw [store] at h
  split at h
  · next hk => exact ⟨hk, (Option.some.inj h).symm⟩
  · cases h

end Cells

section Counting

/-- The values of `i` in `for (i = start; i < stop; i += step)`. -/
def steps (start stop step : Nat) : List Nat :=
  List.range' start ((stop - start + step - 1) / step) step

theorem mem_steps {start stop step i : Nat} (h : 0 < step) :
    i ∈ steps start stop step ↔ start ≤ i ∧ i < stop ∧ step ∣ i - start := by
  rw [steps, List.mem_range']
  constructor
  · rintro ⟨k, hk, rfl⟩
    have hlt : k * step + step ≤ stop - start + step - 1 := by
      have := (Nat.le_div_iff_mul_le h).mp (Nat.succ_le_of_lt hk)
      rwa [Nat.succ_mul] at this
    rw [Nat.mul_comm] at hlt
    refine ⟨Nat.le_add_right _ _, by omega, ?_⟩
    rw [Nat.add_sub_cancel_left]
    exact Nat.dvd_mul_right _ _
  · rintro ⟨hle, hlt, k, hk⟩
    refine ⟨k, ?_, by omega⟩
    refine (Nat.le_div_iff_mul_le h).mpr ?_
    rw [Nat.succ_mul, Nat.mul_comm]
    omega

theorem nodup_steps {start stop step : Nat} (h : 0 < step) : (steps start stop step).Nodup :=
  List.nodup_range' step h

end Counting

section Loops
variable {body : σ → ι → Option σ} {js : List ι} {s t : σ}

/-- A loop comes to its end when every round keeps the invariant of the rounds before it. -/
theorem foldlM_ends (js : List ι) (I : List ι → σ → Prop) (hs : I [] s)
    (hbody : ∀ done j rest, js = done ++ j :: rest → ∀ s, I done s →
      ∃ t, body s j = some t ∧ I (done ++ [j]) t) :
    ∃ t, js.foldlM body s = some t ∧ I js t := by
  suffices h : ∀ done rest, js = done ++ rest → ∀ s, I done s →
      ∃ t, rest.foldlM body s = some t ∧ I js t from h [] js rfl s hs
  intro done rest
  induction rest generalizing done with
  | nil =>
    intro hjs s hs
    rw [List.append_nil] at hjs
    exact ⟨s, rfl, hjs ▸ hs⟩
  | cons j rest ih =>
    intro hjs s hs
    obtain ⟨t, ht, hI⟩ := hbody done j rest hjs s hs
    obtain ⟨u, hu, hIu⟩ := ih (done ++ [j]) (by simp [hjs]) t hI
    refine ⟨u, ?_, hIu⟩
    rw [List.foldlM_cons, ht]
    exact hu

/-- The same for a loop from 0, with the number of rounds instead of the rounds. -/
theorem foldlM_range_ends {body : σ → Nat → Option σ} (n : Nat) (I : Nat → σ → Prop) (hs : I 0 s)
    (hbody : ∀ i < n, ∀ s, I i s → ∃ t, body s i = some t ∧ I (i + 1) t) :
    ∃ t, (List.range n).foldlM body s = some t ∧ I n t := by
  induction n with
  | zero => exact ⟨s, rfl, hs⟩
  | succ n ih =>
    obtain ⟨t, ht, hI⟩ := ih fun i hi => hbody i (Nat.lt_succ_of_lt hi)
    obtain ⟨u, hu, hIu⟩ := hbody n (Nat.lt_succ_self n) t hI
    refine ⟨u, ?_, hIu⟩
    rw [List.range_succ, List.foldlM_append, ht]
    simpa using hu

theorem foldlM_congr {f g : σ → ι → Option σ} (h : ∀ j ∈ js, ∀ s, f s j = g s j) (s : σ) :
    js.foldlM f s = js.foldlM g s := by
  induction js generalizing s with
  | nil => rfl
  | cons j js ih =>
    rw [List.foldlM_cons, List.foldlM_cons, h j List.mem_cons_self]
    congr 1
    funext t
    exact ih (fun i hi => h i (List.mem_cons_of_mem j hi)) t

theorem foldlM_range_keeps {body : σ → Nat → Option σ} {n : Nat} (I : Nat → σ → Prop) (hs : I 0 s)
    (hbody : ∀ i < n, ∀ s t, I i s → body s i = some t → I (i + 1) t)
    (h : (List.range n).foldlM body s = some t) : I n t := by
  induction n generalizing t with
  | zero =>
    obtain rfl := Option.some.inj h
    exact hs
  | succ n ih =>
    rw [List.range_succ, List.foldlM_append] at h
    obtain ⟨u, hu, hlast⟩ := Option.bind_eq_some_iff.mp h
    have hround : body u n = some t := by simpa using hlast
    exact hbody n (Nat.lt_succ_self n) u t
      (ih (fun i hi => hbody i (Nat.lt_succ_of_lt hi)) hu) hround

/-- A loop that has come to its end has made every round, from a state with the invariant. -/
theorem foldlM_rounds {I : σ → Prop} (hI : ∀ s j t, I s → body s j = some t → I t) (hs : I s)
    (h : js.foldlM body s = some t) : I t ∧ ∀ j ∈ js, ∃ u v, I u ∧ body u j = some v := by
  induction js generalizing s with
  | nil =>
    obtain rfl := Option.some.inj h
    exact ⟨hs, fun j hj => by cases hj⟩
  | cons j js ih =>
    rw [List.foldlM_cons] at h
    obtain ⟨u, hu, h⟩ := Option.bind_eq_some_iff.mp h
    obtain ⟨ht, hrest⟩ := ih (hI s j u hs hu) h
    refine ⟨ht, ?_⟩
    intro i hi
    cases List.mem_cons.mp hi with
    | inl heq => exact ⟨s, u, hs, heq ▸ hu⟩
    | inr hmem => exact hrest i hmem

theorem foldlM_stores {place : ι → Nat} {value : ι → Option α} {b : Buffer α}
    (h : ∀ j ∈ js, place j < b.size ∧ ∃ v, value j = some v) :
    ∃ c, js.foldlM (fun b j => do b.store (place j) (← value j)) b = some c ∧ c.size = b.size := by
  refine foldlM_ends js (fun _ (c : Buffer α) => c.size = b.size) rfl ?_
  intro done j rest hjs c hc
  obtain ⟨hplace, v, hv⟩ := h j (by simp [hjs])
  refine ⟨⟨c.size, Function.update c.cell (place j) v⟩, ?_, hc⟩
  rw [hv]
  exact Buffer.store_eq (hc ▸ hplace) v

/-- The cells of the rounds `js` are new, the others are as they were. -/
def overwritten (w : ι → Nat → Prop) [∀ j, DecidablePred (w j)] (js : List ι) (new old : Nat → α) :
    Nat → α :=
  fun k => if ∃ j ∈ js, w j k then new k else old k

variable {w : ι → Nat → Prop} [∀ j, DecidablePred (w j)] {new old : Nat → α} {size : Nat}

theorem overwritten_pos {k : Nat} (h : ∃ j ∈ js, w j k) : overwritten w js new old k = new k :=
  if_pos h

theorem overwritten_neg {k : Nat} (h : ¬ ∃ j ∈ js, w j k) : overwritten w js new old k = old k :=
  if_neg h

theorem overwritten_eq {P : Nat → Prop} [DecidablePred P] (h : ∀ k, (∃ j ∈ js, w j k) ↔ P k) :
    overwritten w js new old = fun k => if P k then new k else old k := by
  funext k
  simp only [overwritten, h k]

/-- The rounds write different cells, and each finds its own cells, and those that no round
writes, as they were. -/
theorem foldlM_overwrites {body : Buffer α → ι → Option (Buffer α)}
    (hapart : js.Pairwise fun i j => ∀ k, w i k → ¬ w j k)
    (hbody : ∀ j ∈ js, ∀ cell : Nat → α, (∀ k, w j k → cell k = old k) →
      (∀ k, (∀ i ∈ js, ¬ w i k) → cell k = old k) →
        body ⟨size, cell⟩ j = some ⟨size, fun k => if w j k then new k else cell k⟩) :
    js.foldlM body ⟨size, old⟩ = some ⟨size, overwritten w js new old⟩ := by
  have hends : ∃ t, js.foldlM body ⟨size, old⟩ = some t ∧
      t = ⟨size, overwritten w js new old⟩ := by
    refine foldlM_ends js (fun done (b : Buffer α) => b = ⟨size, overwritten w done new old⟩) ?_ ?_
    · rfl
    · intro done j rest hjs b hb
      have hj : j ∈ js := by simp [hjs]
      rw [hjs, List.pairwise_append] at hapart
      have hfresh : ∀ k, w j k → ¬ ∃ i ∈ done, w i k := by
        rintro k hk ⟨i, hi, hik⟩
        exact hapart.2.2 i hi j (by simp) k hik hk
      refine ⟨_, ?_, rfl⟩
      rw [hb, hbody j hj]
      · congr 2
        funext k
        by_cases hk : w j k
        · simp [overwritten, hk]
        · simp [overwritten, hk]
      · intro k hk
        exact if_neg (hfresh k hk)
      · intro k hk
        refine if_neg ?_
        rintro ⟨i, hi, hik⟩
        exact hk i (by simp [hjs, hi]) hik
  obtain ⟨t, ht, rfl⟩ := hends
  exact ht

end Loops

end EspDrivers.Buffers
