import Mathlib

/-! Computations that can fail: int expressions, which may not overflow, lists of results, and
while loops, which have to come to their end. -/
namespace EspDrivers.Checked

section Ints
variable {x : Int}

/-- The value of an expression of type int. -/
def int (x : Int) : Option Int := if -2 ^ 31 ≤ x ∧ x < 2 ^ 31 then some x else none

theorem int_eq (hlow : -2 ^ 31 ≤ x) (hhigh : x < 2 ^ 31) : int x = some x := if_pos ⟨hlow, hhigh⟩

theorem int_natCast {n : Nat} (h : n < 2 ^ 31) : int (n : Int) = some (n : Int) :=
  int_eq (by omega) (by omega)

theorem int_some {y : Int} (h : int x = some y) : (-2 ^ 31 ≤ x ∧ x < 2 ^ 31) ∧ y = x := by
  rw [int] at h
  split at h
  · next hx => exact ⟨hx, (Option.some.inj h).symm⟩
  · cases h

end Ints

section Lists
variable {α β : Type*} {f : α → Option β} {g : α → β} {l : List α}

theorem mapM_some (h : ∀ a ∈ l, f a = some (g a)) : l.mapM f = some (l.map g) := by
  induction l with
  | nil => rfl
  | cons a l ih =>
    rw [List.mapM_cons, h a List.mem_cons_self, ih fun b hb => h b (List.mem_cons_of_mem a hb)]
    rfl

end Lists

section While
variable {σ τ : Type}

/-- `while (test) body`, with less than `fuel` rounds. -/
def whileLoop (test : σ → Option Bool) (body : σ → Option σ) : Nat → σ → Option σ
  | 0, _ => none
  | fuel + 1, s => do
    if ← test s then whileLoop test body fuel (← body s) else some s

variable {test : σ → Option Bool} {body : σ → Option σ} {s : σ}

/-- A loop comes to its end when every round keeps the invariant and makes the variant smaller.
The bodies agree on the states that the loop goes through. -/
theorem whileLoop_ends_all {ι : Type} {body : ι → σ → Option σ} (I : σ → Prop) (variant : σ → Nat)
    (hround : ∀ s, I s → test s = some false ∨
      test s = some true ∧ ∃ t, (∀ i, body i s = some t) ∧ I t ∧ variant t < variant s) (hs : I s) :
    ∃ t, (∀ i fuel, variant s < fuel → whileLoop test (body i) fuel s = some t) ∧ I t ∧
      test t = some false := by
  induction hv : variant s using Nat.strong_induction_on generalizing s with
  | _ v ih =>
    subst hv
    obtain hstop | ⟨hgo, u, hu, hI, hlt⟩ := hround s hs
    · refine ⟨s, ?_, hs, hstop⟩
      intro i fuel hfuel
      cases fuel with
      | zero => omega
      | succ fuel => simp [whileLoop, hstop]
    · obtain ⟨t, ht, hrest⟩ := ih (variant u) hlt hI rfl
      refine ⟨t, ?_, hrest⟩
      intro i fuel hfuel
      cases fuel with
      | zero => omega
      | succ fuel => simpa [whileLoop, hgo, hu] using ht i fuel (by omega)

theorem whileLoop_ends (I : σ → Prop) (variant : σ → Nat)
    (hround : ∀ s, I s → test s = some false ∨
      test s = some true ∧ ∃ t, body s = some t ∧ I t ∧ variant t < variant s) (hs : I s) :
    ∃ t, (∀ fuel, variant s < fuel → whileLoop test body fuel s = some t) ∧ I t ∧
      test t = some false := by
  obtain ⟨t, ht, hrest⟩ : ∃ t, (∀ (_ : Unit) fuel, variant s < fuel →
      whileLoop test body fuel s = some t) ∧ I t ∧ test t = some false := whileLoop_ends_all I variant
    (fun s hI => (hround s hI).imp id fun ⟨hgo, t, ht, hrest⟩ => ⟨hgo, t, fun _ => ht, hrest⟩) hs
  exact ⟨t, ht (), hrest⟩

theorem whileLoop_image {test' : τ → Option Bool} {body' : τ → Option τ} {f : σ → τ}
    (htest : ∀ s, test' (f s) = test s) (hbody : ∀ s, body' (f s) = (body s).map f) (fuel : Nat)
    (s : σ) : whileLoop test' body' fuel (f s) = (whileLoop test body fuel s).map f := by
  induction fuel generalizing s with
  | zero => rfl
  | succ fuel ih =>
    rw [whileLoop, whileLoop, htest]
    cases test s with
    | none => rfl
    | some go =>
      cases go with
      | false => rfl
      | true =>
        simp only [Option.bind_eq_bind, Option.bind_some, if_true, hbody]
        cases body s with
        | none => rfl
        | some t => exact ih t

theorem whileLoop_follows {test' : τ → Option Bool} {body' : τ → Option τ} (R : σ → τ → Prop)
    (htest : ∀ s t, R s t → test' t = test s)
    (hbody : ∀ s t s', R s t → body s = some s' → ∃ t', body' t = some t' ∧ R s' t') {fuel : Nat}
    {s s' : σ} {t : τ} (hR : R s t) (h : whileLoop test body fuel s = some s') :
    ∃ t', whileLoop test' body' fuel t = some t' ∧ R s' t' := by
  induction fuel generalizing s t with
  | zero => cases h
  | succ fuel ih =>
    rw [whileLoop] at h ⊢
    obtain ⟨go, hgo, hrest⟩ := Option.bind_eq_some_iff.mp h
    rw [htest s t hR, hgo, Option.bind_eq_bind, Option.bind_some]
    cases go with
    | false =>
      obtain rfl := Option.some.inj hrest
      exact ⟨t, rfl, hR⟩
    | true =>
      obtain ⟨u, hu, hloop⟩ := Option.bind_eq_some_iff.mp hrest
      obtain ⟨v, hv, hRv⟩ := hbody s t u hR hu
      obtain ⟨t', ht, hRt⟩ := ih hRv hloop
      refine ⟨t', ?_, hRt⟩
      simp only [if_true, hv]
      exact ht

end While

end EspDrivers.Checked
