import Mathlib

/-! A family of stacks, one for each key, whose elements know their key. Elements
are taken from the heads one after another and later put back: what is taken is
what the stacks lose, and putting it back in reverse order restores them. -/
namespace EspDrivers.KeyedStack

variable {κ α : Type*} [DecidableEq κ] (key : α → κ)

/-- `Pops key f xs g`: taking the elements `xs` from the heads of their stacks, in
order, turns the family `f` into `g`. -/
def Pops : (κ → List α) → List α → (κ → List α) → Prop
  | f, [], g => g = f
  | f, x :: xs, g => ∃ rest, f (key x) = x :: rest ∧ Pops (Function.update f (key x) rest) xs g

def push (f : κ → List α) (x : α) : κ → List α :=
  Function.update f (key x) (x :: f (key x))

/-- Every element stands on the stack of its own key. -/
def Sorted (f : κ → List α) : Prop := ∀ k, ∀ x ∈ f k, key x = k

variable {key} {f g h : κ → List α} {xs ys : List α} {x : α}

theorem pops_append : Pops key f (xs ++ ys) h ↔ ∃ g, Pops key f xs g ∧ Pops key g ys h := by
  induction xs generalizing f with
  | nil => simp [Pops]
  | cons x xs ih =>
    simp only [List.cons_append, Pops, ih]
    constructor
    · rintro ⟨rest, hf, g, hg, hh⟩
      exact ⟨g, ⟨rest, hf, hg⟩, hh⟩
    · rintro ⟨g, ⟨rest, hf, hg⟩, hh⟩
      exact ⟨rest, hf, g, hg, hh⟩

/-- A stack loses exactly the elements of its key, from its head on. -/
theorem Pops.split (hp : Pops key f xs g) (k : κ) :
    f k = xs.filter (fun x => key x = k) ++ g k := by
  induction xs generalizing f with
  | nil =>
    obtain rfl : g = f := hp
    simp
  | cons x xs ih =>
    obtain ⟨rest, hf, hp⟩ := hp
    have hk := ih hp
    by_cases hx : key x = k
    · subst hx
      rw [Function.update_self] at hk
      simp [hf, hk]
    · rw [Function.update_of_ne (Ne.symm hx)] at hk
      simp [hx, hk]

theorem Pops.sorted (hs : Sorted key f) (hp : Pops key f xs g) : Sorted key g := by
  intro k x hx
  apply hs k x
  rw [hp.split k]
  exact List.mem_append_right _ hx

theorem push_apply (f : κ → List α) (x : α) (k : κ) :
    push key f x k = if key x = k then x :: f k else f k := by
  by_cases hk : key x = k
  · subst hk
    simp [push]
  · simp [push, hk, Function.update_of_ne (Ne.symm hk)]

/-- Putting elements back fills each stack with those of its key, last one on top. -/
theorem foldl_push_apply (f : κ → List α) (xs : List α) (k : κ) :
    xs.foldl (push key) f k = (xs.filter (fun x => key x = k)).reverse ++ f k := by
  induction xs generalizing f with
  | nil => simp
  | cons x xs ih =>
    rw [List.foldl_cons, ih, push_apply]
    by_cases hk : key x = k <;> simp [hk]

theorem sorted_foldl_push (hs : Sorted key f) (xs : List α) :
    Sorted key (xs.foldl (push key) f) := by
  intro k x hx
  rw [foldl_push_apply] at hx
  rcases List.mem_append.mp hx with hx | hx
  · simpa using (List.mem_filter.mp (List.mem_reverse.mp hx)).2
  · exact hs k x hx

/-- Last taken, first put back: the family is as it was, order included. -/
theorem Pops.restore (hp : Pops key f xs g) : xs.reverse.foldl (push key) g = f := by
  funext k
  rw [foldl_push_apply, hp.split k, List.filter_reverse, List.reverse_reverse]

/-- Over a list of keys that has each key once, sorting by key loses nothing. -/
theorem flatMap_filter_perm {ks : List κ} (hn : ks.Nodup) (xs : List α)
    (hxs : ∀ x ∈ xs, key x ∈ ks) : (ks.flatMap fun k => xs.filter fun x => key x = k).Perm xs := by
  induction ks generalizing xs with
  | nil =>
    have : xs = [] := List.eq_nil_iff_forall_not_mem.mpr fun x hx => by simpa using hxs x hx
    simp [this]
  | cons k ks ih =>
    obtain ⟨hk, hn⟩ := List.nodup_cons.mp hn
    have hrest := ih hn (xs.filter fun x => ¬ key x = k) fun x hx => by
      obtain ⟨hx, hne⟩ := List.mem_filter.mp hx
      exact (List.mem_cons.mp (hxs x hx)).resolve_left (by simpa using hne)
    -- the elements of the other keys are untouched by taking out those of `k`
    have hother : (ks.flatMap fun k' => (xs.filter fun x => ¬ key x = k).filter fun x => key x = k') =
        ks.flatMap fun k' => xs.filter fun x => key x = k' := by
      refine List.flatMap_congr fun k' hk' => ?_
      have hne : k' ≠ k := fun he => hk (he ▸ hk')
      rw [List.filter_filter]
      refine List.filter_congr fun x _ => ?_
      by_cases hx : key x = k' <;> simp [hx, hne]
    rw [hother] at hrest
    rw [List.flatMap_cons]
    refine (List.Perm.append_left _ hrest).trans ?_
    simpa using List.filter_append_perm (fun x => decide (key x = k)) xs

theorem Pops.perm {ks : List κ} (hn : ks.Nodup) (hall : ∀ k, k ∈ ks) (hp : Pops key f xs g) :
    (ks.flatMap f).Perm (xs ++ ks.flatMap g) := by
  have hsplit : ks.flatMap f = ks.flatMap fun k => xs.filter (fun x => key x = k) ++ g k :=
    List.flatMap_congr fun k _ => hp.split k
  rw [hsplit]
  refine (List.flatMap_append_perm _ _ _).symm.trans ?_
  exact List.Perm.append_right _ (flatMap_filter_perm hn xs fun x _ => hall _)

theorem foldl_push_perm {ks : List κ} (hn : ks.Nodup) (hall : ∀ k, k ∈ ks) (f : κ → List α)
    (xs : List α) : (ks.flatMap (xs.foldl (push key) f)).Perm (xs ++ ks.flatMap f) := by
  have hsplit : ks.flatMap (xs.foldl (push key) f) =
      ks.flatMap fun k => xs.reverse.filter (fun x => key x = k) ++ f k :=
    List.flatMap_congr fun k _ => by rw [foldl_push_apply, List.filter_reverse]
  rw [hsplit]
  refine (List.flatMap_append_perm _ _ _).symm.trans (List.Perm.append_right _ ?_)
  exact (flatMap_filter_perm hn xs.reverse fun x _ => hall _).trans (List.reverse_perm xs)

end EspDrivers.KeyedStack
