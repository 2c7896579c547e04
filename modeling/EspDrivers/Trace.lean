import Mathlib

/-! Runs of a machine given by a partial step function: what a step preserves, a
run preserves. The machine and its events are arbitrary. -/
namespace EspDrivers.Trace

variable {σ ε : Type*}

/-- Perform the events in order; `none` as soon as one of them is not possible. -/
def run (step : σ → ε → Option σ) : σ → List ε → Option σ
  | s, [] => some s
  | s, e :: es => (step s e).bind fun t => run step t es

def Reaches (step : σ → ε → Option σ) (s t : σ) : Prop := ∃ es, run step s es = some t

/-- Every event of the run meets `C` in the state in which it happens. -/
def Along (step : σ → ε → Option σ) (C : σ → ε → Prop) : σ → List ε → Prop
  | _, [] => True
  | s, e :: es => C s e ∧ ∀ t, step s e = some t → Along step C t es

theorem run_cons {step : σ → ε → Option σ} {s t : σ} {e : ε} {es : List ε} :
    run step s (e :: es) = some t ↔ ∃ u, step s e = some u ∧ run step u es = some t := by
  simp [run, Option.bind_eq_some_iff]

theorem run_append {step : σ → ε → Option σ} {s t : σ} (es fs : List ε) :
    run step s (es ++ fs) = some t ↔
      ∃ u, run step s es = some u ∧ run step u fs = some t := by
  induction es generalizing s with
  | nil => simp [run]
  | cons e es ih =>
    simp only [List.cons_append, run_cons, ih]
    constructor
    · rintro ⟨v, hv, u, hu, ht⟩
      exact ⟨u, ⟨v, hv, hu⟩, ht⟩
    · rintro ⟨u, ⟨v, hv, hu⟩, ht⟩
      exact ⟨v, hv, u, hu, ht⟩

theorem Reaches.refl (step : σ → ε → Option σ) (s : σ) : Reaches step s s := ⟨[], rfl⟩

theorem Reaches.trans {step : σ → ε → Option σ} {s t u : σ} (h : Reaches step s t)
    (h' : Reaches step t u) : Reaches step s u := by
  obtain ⟨es, hes⟩ := h
  obtain ⟨fs, hfs⟩ := h'
  exact ⟨es ++ fs, (run_append es fs).mpr ⟨t, hes, hfs⟩⟩

theorem Reaches.head {step : σ → ε → Option σ} {s t u : σ} {e : ε} (h : step s e = some t)
    (h' : Reaches step t u) : Reaches step s u :=
  Reaches.trans ⟨[e], by simp [run, h]⟩ h'

/-- The run lemma under a condition on the events. -/
theorem run_induct {step : σ → ε → Option σ} (C : σ → ε → Prop) {I : σ → Prop}
    (hstep : ∀ s e t, I s → C s e → step s e = some t → I t)
    {s t : σ} {es : List ε} (hs : I s) (hc : Along step C s es)
    (h : run step s es = some t) : I t := by
  induction es generalizing s with
  | nil =>
    obtain rfl : s = t := by simpa [run] using h
    exact hs
  | cons e es ih =>
    obtain ⟨u, hu, ht⟩ := run_cons.mp h
    exact ih (hstep s e u hs hc.1 hu) (hc.2 u hu) ht

theorem along_of_forall {step : σ → ε → Option σ} {C : σ → ε → Prop}
    (h : ∀ s e, C s e) (s : σ) (es : List ε) : Along step C s es := by
  induction es generalizing s with
  | nil => trivial
  | cons e es ih => exact ⟨h s e, fun t _ => ih t⟩

/-- The run lemma for an invariant that every event preserves. -/
theorem run_invariant {step : σ → ε → Option σ} {I : σ → Prop}
    (hstep : ∀ s e t, I s → step s e = some t → I t)
    {s t : σ} {es : List ε} (hs : I s) (h : run step s es = some t) : I t :=
  run_induct (fun _ _ => True) (fun s e t hi _ => hstep s e t hi) hs
    (along_of_forall (fun _ _ => trivial) s es) h

theorem along_append {step : σ → ε → Option σ} {C : σ → ε → Prop} {s : σ} (es fs : List ε) :
    Along step C s (es ++ fs) ↔
      Along step C s es ∧ ∀ t, run step s es = some t → Along step C t fs := by
  induction es generalizing s with
  | nil => simp [Along, run]
  | cons e es ih =>
    simp only [List.cons_append, Along, ih, run_cons]
    constructor
    · rintro ⟨hc, h⟩
      refine ⟨⟨hc, fun t ht => (h t ht).1⟩, ?_⟩
      rintro t ⟨u, hu, ht⟩
      exact (h u hu).2 t ht
    · rintro ⟨⟨hc, h⟩, h'⟩
      exact ⟨hc, fun t ht => ⟨h t ht, fun u hu => h' u ⟨t, ht, hu⟩⟩⟩

instance along_decidable {step : σ → ε → Option σ} {C : σ → ε → Prop}
    [∀ s e, Decidable (C s e)] : ∀ s es, Decidable (Along step C s es)
  | _, [] => isTrue trivial
  | s, e :: es =>
    match h : step s e with
    | none => decidable_of_iff (C s e) (by simp [Along, h])
    | some t =>
      have : Decidable (Along step C t es) := along_decidable t es
      decidable_of_iff (C s e ∧ Along step C t es) (by simp [Along, h])

/-- `P` holds in every state that a beginning of the run leads to. -/
def Always (step : σ → ε → Option σ) (P : σ → Prop) (s : σ) (es : List ε) : Prop :=
  ∀ pre post, es = pre ++ post → ∀ t, run step s pre = some t → P t

theorem always_cons {step : σ → ε → Option σ} {P : σ → Prop} {s t : σ} {e : ε} {es : List ε}
    (h : step s e = some t) : Always step P s (e :: es) ↔ P s ∧ Always step P t es := by
  constructor
  · intro ha
    refine ⟨ha [] (e :: es) rfl s rfl, ?_⟩
    intro pre post heq u hu
    exact ha (e :: pre) post (by simp [heq]) u (run_cons.mpr ⟨t, h, hu⟩)
  · intro hp pre post heq u hu
    cases pre with
    | nil =>
      have hsu : s = u := by simpa [run] using hu
      exact hsu ▸ hp.1
    | cons a pre =>
      obtain ⟨rfl, rfl⟩ : e = a ∧ es = pre ++ post := by simpa using heq
      obtain ⟨v, hv, hu⟩ := run_cons.mp hu
      obtain rfl : t = v := by simpa [h] using hv
      exact hp.2 pre post rfl u hu

/-- The run lemma for the events: an invariant that is kept turns one condition into
another. -/
theorem along_imp {step : σ → ε → Option σ} {C D : σ → ε → Prop} {I : σ → Prop}
    (hkeep : ∀ s e t, I s → C s e → step s e = some t → I t)
    (himp : ∀ s e, I s → C s e → D s e) {s : σ} {es : List ε} (hs : I s)
    (hc : Along step C s es) : Along step D s es := by
  induction es generalizing s with
  | nil => trivial
  | cons e es ih =>
    exact ⟨himp s e hs hc.1, fun t ht => ih (hkeep s e t hs hc.1 ht) (hc.2 t ht)⟩

theorem always_of_along {step : σ → ε → Option σ} {C : σ → ε → Prop} {I P : σ → Prop}
    (hkeep : ∀ s e t, I s → C s e → step s e = some t → I t) (himp : ∀ s, I s → P s)
    {s : σ} {es : List ε} (hs : I s) (hc : Along step C s es) : Always step P s es := by
  intro pre post heq t ht
  rw [heq, along_append] at hc
  exact himp t (run_induct C hkeep hs hc.1 ht)

/-- A property holds all along a possible run exactly when each event meets `C`, if
events that meet it keep the invariant `I` behind the property and others break it. -/
theorem always_iff_along {step : σ → ε → Option σ} {C : σ → ε → Prop} {I P : σ → Prop}
    (hkeep : ∀ s e t, I s → C s e → step s e = some t → I t)
    (hbreak : ∀ s e t, I s → ¬ C s e → step s e = some t → ¬ P t)
    (himp : ∀ s, I s → P s) {s t : σ} {es : List ε} (hs : I s) (hr : run step s es = some t) :
    Always step P s es ↔ Along step C s es := by
  induction es generalizing s with
  | nil => exact iff_of_true (always_of_along hkeep himp hs trivial) trivial
  | cons e es ih =>
    obtain ⟨u, hu, ht⟩ := run_cons.mp hr
    rw [always_cons hu]
    by_cases hc : C s e
    · have hrest := ih (hkeep s e u hs hc hu) ht
      simp only [Along, hc, hu, Option.some.injEq, forall_eq', true_and, hrest, himp s hs]
    · have hbad := hbreak s e u hs hc hu
      have hfirst : ¬ Always step P u es := fun ha => hbad (ha [] es rfl u rfl)
      simp [Along, hc, hfirst]

end EspDrivers.Trace
