import Mathlib

/-!
# Labelled transition systems

A program whose state changes call by call is an `Lts`: one relation saying which
label (a call with its arguments and its answer) takes which state to which.

* `Lts.Run` — a run, with the labels it issued in order; `Lts.Reachable` — a state
  some run ends in.  `Lts.run_cons_iff` takes the first step off.
* `Lts.Run.invariant` — what holds at the start and survives one step holds at
  the end of every run.
* `Lts.only` — the steps with a property; `Lts.Run.only` turns runs whose steps have one
  property into runs whose steps have another.
* `Lts.Run.simulates` — a step-by-step simulation extends to whole runs, with
  the *same labels*: every answer the concrete system gives is an answer the
  abstract one gives.
-/

/-- A transition system over states `σ` whose steps carry labels `ℓ`. -/
structure Lts (σ ℓ : Type*) where
  /-- `step s a t`: the label `a` is possible in `s` and leads to `t`. -/
  step : σ → ℓ → σ → Prop

namespace Lts

variable {σ τ ℓ : Type*} {M : Lts σ ℓ} {N : Lts τ ℓ}

/-- `M.Run s tr t`: the labels `tr`, issued in order from `s`, end in `t`. -/
inductive Run (M : Lts σ ℓ) (s : σ) : List ℓ → σ → Prop
  | nil : Run M s [] s
  | snoc {tr : List ℓ} {t u : σ} {a : ℓ} : Run M s tr t → M.step t a u → Run M s (tr ++ [a]) u

/-- A state some run from `s` ends in. -/
def Reachable (M : Lts σ ℓ) (s t : σ) : Prop := ∃ tr, M.Run s tr t

theorem Reachable.refl (s : σ) : M.Reachable s s := ⟨[], .nil⟩

theorem Reachable.tail {s t u : σ} {a : ℓ} (h : M.Reachable s t) (ha : M.step t a u) :
    M.Reachable s u := by
  obtain ⟨tr, hr⟩ := h
  exact ⟨tr ++ [a], hr.snoc ha⟩

/-- Runs one after the other. -/
theorem Run.append {s t u : σ} {tr₁ tr₂ : List ℓ} (h₁ : M.Run s tr₁ t) (h₂ : M.Run t tr₂ u) :
    M.Run s (tr₁ ++ tr₂) u := by
  induction h₂ with
  | nil => rwa [List.append_nil]
  | snoc _ ha ih =>
    rw [← List.append_assoc]
    exact ih.snoc ha

/-- A step and then a run. -/
theorem Run.cons {s t u : σ} {a : ℓ} {tr : List ℓ} (ha : M.step s a t) (h : M.Run t tr u) :
    M.Run s (a :: tr) u :=
  Run.append (.snoc .nil ha) h

theorem run_nil_iff {s t : σ} : M.Run s [] t ↔ t = s := by
  constructor
  · intro h
    generalize htr : ([] : List ℓ) = tr at h
    cases h with
    | nil => rfl
    | snoc _ _ =>
      exact absurd htr (List.append_ne_nil_of_right_ne_nil _ (List.cons_ne_nil _ _)).symm
  · rintro rfl
    exact .nil

/-- The first step of a run, and the rest. -/
theorem run_cons_iff {s t : σ} {a : ℓ} {tr : List ℓ} :
    M.Run s (a :: tr) t ↔ ∃ u, M.step s a u ∧ M.Run u tr t := by
  constructor
  · intro h
    generalize htr : a :: tr = tr' at h
    induction h generalizing tr with
    | nil => cases htr
    | @snoc tr₀ t u b hrun hstep ih =>
      rcases List.cons_eq_append_iff.1 htr with ⟨rfl, hb⟩ | ⟨tr₁, rfl, rfl⟩
      · obtain ⟨rfl, rfl⟩ := List.cons.inj hb
        rw [run_nil_iff.1 hrun] at hstep
        exact ⟨u, hstep, .nil⟩
      · obtain ⟨v, hv, hrest⟩ := ih rfl
        exact ⟨v, hv, hrest.snoc hstep⟩
  · rintro ⟨u, ha, h⟩
    exact h.cons ha

/-- **The invariant rule.**  A property of the first state that every step
preserves is a property of the last one. -/
theorem Run.invariant {P : σ → Prop} (hstep : ∀ t a u, P t → M.step t a u → P u) {s t : σ}
    {tr : List ℓ} (hs : P s) (h : M.Run s tr t) : P t := by
  induction h with
  | nil => exact hs
  | snoc _ ha ih => exact hstep _ _ _ ih ha

theorem Reachable.invariant {P : σ → Prop} (hstep : ∀ t a u, P t → M.step t a u → P u)
    {s t : σ} (hs : P s) (h : M.Reachable s t) : P t := by
  obtain ⟨tr, hr⟩ := h
  exact hr.invariant hstep hs

/-- The steps with the property `C`: a run of it is a run in which every step has it. -/
def only (M : Lts σ ℓ) (C : σ → ℓ → σ → Prop) : Lts σ ℓ where
  step s a t := M.step s a t ∧ C s a t

theorem Run.of_only {C : σ → ℓ → σ → Prop} {s t : σ} {tr : List ℓ} (h : (M.only C).Run s tr t) :
    M.Run s tr t := by
  induction h with
  | nil => exact .nil
  | snoc _ ha ih => exact ih.snoc ha.1

/-- **From step to step.**  Where the invariant `I` holds, steps with `C` have `D`. -/
theorem Run.only {I : σ → Prop} {C D : σ → ℓ → σ → Prop}
    (hstep : ∀ t a u, I t → M.step t a u → C t a u → D t a u ∧ I u) {s t : σ} {tr : List ℓ}
    (hs : I s) (h : (M.only C).Run s tr t) : (M.only D).Run s tr t ∧ I t := by
  induction h with
  | nil => exact ⟨.nil, hs⟩
  | snoc _ ha ih =>
    obtain ⟨hD, hI⟩ := hstep _ _ _ ih.2 ha.1 ha.2
    exact ⟨ih.1.snoc ⟨ha.1, hD⟩, hI⟩

/-- **The simulation rule.**  If every step of `M` from related states can be
answered by a step of `N` with the same label, so can every run. -/
theorem Run.simulates {R : σ → τ → Prop}
    (hstep : ∀ s a s' t, R s t → M.step s a s' → ∃ t', N.step t a t' ∧ R s' t')
    {s s' : σ} {t : τ} {tr : List ℓ} (hR : R s t) (h : M.Run s tr s') :
    ∃ t', N.Run t tr t' ∧ R s' t' := by
  induction h with
  | nil => exact ⟨t, .nil, hR⟩
  | snoc _ ha ih =>
    obtain ⟨u, hu, hRu⟩ := ih
    obtain ⟨v, hv, hRv⟩ := hstep _ _ _ _ hRu ha
    exact ⟨v, hu.snoc hv, hRv⟩

end Lts
