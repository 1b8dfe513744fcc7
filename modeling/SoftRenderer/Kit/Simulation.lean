import Mathlib

/-!
# Simulation of a total machine by a partial one

The steps of the machine `next` always succeed; those of `step` may get stuck. A relation that each
pair of steps keeps, and under which `step` does not get stuck, holds along runs of any length.
-/

namespace Kit

variable {σ τ : Type}

/-- `n` steps, if none of them gets stuck. -/
def steps (step : σ → Option σ) : ℕ → σ → Option σ
  | 0, s => some s
  | n + 1, s => (steps step n s).bind step

theorem steps_succ {step : σ → Option σ} {n : ℕ} {s s' : σ} (h : steps step n s = some s') :
    steps step (n + 1) s = step s' := by
  rw [steps, h, Option.bind_some]

theorem exists_steps {step : σ → Option σ} {next : τ → τ} {R : ℕ → σ → τ → Prop}
    (hstep : ∀ n s t, R n s t → ∃ s', step s = some s' ∧ R (n + 1) s' (next t)) {s : σ} {t : τ}
    (h : R 0 s t) (n : ℕ) : ∃ s', steps step n s = some s' ∧ R n s' (next^[n] t) := by
  induction n with
  | zero => exact ⟨s, rfl, h⟩
  | succ n ih =>
      obtain ⟨s1, hrun, hR⟩ := ih
      obtain ⟨s2, hnext, hR2⟩ := hstep n s1 _ hR
      refine ⟨s2, ?_, ?_⟩
      · rw [steps_succ hrun, hnext]
      · rwa [Function.iterate_succ_apply']

end Kit
