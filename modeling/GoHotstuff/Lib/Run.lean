import Mathlib.Data.List.Basic

/-!
# Runs of a deterministic system

A system is a function `step` from a state and an input to the next state; a run feeds it a list of inputs.  Conditions
on single steps are carried along a run by `StepsMeet`, and what each step preserves holds after the run.
-/

namespace Lib

/-- The state after the inputs `as`. -/
def run {σ α : Type} (step : σ → α → σ) (s : σ) (as : List α) : σ := as.foldl step s

@[simp]
theorem run_nil {σ α : Type} (step : σ → α → σ) (s : σ) : run step s [] = s := rfl

@[simp]
theorem run_cons {σ α : Type} (step : σ → α → σ) (s : σ) (a : α) (as : List α) :
    run step s (a :: as) = run step (step s a) as := rfl

@[simp]
theorem run_append {σ α : Type} (step : σ → α → σ) (s : σ) (as bs : List α) :
    run step s (as ++ bs) = run step (run step s as) bs := List.foldl_append

/-- Every step of the run meets `C`, which speaks of the state before the step and of the input. -/
def StepsMeet {σ α : Type} (step : σ → α → σ) (C : σ → α → Prop) : σ → List α → Prop
  | _, [] => True
  | s, a :: as => C s a ∧ StepsMeet step C (step s a) as

instance decidableStepsMeet {σ α : Type} (step : σ → α → σ) (C : σ → α → Prop) [∀ s a, Decidable (C s a)] :
    (s : σ) → (as : List α) → Decidable (StepsMeet step C s as)
  | _, [] => .isTrue trivial
  | s, a :: as => @instDecidableAnd _ _ _ (decidableStepsMeet step C (step s a) as)

theorem stepsMeet_append {σ α : Type} {step : σ → α → σ} {C : σ → α → Prop} {s : σ} {as bs : List α} :
    StepsMeet step C s (as ++ bs) ↔ StepsMeet step C s as ∧ StepsMeet step C (run step s as) bs := by
  induction as generalizing s with
  | nil => simp [StepsMeet]
  | cons a as ih => simp only [List.cons_append, StepsMeet, run_cons, ih, and_assoc]

/-- The invariant rule. -/
theorem StepsMeet.invariant {σ α : Type} {step : σ → α → σ} {C : σ → α → Prop} {I : σ → Prop}
    (hstep : ∀ s a, I s → C s a → I (step s a)) {s : σ} {as : List α} (h : StepsMeet step C s as) (h0 : I s) :
    I (run step s as) := by
  induction as generalizing s with
  | nil => exact h0
  | cons a as ih => exact ih h.2 (hstep s a h0 h.1)

end Lib
