import Mathlib

/-!
# Two runs side by side

What is said of two runs of a program that may fail: both fail, or both succeed with
results in a relation (`Matched`). The relation goes through sequencing
(`Matched.bind`) and through loops (`Matched.foldlM`), so it is proved of a program by
proving it of its parts. A loop may also run beside one that leaves some of its turns out
(`Matched.foldlM_filter`).
-/

variable {ε ε' α α' β β' : Type}

/-- Both fail, or both succeed with related results. -/
inductive Matched (R : α → α' → Prop) : Except ε α → Except ε' α' → Prop
  | ok {x : α} {x' : α'} : R x x' → Matched R (.ok x) (.ok x')
  | error {e : ε} {e' : ε'} : Matched R (.error e) (.error e')

namespace Matched

variable {R : α → α' → Prop} {S : β → β' → Prop}

/-- A run beside itself. -/
theorem same (run : Except ε α) : Matched Eq run run := by
  cases run with
  | ok x => exact .ok rfl
  | error e => exact .error

/-- Two runs that match go on with steps that match. -/
theorem bind {run : Except ε α} {run' : Except ε' α'} {f : α → Except ε β} {f' : α' → Except ε' β'}
    (h : Matched R run run') (hf : ∀ x x', R x x' → Matched S (f x) (f' x')) :
    Matched S (run >>= f) (run' >>= f') := by
  cases h with
  | ok h => exact hf _ _ h
  | error => exact .error

/-- Two runs that match may be followed by functions that keep the relation. -/
theorem map {run : Except ε α} {run' : Except ε' α'} {f : α → β} {f' : α' → β'}
    (h : Matched R run run') (hf : ∀ x x', R x x' → S (f x) (f' x')) :
    Matched S (run.map f) (run'.map f') := by
  cases h with
  | ok h => exact .ok (hf _ _ h)
  | error => exact .error

/-- **Loops side by side.** -/
theorem foldlM {γ γ' : Type} {Q : γ → γ' → Prop} {step : α → γ → Except ε α}
    {step' : α' → γ' → Except ε' α'}
    (hstep : ∀ x x' a a', R x x' → Q a a' → Matched R (step x a) (step' x' a'))
    {as : List γ} {as' : List γ'} (has : List.Forall₂ Q as as') {x : α} {x' : α'} (hx : R x x') :
    Matched R (as.foldlM step x) (as'.foldlM step' x') := by
  induction has generalizing x x' with
  | nil => exact .ok hx
  | cons ha _ ih =>
    rw [List.foldlM_cons, List.foldlM_cons]
    exact (hstep _ _ _ _ hx ha).bind fun _ _ h => ih h

/-- **A loop beside one that leaves turns out.** The turns that are left out may not fail,
and may not lead out of the relation. -/
theorem foldlM_filter {γ : Type} {p : γ → Bool} {step : α → γ → Except ε α}
    {step' : α' → γ → Except ε' α'}
    (hkeep : ∀ x x' a, p a = true → R x x' → Matched R (step x a) (step' x' a))
    (hdrop : ∀ x x' a, p a = false → R x x' → ∃ y, step x a = .ok y ∧ R y x')
    (as : List γ) {x : α} {x' : α'} (hx : R x x') :
    Matched R (as.foldlM step x) ((as.filter p).foldlM step' x') := by
  induction as generalizing x x' with
  | nil => exact .ok hx
  | cons a as ih =>
    rw [List.foldlM_cons]
    by_cases ha : p a = true
    · rw [List.filter_cons_of_pos ha, List.foldlM_cons]
      exact (hkeep _ _ _ ha hx).bind fun _ _ h => ih h
    · -- the other run stands still
      obtain ⟨y, hy, hr⟩ := hdrop x x' a (Bool.eq_false_iff.mpr ha) hx
      rw [List.filter_cons_of_neg ha, hy]
      exact ih hr

/-- Runs that succeed as others do, with the same results. -/
theorem congr {run₁ run₂ : Except ε α} {run₁' run₂' : Except ε' α'} (h : Matched R run₁ run₁')
    (hrun : ∀ x, run₂ = .ok x ↔ run₁ = .ok x) (hrun' : ∀ x', run₂' = .ok x' ↔ run₁' = .ok x') :
    Matched R run₂ run₂' := by
  cases h with
  | ok h =>
    rw [(hrun _).mpr rfl, (hrun' _).mpr rfl]
    exact .ok h
  | error =>
    cases hr : run₂ with
    | ok x => exact absurd ((hrun x).mp hr) (by simp)
    | error e =>
      cases hr' : run₂' with
      | ok x' => exact absurd ((hrun' x').mp hr') (by simp)
      | error e' => exact .error

end Matched
