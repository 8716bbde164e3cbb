/-!
# Bounded loops

A loop is given by its step, which says of a state whether it is the last or what comes next.
Running it takes a bound on the number of steps; `Loop.run_last` says that any measure below the
bound makes the bound invisible.
-/

namespace ShiftReduce

universe u

/-- What a step makes of a state. -/
inductive Loop.Step (σ : Type u) where
  /-- The state in which the loop ends. -/
  | last (state : σ)
  /-- The state from which the loop goes on. -/
  | next (state : σ)

variable {σ : Type u}

/-- Repeats `step` until it answers with the last state, at most `bound` times. -/
def Loop.run (step : σ → Loop.Step σ) : Nat → σ → σ
  | 0, state => state
  | bound + 1, state =>
    match step state with
    | .last final => final
    | .next state => Loop.run step bound state

namespace Loop

variable {step : σ → Step σ}

theorem run_succ_of_last {state final : σ} (hlast : step state = .last final) (bound : Nat) :
    run step (bound + 1) state = final := by
  simp [run, hlast]

theorem run_succ_of_next {state next : σ} (hnext : step state = .next next) (bound : Nat) :
    run step (bound + 1) state = run step bound next := by
  simp [run, hnext]

/-- What every step keeps, the whole run keeps. -/
theorem run_invariant {P : σ → Prop} (hlast : ∀ s t, P s → step s = .last t → P t)
    (hnext : ∀ s t, P s → step s = .next t → P t) (bound : Nat) {state : σ} (hstart : P state) :
    P (run step bound state) := by
  induction bound generalizing state with
  | zero => exact hstart
  | succ bound ih =>
    cases hstep : step state with
    | last final => rw [run_succ_of_last hstep]; exact hlast _ _ hstart hstep
    | next next => rw [run_succ_of_next hstep]; exact ih (hnext _ _ hstart hstep)

/-- A run ends with a last state when a measure below its bound falls with every other step. -/
theorem run_last {P : σ → Prop} (measure : σ → Nat)
    (hfall : ∀ s t, P s → step s = .next t → P t ∧ measure t < measure s) (bound : Nat)
    {state : σ} (hstart : P state) (hbound : measure state < bound) :
    ∃ s, P s ∧ step s = .last (run step bound state) := by
  induction bound generalizing state with
  | zero => omega
  | succ bound ih =>
    cases hstep : step state with
    | last final => exact ⟨state, hstart, by rw [run_succ_of_last hstep, hstep]⟩
    | next next =>
      obtain ⟨hkept, hless⟩ := hfall _ _ hstart hstep
      rw [run_succ_of_next hstep]
      exact ih hkept (by omega)

section Related

variable {τ : Type u} {step' : τ → Step τ} {R : σ → τ → Prop}

/-- Two steps go on alike, with related states. -/
inductive Step.Related (R : σ → τ → Prop) : Step σ → Step τ → Prop
  | last {s : σ} {t : τ} (hstates : R s t) : Related R (.last s) (.last t)
  | next {s : σ} {t : τ} (hstates : R s t) : Related R (.next s) (.next t)

/-- Loops that go on alike from related states end in related states. -/
theorem run_related (hstep : ∀ s t, R s t → Step.Related R (step s) (step' t)) (bound : Nat)
    {s : σ} {t : τ} (hstart : R s t) : R (run step bound s) (run step' bound t) := by
  induction bound generalizing s t with
  | zero => exact hstart
  | succ bound ih =>
    have hrelated := hstep s t hstart
    simp only [run]
    generalize step s = first at hrelated
    generalize step' t = second at hrelated
    cases hrelated with
    | last hend => exact hend
    | next hnext => exact ih hnext

end Related

end Loop

end ShiftReduce
