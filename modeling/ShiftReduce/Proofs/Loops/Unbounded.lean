import Mathlib.Order.WellFounded
import ShiftReduce.Loop

/-!
# Loops without a bound

The loop repeats its step until there is a last state, however long that takes. If the step itself
is made of loops, it may fail to answer. The loop has a result exactly if it ends, and it ends when
every step but the last goes down in some well-founded order, or when a bounded run of it comes to
its last state.
-/

namespace ShiftReduce.Loop

universe u

variable {σ : Type u}

/-- From the first state the loop ends with the second one, after finitely many steps. -/
inductive Ends (step : σ → Option (Step σ)) : σ → σ → Prop
  | last {state final : σ} (hlast : step state = some (.last final)) : Ends step state final
  | next {state next final : σ} (hnext : step state = some (.next next))
      (hrest : Ends step next final) : Ends step state final

open Classical in
/-- What comes of repeating `step` until it answers with the last state. There is no result if that
never happens. -/
noncomputable def forever (step : σ → Option (Step σ)) (state : σ) : Option σ :=
  if hends : ∃ final, Ends step state final then some hends.choose else none

variable {step : σ → Option (Step σ)} {state next final : σ}

theorem Ends.unique (hends : Ends step state final) {other : σ} (hother : Ends step state other) :
    final = other := by
  induction hends with
  | last hlast =>
    cases hother with
    | last hlast' => simpa [hlast] using hlast'
    | next hnext' _ => simp [hlast] at hnext'
  | next hnext _ ih =>
    cases hother with
    | last hlast' => simp [hnext] at hlast'
    | next hnext' hrest' =>
      obtain rfl : _ = _ := Step.next.inj (Option.some.inj (hnext.symm.trans hnext'))
      exact ih hrest'

theorem forever_eq_some_iff : forever step state = some final ↔ Ends step state final := by
  unfold forever
  split
  next hends =>
    rw [Option.some_inj]
    exact ⟨fun heq => heq ▸ hends.choose_spec, hends.choose_spec.unique⟩
  next hnot => exact ⟨fun heq => (nomatch heq), fun hends => absurd ⟨final, hends⟩ hnot⟩

/-- One step, and what comes of repeating it from there. -/
theorem forever_eq (step : σ → Option (Step σ)) (state : σ) :
    forever step state =
      match step state with
      | none => none
      | some (.last final) => some final
      | some (.next next) => forever step next := by
  ext final
  rw [forever_eq_some_iff]
  constructor
  · intro hends
    cases hends with
    | last hlast => rw [hlast]
    | next hnext hrest =>
      rw [hnext]
      exact forever_eq_some_iff.mpr hrest
  · intro hfinal
    split at hfinal
    next => cases hfinal
    next hlast => exact .last (Option.some.inj hfinal ▸ hlast)
    next hnext => exact .next hnext (forever_eq_some_iff.mp hfinal)

theorem forever_of_last (hlast : step state = some (.last final)) :
    forever step state = some final := by
  rw [forever_eq, hlast]

theorem forever_of_next (hnext : step state = some (.next next)) :
    forever step state = forever step next := by
  rw [forever_eq, hnext]

/-- The loop ends when every step but the last goes down. -/
theorem exists_forever_of_wellFounded {step : σ → Step σ} {P : σ → Prop} {down : σ → σ → Prop}
    (hdown : WellFounded down) (hnext : ∀ s t, P s → step s = .next t → P t ∧ down t s)
    (hstart : P state) :
    ∃ s final, P s ∧ step s = .last final ∧
      forever (fun s => some (step s)) state = some final := by
  induction state using hdown.induction with
  | _ state ih =>
    cases hstep : step state with
    | last final => exact ⟨state, final, hstart, hstep, forever_of_last (congrArg some hstep)⟩
    | next next =>
      obtain ⟨hkept, hless⟩ := hnext _ _ hstart hstep
      obtain ⟨s, final, hs, hlast, hforever⟩ := ih next hless hkept
      exact ⟨s, final, hs, hlast, (forever_of_next (congrArg some hstep)).trans hforever⟩

/-- A bounded run that comes to its last state is what the loop without a bound comes to. -/
theorem forever_eq_run (bounded : σ → Step σ) {P : σ → Prop}
    (hstep : ∀ s, P s → step s = some (bounded s))
    (hnext : ∀ s t, P s → bounded s = .next t → P t) {bound : Nat} (hstart : P state)
    (hlast : bounded (run bounded bound state) = .last (run bounded bound state)) :
    forever step state = some (run bounded bound state) := by
  induction bound generalizing state with
  | zero => exact forever_of_last ((hstep state hstart).trans (congrArg some hlast))
  | succ bound ih =>
    cases hfirst : bounded state with
    | last final =>
      rw [run_succ_of_last hfirst]
      exact forever_of_last ((hstep state hstart).trans (congrArg some hfirst))
    | next next =>
      rw [run_succ_of_next hfirst] at hlast ⊢
      rw [forever_of_next ((hstep state hstart).trans (congrArg some hfirst))]
      exact ih (hnext _ _ hstart hfirst) hlast

end ShiftReduce.Loop
