/-!
# Checked computations

What a computation that may be refused went through when it was not.
-/

namespace ShiftReduce

variable {ε α β : Type}

theorem exists_of_bind_eq_ok {x : Except ε α} {f : α → Except ε β} {result : β}
    (hbind : x >>= f = .ok result) : ∃ a, x = .ok a ∧ f a = .ok result := by
  cases x with
  | error e => cases hbind
  | ok a => exact ⟨a, rfl, hbind⟩

theorem exists_of_isOk {x : Except ε α} (hok : x.isOk = true) : ∃ a, x = .ok a := by
  cases x with
  | error e => cases hok
  | ok a => exact ⟨a, rfl⟩

theorem eq_ok_getD_of_isOk [Inhabited α] {x : Except ε α} (hok : x.isOk = true) :
    x = .ok (x.toOption.getD default) := by
  obtain ⟨a, rfl⟩ := exists_of_isOk hok
  rfl

/-- A computation that always goes on from what it keeps goes on to the end. -/
theorem exists_foldlM {f : β → α → Except ε β} {P : β → Prop} {xs : List α}
    (hstep : ∀ acc, P acc → ∀ x ∈ xs, ∃ next, f acc x = .ok next ∧ P next) {start : β}
    (hstart : P start) : ∃ result, xs.foldlM f start = .ok result ∧ P result := by
  induction xs generalizing start with
  | nil => exact ⟨start, rfl, hstart⟩
  | cons x xs ih =>
    obtain ⟨next, hnext, hkept⟩ := hstep start hstart x List.mem_cons_self
    rw [List.foldlM_cons, hnext]
    exact ih (fun acc hacc y hy => hstep acc hacc y (List.mem_cons_of_mem x hy)) hkept

theorem foldlM_append_of_eq_ok {f : β → α → Except ε β} {before after : List α} {start result : β}
    (hbefore : before.foldlM f start = .ok result) :
    (before ++ after).foldlM f start = after.foldlM f result := by
  rw [List.foldlM_append, hbefore]
  rfl

section Alike

variable {γ δ : Type} {R : α → β → Prop} {S : γ → δ → Prop}

/-- Both computations are refused with one error, or they answer with related results. -/
inductive Alike (R : α → β → Prop) : Except ε α → Except ε β → Prop
  | ok {a : α} {b : β} (hresults : R a b) : Alike R (.ok a) (.ok b)
  | error (e : ε) : Alike R (.error e) (.error e)

/-- Computations that are alike may go on alike. -/
theorem Alike.bind {x : Except ε α} {y : Except ε β} {f : α → Except ε γ} {g : β → Except ε δ}
    (hxy : Alike R x y) (hfg : ∀ a b, R a b → Alike S (f a) (g b)) :
    Alike S (x >>= f) (y >>= g) := by
  cases hxy with
  | ok hresults => exact hfg _ _ hresults
  | error e => exact .error e

end Alike

section Fold

variable {f : β → α → Except ε β} {P : List α → β → Prop}
  (hstep : ∀ before x acc next, P before acc → f acc x = .ok next → P (before ++ [x]) next)

include hstep

theorem foldlM_invariant_from {before xs : List α} {start result : β} (hstart : P before start)
    (hrun : xs.foldlM f start = .ok result) : P (before ++ xs) result := by
  induction xs generalizing before start with
  | nil =>
    obtain rfl : start = result := Except.ok.inj hrun
    simpa using hstart
  | cons x xs ih =>
    rw [List.foldlM_cons] at hrun
    obtain ⟨next, hnext, hrest⟩ := exists_of_bind_eq_ok hrun
    simpa using ih (hstep before x start next hstart hnext) hrest

/-- What every accepted element keeps of those before it holds of all of them in the end. -/
theorem foldlM_invariant {xs : List α} {start result : β} (hstart : P [] start)
    (hrun : xs.foldlM f start = .ok result) : P xs result :=
  foldlM_invariant_from hstep hstart hrun

end Fold

end ShiftReduce
