import Mathlib.Tactic

/-!
# Runs of a partial step function

`Run step ok s os t` says that the operations `os` lead from `s` to `t`, each of
them meeting the condition `ok` in the state it is applied to. A partial step
function has no successor where an operation is not allowed or does not return.

* `Run.invariant`: what every step preserves holds at the end of every run.
* `Run.cons_get`, `Run.of_exec`: runs of a step function that can be evaluated.
-/

/-- The operations `os` lead from one state to another by steps that meet `ok`. -/
inductive Run {σ ο : Type*} (step : σ → ο → Option σ) (ok : σ → ο → Prop) :
    σ → List ο → σ → Prop
  | nil (s : σ) : Run step ok s [] s
  | cons {s t u : σ} {o : ο} {os : List ο} :
      ok s o → step s o = some t → Run step ok t os u → Run step ok s (o :: os) u

namespace Run

variable {σ ο : Type*} {step : σ → ο → Option σ} {ok ok' : σ → ο → Prop} {os : List ο}

/-- The induction over runs: a property that every step preserves is an invariant. -/
theorem invariant {P : σ → Prop} (hstep : ∀ {s t o}, P s → ok s o → step s o = some t → P t)
    {s t : σ} (h : Run step ok s os t) (hs : P s) : P t := by
  induction h with
  | nil s => exact hs
  | cons hok hst _ ih => exact ih (hstep hs hok hst)

/-- A first step whose successor is read off the step function. -/
theorem cons_get {s u : σ} {o : ο} (hok : ok s o) (h : (step s o).isSome = true)
    (hrest : Run step ok ((step s o).get h) os u) : Run step ok s (o :: os) u :=
  .cons hok (Option.some_get h).symm hrest

/-- The run of a list of operations, if each of them meets the condition and has a successor. -/
def exec (step : σ → ο → Option σ) (ok : σ → ο → Prop) [∀ s o, Decidable (ok s o)] :
    σ → List ο → Option σ
  | s, [] => some s
  | s, o :: os => if ok s o then (step s o).bind fun t => exec step ok t os else none

theorem of_exec [∀ s o, Decidable (ok s o)] {s t : σ} (h : exec step ok s os = some t) : Run step ok s os t := by
  induction os generalizing s with
  | nil =>
    obtain rfl := Option.some.inj h
    exact .nil s
  | cons o os ih =>
    simp only [exec] at h
    split at h
    · rename_i hok
      obtain ⟨u, hu, hrest⟩ := Option.bind_eq_some_iff.1 h
      exact .cons hok hu (ih hrest)
    · contradiction

/-- A run whose end is known by some of its values. -/
theorem of_exec_map [∀ s o, Decidable (ok s o)] {β : Type*} {f : σ → β} {v : β} {s : σ}
    (h : (exec step ok s os).map f = some v) : ∃ t, Run step ok s os t ∧ f t = v := by
  obtain ⟨t, ht, hv⟩ := Option.map_eq_some_iff.1 h
  exact ⟨t, of_exec ht, hv⟩

end Run
