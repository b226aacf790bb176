import Mathlib.Tactic

/-!
# Runs with outputs and simulation

`Trace step ok s os ws t` says that the operations `os` lead from `s` to `t` and
return `ws`, each of them meeting the condition `ok` in the state it is applied to.
`replay` runs a total machine. A simulation relates the states of the two so that
every step returns the same and keeps the relation.

* `Trace.simulates`: related states give the same outputs over whole runs.
* `Trace.invariant`: what every step preserves holds at the end of every run.
* `Behaviour`, `Trace.refines`: runs of a specification that is a relation, and that
  every run is one when every step is.
* `Trace.cons_get`: runs of a step function that can be evaluated.
-/

/-- The operations `os` lead from one state to another by steps that meet `ok` and return `ws`. -/
inductive Trace {σ ο ω : Type*} (step : σ → ο → Option (ω × σ)) (ok : σ → ο → Prop) :
    σ → List ο → List ω → σ → Prop
  | nil (s : σ) : Trace step ok s [] [] s
  | cons {s t u : σ} {o : ο} {os : List ο} {w : ω} {ws : List ω} :
      ok s o → step s o = some (w, t) → Trace step ok t os ws u →
      Trace step ok s (o :: os) (w :: ws) u

/-- The outputs and the last state of a run of a total machine. -/
def replay {τ ο ω : Type*} (spec : τ → ο → ω × τ) : τ → List ο → List ω × τ
  | a, [] => ([], a)
  | a, o :: os => ((spec a o).1 :: (replay spec (spec a o).2 os).1, (replay spec (spec a o).2 os).2)

/-- The runs of a specification that relates a state and an operation to the outputs and
    states it allows. -/
inductive Behaviour {τ ο ω : Type*} (spec : τ → ο → ω → τ → Prop) :
    τ → List ο → List ω → τ → Prop
  | nil (a : τ) : Behaviour spec a [] [] a
  | cons {a b c : τ} {o : ο} {os : List ο} {w : ω} {ws : List ω} :
      spec a o w b → Behaviour spec b os ws c → Behaviour spec a (o :: os) (w :: ws) c

namespace Trace

variable {σ τ ο ω : Type*} {step : σ → ο → Option (ω × σ)} {ok : σ → ο → Prop} {os : List ο}
  {s t : σ} {ws : List ω}

/-- If every step of a machine returns what the specification returns and keeps the
    states related, so does every run. -/
theorem simulates {spec : τ → ο → ω × τ} {R : σ → τ → Prop}
    (hstep : ∀ {s a o w t}, R s a → ok s o → step s o = some (w, t) → w = (spec a o).1 ∧ R t (spec
      a o).2)
    (h : Trace step ok s os ws t) {a : τ} (hs : R s a) :
    ws = (replay spec a os).1 ∧ R t (replay spec a os).2 := by
  induction h generalizing a with
  | nil s => exact ⟨rfl, hs⟩
  | cons hok hst _ ih =>
    obtain ⟨rfl, ht⟩ := hstep hs hok hst
    obtain ⟨rfl, hu⟩ := ih ht
    exact ⟨rfl, hu⟩

/-- If every step from a state with the invariant keeps it and is a step of the specification,
    every run is a run of the specification. -/
theorem refines {spec : τ → ο → ω → τ → Prop} {P : σ → Prop} {abs : σ → τ}
    (hstep : ∀ {s t o w}, P s → ok s o → step s o = some (w, t) → P t ∧ spec (abs s) o w (abs t))
    (h : Trace step ok s os ws t) (hs : P s) : P t ∧ Behaviour spec (abs s) os ws (abs t) := by
  induction h with
  | nil s => exact ⟨hs, .nil _⟩
  | cons hok hst _ ih =>
    obtain ⟨ht, hspec⟩ := hstep hs hok hst
    obtain ⟨hu, hrest⟩ := ih ht
    exact ⟨hu, .cons hspec hrest⟩

/-- A property that every step preserves holds at the end of every run. -/
theorem invariant {P : σ → Prop} (hstep : ∀ {s t o w}, P s → ok s o → step s o = some (w, t) → P t)
    (h : Trace step ok s os ws t) (hs : P s) : P t := by
  induction h with
  | nil s => exact hs
  | cons hok hst _ ih => exact ih (hstep hs hok hst)

/-- A first step whose output and successor are read off the step function. -/
theorem cons_get {s u : σ} {o : ο} (hok : ok s o) (h : (step s o).isSome = true)
    (hrest : Trace step ok ((step s o).get h).2 os ws u) :
    Trace step ok s (o :: os) (((step s o).get h).1 :: ws) u :=
  .cons hok (Option.some_get h).symm hrest

end Trace
