import BadgerOS.Lib.Run
import Mathlib.Data.List.FinRange

/-!
# The rendezvous before load balancing

`sw_handle_loadbalance` (`kernel/src/scheduler/scheduler.c` lines 199–241) waits until all
CPUs have measured their load. A CPU adds 1 to `loadbalance_ready_count` when it arrives, waits
until the counter has reached `running_sched_count`, and subtracts 1 when it is done.

* `IsBarrier`: a waiting CPU finds the counter high enough exactly when all CPUs have arrived
  in its round.
* `isBarrier_iff`: that is so for at most one CPU.

**Deviation.** The counter serves both to arrive and to leave. A CPU that leaves early lowers it
before the others have looked, and these wait for the next round (`not_isBarrier_two`).
-/

namespace BadgerOS.Rendezvous

open Function Option List

/-! ## Model -/

/-- Where a CPU is: outside, in the loop that waits (line 206), or behind it. -/
inductive Phase
  | away
  | waiting
  | through
  deriving DecidableEq, Repr

/-- The counter and the `n` CPUs with a running scheduler. -/
structure State (n : ℕ) where
  /-- `loadbalance_ready_count`. -/
  readyCount : ℤ
  phase : Fin n → Phase
  /-- Ghost: the number of times that the CPU has arrived. -/
  round : Fin n → ℕ

/-- The atomic steps of a CPU. -/
inductive Action (n : ℕ)
  | arrive (i : Fin n)
  | check (i : Fin n)
  | leave (i : Fin n)

variable {n : ℕ}

/-- The increment (line 204), the test of the loop (line 206), where `min` is
    `running_sched_count`, and the decrement (lines 219 and 240). -/
def step (s : State n) : Action n → Option (State n)
  | .arrive i =>
    if s.phase i = .away then
      some ⟨s.readyCount + 1, update s.phase i .waiting, update s.round i (s.round i + 1)⟩
    else none
  | .check i =>
    if s.phase i = .waiting then
      some (if s.readyCount < n then s else { s with phase := update s.phase i .through })
    else none
  | .leave i =>
    if s.phase i = .through then
      some { s with readyCount := s.readyCount - 1, phase := update s.phase i .away }
    else none

/-- The CPUs in `arrived` have arrived once, and none has left. -/
def gathered (arrived : List (Fin n)) : State n where
  readyCount := arrived.length
  phase := fun i => if i ∈ arrived then .waiting else .away
  round := fun i => if i ∈ arrived then 1 else 0

/-- Every interleaving of the steps. -/
abbrev Reaches (s : State n) : Prop := ∃ ops, Run step (fun _ _ => True) (gathered []) ops s

/-- A CPU that waits finds the counter high enough once all CPUs have arrived in its round, and
    not before that. -/
def IsBarrier (n : ℕ) : Prop :=
  ∀ s : State n, Reaches s → ∀ i, s.phase i = .waiting →
    ((n : ℤ) ≤ s.readyCount ↔ ∀ j, s.round i ≤ s.round j)

/-! ## One CPU -/

/-- The counter tells where the only CPU is. -/
def Counted (s : State n) : Prop := ∀ i, s.readyCount = if s.phase i = .away then 0 else 1

theorem Counted.step {s t : State n} {a : Action n} (h : Counted s) (hn : n ≤ 1)
    (hst : step s a = some t) : Counted t := by
  intro j
  cases a with simp only [Rendezvous.step, ite_none_right_eq_some, some.injEq] at hst
  | arrive i =>
    obtain ⟨hi, rfl⟩ := hst
    obtain rfl : j = i := Fin.ext (by omega)
    simp [h j, hi]
  | check i =>
    obtain ⟨hi, rfl⟩ := hst
    rcases lt_or_ge s.readyCount n with hlow | hhigh
    · rw [if_pos hlow]
      exact h j
    · -- behind the loop the CPU still counts
      rw [if_neg (not_lt.mpr hhigh)]
      obtain rfl : j = i := Fin.ext (by omega)
      simp [h j, hi]
  | leave i =>
    obtain ⟨hi, rfl⟩ := hst
    obtain rfl : j = i := Fin.ext (by omega)
    simp [h j, hi]

theorem counted_of_reaches {s : State n} (hn : n ≤ 1) (h : Reaches s) : Counted s := by
  obtain ⟨ops, hrun⟩ := h
  apply hrun.invariant fun h _ hst => Counted.step h hn hst
  simp [Counted, gathered]

/-! ## More CPUs -/

/-- The CPUs arrive one after the other, and the run goes on. -/
theorem run_gathered {ops : List (Action n)} {s : State n} (arrived : List (Fin n))
    (h : arrived.Nodup) (hrun : Run step (fun _ _ => True) (gathered arrived) ops s) :
    Run step (fun _ _ => True) (gathered []) (arrived.reverse.map .arrive ++ ops) s := by
  induction arrived generalizing ops with
  | nil => exact hrun
  | cons i arrived ih =>
    obtain ⟨hi, hnodup⟩ := nodup_cons.mp h
    rw [reverse_cons, map_append, append_assoc]
    refine ih hnodup (.cons trivial ?_ hrun)
    have hphase : (gathered arrived).phase i = .away := if_neg hi
    rw [step, if_pos hphase, some.injEq, gathered, gathered, State.mk.injEq]
    refine ⟨by simp, ?_, ?_⟩
    · funext j
      rcases eq_or_ne j i with rfl | hj <;> simp [*]
    · funext j
      rcases eq_or_ne j i with rfl | hj <;> simp [*]

/-- All CPUs have arrived, and one of them has left. -/
def oneLeft (i : Fin n) : State n where
  readyCount := n - 1
  phase := update (fun _ => .waiting) i .away
  round := fun _ => 1

theorem reaches_oneLeft (i : Fin n) : Reaches (oneLeft i) := by
  have hall : gathered (finRange n) = ⟨n, fun _ => .waiting, fun _ => 1⟩ := by
    simp [gathered]
  have hrun : Run step (fun _ _ => True) (gathered (finRange n)) [.check i, .leave i]
      (oneLeft i) := by
    rw [hall]
    refine .cons (t := ⟨n, update (fun _ => .waiting) i .through, fun _ => 1⟩) trivial ?_
      (.cons trivial ?_ (.nil _))
    · simp [step]
    · simp [step, oneLeft]
  exact ⟨_, run_gathered _ (nodup_finRange n) hrun⟩

/-- The rendezvous is a barrier for at most one CPU. -/
theorem isBarrier_iff {n : ℕ} : IsBarrier n ↔ n ≤ 1 := by
  constructor
  · intro h
    by_contra hn
    -- the second CPU finds the counter too low, although all have arrived
    have hlow := (h _ (reaches_oneLeft ⟨0, by omega⟩) ⟨1, by omega⟩ (by simp [oneLeft, update])).mpr
      (by simp [oneLeft])
    simp only [oneLeft] at hlow
    omega
  · intro hn s hs i hi
    have hcount := counted_of_reaches hn hs i
    rw [hi, if_neg (by decide)] at hcount
    refine iff_of_true (by omega) fun j => ?_
    rw [show j = i from Fin.ext (by omega)]

theorem isBarrier_one : IsBarrier 1 := isBarrier_iff.mpr le_rfl

/-- Both of two CPUs have arrived, the first one leaves, and the second one waits on. -/
theorem not_isBarrier_two : ¬ ∀ n, IsBarrier n := fun h => by
  have hlow := (h 2 _ (reaches_oneLeft 0) 1 (by decide)).mpr (by decide)
  exact absurd hlow (by decide)

end BadgerOS.Rendezvous
