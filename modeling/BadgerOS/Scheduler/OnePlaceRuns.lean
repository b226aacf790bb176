import BadgerOS.Scheduler.OnePlaceSteps

/-!
# Runs of the scheduler

Every thread is in one place in the runs whose steps meet `Keeps`.

* `step_inv`: all steps that meet the condition keep the invariant of the lists.
* `onePlace_of_run`: when `thread_handoff` answers rightly, and that every thread is in one place.
* `current_alone`: no two CPUs run one thread.

**Deviation.**

* `thread_handoff` to a CPU that runs, but has no space for the thread, returns true without
  putting the thread in the list, and `sw_handle_loadbalance` drops it
  (`loadbalance_drops_thread`). A forced handoff to a CPU that does not run returns false with
  the thread in the list.
* `mutex_wait` sets its timer before it puts the thread in the waiting list. A timer that goes
  off in between hands the thread to a CPU, and `mutex_wait` then puts it in the waiting list
  too.
-/

namespace BadgerOS.Runqueue

open Function Option

section

variable {n : ℕ} {τ ι μ : Type} [DecidableEq τ] [DecidableEq ι] [DecidableEq μ]
variable {s t : State n τ ι μ} {x : τ} {a : ι}

/-! ## The other steps -/

/-- `thread_suspend` does not cancel a suspension. -/
theorem ThreadFlags.parkable_suspend {f : ThreadFlags} (h : f.parkable = true)
    (suspendKernel : Bool) : (f.suspend suspendKernel).parkable = true := by
  unfold ThreadFlags.suspend
  split_ifs
  · exact h
  · simp only [ThreadFlags.parkable, Bool.and_eq_true, Bool.or_eq_true, Bool.and_true] at h ⊢
    exact h.1.imp_left .inl

theorem ThreadFlags.suspend_running (f : ThreadFlags) (suspendKernel : Bool) : (f.suspend suspendKernel).running = f.running ∧
      (f.suspend suspendKernel).exited = f.exited ∧
      (f.suspend suspendKernel).blocked = f.blocked := by
  unfold ThreadFlags.suspend
  split_ifs
  · exact ⟨rfl, rfl, rfl⟩
  · exact ⟨rfl, rfl, rfl⟩

theorem Inv.resume (h : Inv s) (hidle : s.tasks a = .idle) (hx : (s.flags x).resumable = true) (now : Bool) :
    Inv (((s.setFlags x ((s.flags x).resume now)).setList (.actor a) [x]).setTask a .handoff) := by
  have hnowhere := h.resumable_notMem hx
  have hhandoff : s.tasks a ≠ .handoff := by
    rw [hidle]
    nofun
  have hwake (a') {y} : update s.tasks a .handoff a' = .timerWake y ↔ s.tasks a' = .timerWake y :=
    wakes_update (by rw [hidle]; nofun) (by nofun) a'
  refine h.join (k := .actor a) ⟨fun hy => update_of_ne hy _ _, fun _ => rfl, fun a' _ => hwake a'⟩
    hnowhere (by rw [h.actor_nil hhandoff]) rfl rfl ?_ ?_ ⟨?_, ?_⟩
  · intro a' ha'
    refine update_of_ne ?_ _ _
    rintro rfl
    exact ha' rfl
  · intro a' ha'
    obtain ⟨_, m, _, hm⟩ := h.timer ((hwake a').mp ha')
    exact hnowhere _ hm
  · intro y hy
    have hy' : y ∈ [x] := by
      have hlist : y ∈ update s.lists (.actor a) [x] (.actor a) := hy
      rwa [update_self] at hlist
    rw [List.mem_singleton] at hy'
    subst hy'
    show (update s.flags y _ y).Live
    rw [update_self]
    simp only [ThreadFlags.resumable, Bool.and_eq_true, Bool.not_eq_true'] at hx
    exact ⟨rfl, hx.1.1⟩
  · show (update s.lists (.actor a) [x] (.actor a)).length =
      if update s.tasks a .handoff a = .handoff then 1 else 0
    rw [update_self, update_self]
    rfl

theorem notify_inv (h : Inv s) {m : μ} (hstep : step s (.notify a m) = some t) : Inv t := by
  simp only [step] at hstep
  split_ifs at hstep with hidle
  rw [not_not] at hidle
  cases hfind : (s.lists (.waiting m)).find? fun thread => (s.flags thread).blocked with
  | none =>
    rw [hfind] at hstep
    cases hstep
    exact h
  | some x =>
    rw [hfind] at hstep
    cases hstep
    have hx := List.mem_of_find?_eq_some hfind
    have hblocked : (s.flags x).blocked = true :=
      List.find?_some (p := fun thread => (s.flags thread).blocked) hfind
    obtain ⟨hr, he, _, _⟩ := h.place (.waiting m) x hx
    refine h.wake (x := x) (a := a) hx ?_ rfl (fun hy => update_of_ne hy _ _) rfl rfl rfl ?_ ?_ ?_
    · rw [hidle]
      nofun
    · show (update s.flags x _ x).Live
      rw [update_self]
      exact ⟨hr, he⟩
    · rw [hidle]
      nofun
    · intro a' _ ha'
      rw [(h.timer ha').1] at hblocked
      cases hblocked

theorem step_inv (h : Inv s) {op : Op n τ ι μ} (hkeeps : Keeps s op) (hstep : step s op = some t) : Inv t := by
  cases op with simp only [step] at hstep
  | start c | enter c =>
    split_ifs at hstep with hpc
    cases hstep
    exact h.idle_setCpu (by rw [hpc]; rfl) rfl (by intros; contradiction)
  | exit c =>
    split_ifs at hstep
    cases hstep
    refine h.recpu c rfl rfl rfl rfl (sameCpus_setCpu s c _) ?_ ?_
    · refine (h.place (.cpu c)).congr (.of_eq rfl rfl rfl) (fun _ _ => id) rfl ?_ fun _ _ => .rfl
      rintro c' hc'
      rw [← Place.cpu.inj hc', setCpu_self]
    · rw [setCpu_self]
      exact fun hrun y hy => h.current hrun hy
  | cpu c measured => exact cpuStep_inv h hkeeps hstep
  | wait c m timed =>
    split at hstep
    case h_1 x hpc hcurrent =>
      cases hstep
      have hx := h.current hpc hcurrent
      exact h.pop (by rw [hpc]; rfl) (List.perm_cons_erase hx).symm rfl (h.place (.queue c) x hx)
    case h_2 => cases hstep
  | threadExit c | privilege c privileged =>
    split at hstep
    case h_1 x hpc hcurrent =>
      cases hstep
      exact h.setFlags rfl rfl rfl fun c' hx => absurd hx (h.current_notMem hpc hcurrent c')
    case h_2 => cases hstep
  | procExit threads =>
    cases hstep
    exact ⟨h.exclusive, h.place, h.placed, h.timer, h.timer_unique, h.current⟩
  | suspend x suspendKernel =>
    cases hstep
    obtain ⟨hrunning, hexited, hblocked⟩ := (s.flags x).suspend_running suspendKernel
    exact h.setFlags hrunning hexited hblocked
      fun _ _ hp => ThreadFlags.parkable_suspend hp suspendKernel
  | resume a x now =>
    split_ifs at hstep with hidle hx
    · cases hstep
      exact h.resume (not_not.mp hidle) hx now
    · cases hstep
      exact h
  | notify a m => exact notify_inv h hstep
  | timer a x =>
    split_ifs at hstep with hidle
    cases hstep
    have hset : Inv (s.setTask a (.timer x)) :=
      h.retask (by simp [hidle.1]) (by simp [hidle.1]) (by simp) (by simp)
    exact ⟨hset.exclusive, hset.place, hset.placed, hset.timer, hset.timer_unique, hset.current⟩
  | task a cpu => exact taskStep_inv h hkeeps hstep

/-! ## Runs -/

/-- When the answer of `thread_handoff` is right, and where the threads are in every state that the
    scheduler reaches from the start by steps that meet the condition. -/
theorem onePlace_of_run (s t : State n τ ι μ) (ops : List (Op n τ ι μ)) :
    (∀ thread cpu force maxLoad, HandoffAnswers s thread cpu force maxLoad ↔
      if force then (s.cpus cpu).isRunning = true else HasSpace s thread cpu maxLoad) ∧
    (Initial s → Run step Keeps s ops t → OnePlace t) := by
  refine ⟨handoffAnswers_iff s, fun hinit hrun => ?_⟩
  have hinv : Inv t := hrun.invariant (fun h hkeeps hstep => step_inv h hkeeps hstep) hinit.inv
  exact hinv.onePlace

end

/-! ## Load balancing between two CPUs -/

instance {n : ℕ} {τ ι μ : Type} (s : State n τ ι μ) (thread : τ) (cpu : Fin n) (maxLoad : ℤ) :
    Decidable (HasSpace s thread cpu maxLoad) :=
  inferInstanceAs (Decidable (_ = true → _ ≤ _))

instance {n : ℕ} {τ ι μ : Type} (s : State n τ ι μ) (c : Fin n) :
    ∀ pc : CpuPc μ, Decidable (CpuKeeps s c pc)
  | .balanceTry _ average cpu =>
    inferInstanceAs (Decidable (∀ thread ∈ s.lists (.cpu c), ∀ h : cpu < n, cpu ≠ c →
      HasSpace s thread ⟨cpu, h⟩ average))
  | .exitTry cpu =>
    inferInstanceAs (Decidable (∀ thread ∈ s.lists (.cpu c),
      HasSpace s thread ⟨(cpu + 1) % n, Nat.mod_lt _ c.pos⟩ intMax))
  | .off | .run | .flags | .measure | .barrier | .balance .. | .drain | .select | .decide _ | .kill
  | .park _ | .exitLoop _ | .wait .. | .waitBlocked _ => .isTrue trivial

instance {n : ℕ} {τ ι μ : Type} [DecidableEq τ] (s : State n τ ι μ) :
    ∀ task : Task τ, Decidable (TaskKeeps s task)
  | .timer thread =>
    decidable_of_iff ((s.flags thread).blocked = true →
        ((s.mutex thread).any fun m => decide (thread ∈ s.lists (.waiting m))) = true)
      (by simp [TaskKeeps, any_eq_true])
  | .idle | .handoff | .timerWake _ => .isTrue trivial

instance {n : ℕ} {τ ι μ : Type} [DecidableEq τ] (s : State n τ ι μ) :
    ∀ op : Op n τ ι μ, Decidable (Keeps s op)
  | .cpu c _ => inferInstanceAs (Decidable (CpuKeeps s c (s.cpus c).pc))
  | .task a _ => inferInstanceAs (Decidable (TaskKeeps s (s.tasks a)))
  | .start _ | .exit _ | .enter _ | .wait .. | .threadExit _ | .privilege .. | .procExit _
  | .suspend .. | .resume .. | .notify .. | .timer .. => .isTrue trivial

/-- Two CPUs that are off and two threads that do not run. -/
def twoCpus : State 2 (Fin 2) Unit Unit where
  flags _ := {}

theorem initial_twoCpus : Initial twoCpus := ⟨fun _ => rfl, fun _ => rfl, fun _ => rfl, fun _ => rfl⟩

/-- A CPU takes so many steps in `sched_request_switch_from_isr`, with no load measurement. -/
def switchSteps (c : Fin 2) (steps : ℕ) : List (Op 2 (Fin 2) Unit Unit) :=
  List.replicate steps (.cpu c none)

section

local instance neZeroTwo : NeZero 2 := ⟨two_ne_zero⟩

/-- Both threads are resumed on CPU 0. CPU 1 starts and measures its load. CPU 0 starts, runs thread
    0, measures its load as `usage`, and takes thread 1 out of its queue. -/
def balanceOps (usage : Fin 2 → ℤ) : List (Op 2 (Fin 2) Unit Unit) :=
  [.resume () 0 false, .task () 0, .resume () 1 false, .task () 0] ++
    [.start 1] ++ switchSteps 1 4 ++ [.enter 1] ++ switchSteps 1 1 ++ [.cpu 1 (some usage)] ++
    [.start 0] ++ switchSteps 0 5 ++ [.enter 0] ++ switchSteps 0 1 ++ [.cpu 0 (some usage)] ++
    switchSteps 0 3

/-- The places of two CPUs, one actor and one mutex. -/
def twoCpuPlaces : List (Place 2 Unit Unit) :=
  [.queue 0, .queue 1, .incoming 0, .incoming 1, .cpu 0, .cpu 1, .actor (), .waiting (), .dead]

end

/-- CPU 0 hands thread 1 to CPU 1, which has space for it. -/
theorem onePlace_of_run_balance : Initial twoCpus ∧
    ∃ t, Run step Keeps twoCpus (balanceOps ![6000, 4000] ++ [.cpu 0 none]) t ∧
      t.lists (.incoming 1) = [1] ∧ t.lists (.queue 0) = [0] ∧ OnePlace t := by
  have hexec : (Run.exec step Keeps twoCpus (balanceOps ![6000, 4000] ++ [.cpu 0 none])).map
      (fun t => (t.lists (.incoming 1), t.lists (.queue 0))) = some ([1], [0]) := by
    decide
  obtain ⟨t, hrun, hend⟩ := Run.of_exec_map hexec
  obtain ⟨hincoming, hqueue⟩ := Prod.mk.inj hend
  exact ⟨initial_twoCpus, t, hrun, hincoming, hqueue,
    (onePlace_of_run twoCpus t _).2 initial_twoCpus hrun⟩

theorem mem_twoCpuPlaces (k : Place 2 Unit Unit) : k ∈ twoCpuPlaces := by
  rcases k with c | c | c | a | m | _
  · fin_cases c <;> decide
  · fin_cases c <;> decide
  · fin_cases c <;> decide
  · cases a
    decide
  · cases m
    decide
  · decide

/-- CPU 1 has no space for thread 1. The handoff returns true, and the thread is in no list. -/
theorem loadbalance_drops_thread : Initial twoCpus ∧
    ∃ t u, Run step (fun _ _ => True) twoCpus (balanceOps ![1000, 9000]) t ∧
      ¬ HandoffAnswers t 1 1 false 5000 ∧
      step t (.cpu 0 none) = some u ∧ ¬ OnePlace u := by
  have hexec : (Run.exec step (fun _ _ => True) twoCpus (balanceOps ![1000, 9000])).map
      (fun t => (decide (HasSpace t 1 1 5000), (step t (.cpu 0 none)).map fun u =>
        (decide (∀ k ∈ twoCpuPlaces, 1 ∉ u.lists k), (u.flags 1).running, (u.flags 1).blocked,
          (u.flags 1).exited))) =
      some (false, some (true, true, false, false)) := by
    decide
  obtain ⟨t, hrun, hend⟩ := Run.of_exec_map hexec
  obtain ⟨hspace, hdrop⟩ := Prod.mk.inj hend
  obtain ⟨u, hstep, hu⟩ := map_eq_some_iff.mp hdrop
  simp only [Prod.mk.injEq, decide_eq_true_eq] at hu
  obtain ⟨hnowhere, hrunning, hblocked, hexited⟩ := hu
  refine ⟨initial_twoCpus, t, u, hrun, ?_, hstep, ?_⟩
  · rw [handoffAnswers_iff]
    exact of_decide_eq_false hspace
  · intro h
    obtain ⟨k, ⟨hk, _⟩, _⟩ := h.place 1 hrunning hblocked hexited
    exact hnowhere k (mem_twoCpuPlaces k) hk

end BadgerOS.Runqueue
