import BadgerOS.Scheduler.Queues

/-!
# Every thread is in one place

A thread that has `THREAD_RUNNING` set, is not blocked on a mutex and has not exited should be in
exactly one queue or list of incoming threads, or be held by the step that moves it. When
`thread_handoff` returns true it should have put the thread in the list, and when it returns
false not.

* `HandoffAnswers`, `OnePlace`: the two properties, and `Keeps`: the condition on the steps under
  which they hold.
* `handoffAnswers_iff`: when the answer of `thread_handoff` is right.
* `Inv`: what the lists hold; `Untouched.inv`: what a step has to show for it.
* `Inv.stay`, `Inv.move`, `Inv.join`, `Inv.leave`, `Inv.merge`, `Inv.recpu`: the changes that
  keep it.
-/

namespace BadgerOS.Runqueue

open Function List Bool

section

variable {n : ℕ} {τ ι μ : Type} [DecidableEq ι] [DecidableEq μ]

/-! ## The properties -/

/-- The answer of `thread_handoff` says whether the thread has been put in the list. -/
def HandoffAnswers (s : State n τ ι μ) (thread : τ) (cpu : Fin n) (force : Bool) (maxLoad : ℤ) :
    Prop :=
  (threadHandoff s thread cpu force maxLoad).2.lists = update s.lists (.incoming cpu)
    (s.lists (.incoming cpu) ++
      if (threadHandoff s thread cpu force maxLoad).1 then [thread] else [])

/-- The thread is in a queue or a list of incoming threads, or a step holds it. The timer of a
    mutex holds the thread before it removes it from the waiting list. -/
def HeldAt (s : State n τ ι μ) (thread : τ) (k : Place n ι μ) : Prop :=
  thread ∈ s.lists k ∧
    match k with
    | .queue _ | .incoming _ | .cpu _ | .actor _ => True
    | .waiting _ => ∃ a, s.tasks a = .timerWake thread
    | .dead => False

/-- No thread is in two lists, or twice in one, and every thread that is to run is in one place. -/
structure OnePlace (s : State n τ ι μ) : Prop where
  exclusive : Exclusive s.lists
  place : ∀ thread, (s.flags thread).running = true → (s.flags thread).blocked = false →
    (s.flags thread).exited = false → ∃! k, HeldAt s thread k

/-- A CPU has space for a thread, or does not run. -/
def HasSpace (s : State n τ ι μ) (thread : τ) (cpu : Fin n) (maxLoad : ℤ) : Prop :=
  (s.cpus cpu).isRunning = true → (s.cpus cpu).loadEstimate + s.usage thread ≤ maxLoad

theorem next_lt (c : Fin n) (cpu : ℕ) : (cpu + 1) % n < n := Nat.mod_lt _ c.pos

/-- The condition on a step of a CPU: where it hands off a thread without force, the other CPU has
    space for it or does not run. -/
def CpuKeeps (s : State n τ ι μ) (c : Fin n) : CpuPc μ → Prop
  | .balanceTry _ average cpu =>
    ∀ thread ∈ s.lists (.cpu c), ∀ h : cpu < n, cpu ≠ c → HasSpace s thread ⟨cpu, h⟩ average
  | .exitTry cpu =>
    ∀ thread ∈ s.lists (.cpu c), HasSpace s thread ⟨(cpu + 1) % n, next_lt c cpu⟩ intMax
  | _ => True

/-- The condition on a step of an actor: a timer of a mutex finds a blocked thread in the waiting
    list. -/
def TaskKeeps (s : State n τ ι μ) : Task τ → Prop
  | .timer thread => (s.flags thread).blocked = true →
      ∃ m, s.mutex thread = some m ∧ thread ∈ s.lists (.waiting m)
  | _ => True

/-- The condition on the steps. -/
def Keeps (s : State n τ ι μ) : Op n τ ι μ → Prop
  | .cpu c _ => CpuKeeps s c (s.cpus c).pc
  | .task a _ => TaskKeeps s (s.tasks a)
  | _ => True

/-- No CPU has been started and no thread has. -/
structure Initial (s : State n τ ι μ) : Prop where
  lists : ∀ k, s.lists k = []
  flags : ∀ thread, (s.flags thread).running = false
  pc : ∀ c, (s.cpus c).pc = .off
  tasks : ∀ a, s.tasks a = .idle

/-- When the answer of `thread_handoff` is right: a forced handoff goes to a CPU that runs, and
    for another one a CPU that runs has space. -/
theorem handoffAnswers_iff (s : State n τ ι μ) (thread : τ) (cpu : Fin n) (force : Bool)
    (maxLoad : ℤ) : HandoffAnswers s thread cpu force maxLoad ↔
      if force then (s.cpus cpu).isRunning = true else HasSpace s thread cpu maxLoad := by
  have hself : update s.lists (.incoming cpu) (s.lists (.incoming cpu)) = s.lists :=
    update_eq_self _ _
  have hne : ∀ l : List τ, s.lists ≠ update s.lists (.incoming cpu)
      (s.lists (.incoming cpu) ++ thread :: l) := by
    intro l heq
    have hlen := congrArg List.length (congrFun heq (.incoming cpu))
    rw [update_self, length_append, length_cons] at hlen
    omega
  unfold HandoffAnswers HasSpace threadHandoff
  by_cases hforce : force = true
  · subst hforce
    by_cases hrun : (s.cpus cpu).isRunning = true
    · simp only [hrun, Bool.not_true, Bool.false_and, false_eq_true, if_false, Bool.true_or,
        if_true, iff_true]
      rfl
    · rw [not_eq_true] at hrun
      simp only [hrun, Bool.not_true, Bool.false_and, false_eq_true, if_false, Bool.true_or,
        if_true, iff_false]
      intro heq
      have hlen := congrArg List.length (congrFun heq (.incoming cpu))
      simp at hlen
  · rw [not_eq_true] at hforce
    subst hforce
    by_cases hrun : (s.cpus cpu).isRunning = true
    · by_cases hspace : (s.cpus cpu).loadEstimate + s.usage thread ≤ maxLoad
      · simp only [hrun, hspace, Bool.not_false, Bool.not_true, Bool.and_false,
          false_eq_true, if_false, decide_true, Bool.or_true, if_true, true_imp_iff, iff_true]
        rfl
      · simp only [hrun, hspace, Bool.not_false, Bool.not_true, Bool.and_false,
          false_eq_true, if_false, Bool.false_or, decide_false, if_true, true_imp_iff,
          iff_false]
        exact hne []
    · rw [not_eq_true] at hrun
      simp only [hrun, Bool.not_false, Bool.and_true, if_true, false_eq_true, if_false,
        append_nil, hself, false_imp_iff, iff_true]
      rfl

end

/-! ## The invariant -/

section

variable {n : ℕ} {τ ι μ : Type} [DecidableEq τ]

/-- The flags of a thread that is to run. -/
structure ThreadFlags.Live (f : ThreadFlags) : Prop where
  running : f.running = true
  exited : f.exited = false

/-- The CPU holds a thread. -/
def CpuPc.holds : CpuPc μ → Bool
  | .balanceTry .. | .decide _ | .kill | .park _ | .exitTry _ | .wait .. | .waitBlocked _ => true
  | _ => false

/-- What a CPU knows of the thread that it holds. -/
def HeldInv (flags : ThreadFlags) (mutex : Option μ) : CpuPc μ → Prop
  | .decide f => flags.Live ∧ (f.parkable = true → flags.parkable = true)
  | .park f => flags.Live ∧ f.parkable = true ∧ flags.parkable = true
  | .kill => flags.exited = true
  | .waitBlocked m =>
    flags.running = true ∧ flags.exited = false ∧ mutex = some m ∧ flags.blocked = true
  | _ => flags.Live

/-- What holds of the threads in a place. -/
def PlaceInv (s : State n τ ι μ) (k : Place n ι μ) : Prop :=
  match k with
  | .queue _ | .incoming _ => ∀ thread ∈ s.lists k, (s.flags thread).Live
  | .cpu c => (∀ thread ∈ s.lists k, HeldInv (s.flags thread) (s.mutex thread) (s.cpus c).pc) ∧
      (s.lists k).length = if (s.cpus c).pc.holds then 1 else 0
  | .actor a => (∀ thread ∈ s.lists k, (s.flags thread).Live) ∧
      (s.lists k).length = if s.tasks a = .handoff then 1 else 0
  | .waiting m => ∀ thread ∈ s.lists k, (s.flags thread).running = true ∧
      (s.flags thread).exited = false ∧ s.mutex thread = some m ∧
      ((s.flags thread).blocked = true ∨ ∃ a, s.tasks a = .timerWake thread)
  | .dead => ∀ thread ∈ s.lists k, (s.flags thread).exited = true

/-- What holds in all runs whose steps meet the condition. -/
structure Inv (s : State n τ ι μ) : Prop where
  exclusive : Exclusive s.lists
  place : ∀ k, PlaceInv s k
  placed : ∀ {thread}, (s.flags thread).running = true → ∃ k, thread ∈ s.lists k
  timer : ∀ {a thread}, s.tasks a = .timerWake thread → (s.flags thread).blocked = false ∧
    ∃ m, s.mutex thread = some m ∧ thread ∈ s.lists (.waiting m)
  timer_unique : ∀ {a a' thread}, s.tasks a = .timerWake thread →
    s.tasks a' = .timerWake thread → a = a'
  current : ∀ {c thread}, (s.cpus c).pc = .run → (s.cpus c).current = some thread →
    thread ∈ s.lists (.queue c)

theorem Initial.inv {s : State n τ ι μ} (h : Initial s) : Inv s where
  exclusive := by
    refine ⟨fun k => ?_, fun {k k' x} hx => ?_⟩
    · rw [h.lists]
      exact nodup_nil
    · rw [h.lists] at hx
      exact absurd hx not_mem_nil
  place k := by
    cases k <;> simp [PlaceInv, h.lists, h.pc, h.tasks, CpuPc.holds]
  placed {thread} hrun := by
    rw [h.flags] at hrun
    cases hrun
  timer {a thread} htask := by
    rw [h.tasks] at htask
    cases htask
  timer_unique {a a' thread} htask := by
    rw [h.tasks] at htask
    cases htask
  current {c thread} hpc := by
    rw [h.pc] at hpc
    cases hpc

theorem Inv.onePlace {s : State n τ ι μ} (h : Inv s) : OnePlace s where
  exclusive := h.exclusive
  place thread hrun hblocked hexited := by
    obtain ⟨k, hk⟩ := h.placed hrun
    refine ⟨k, ⟨hk, ?_⟩, fun k' hk' => h.exclusive.unique hk'.1 hk⟩
    have hplace := h.place k
    cases k with
    | queue c => trivial
    | incoming c => trivial
    | cpu c => trivial
    | actor a => trivial
    | waiting m =>
      obtain ⟨_, _, _, hb | hwake⟩ := hplace thread hk
      · rw [hblocked] at hb
        cases hb
      · exact hwake
    | dead =>
      have hdead : (s.flags thread).exited = true := hplace thread hk
      rw [hexited] at hdead
      cases hdead

/-! ## Changes that keep the invariant -/

variable {s t : State n τ ι μ} {x : τ} {k k' : Place n ι μ} {l l' : List τ} {c : Fin n} {a : ι}

/-- The flags, the mutex and the timers of the threads outside `P` are what they were. -/
structure Untouched (s t : State n τ ι μ) (P : τ → Prop) : Prop where
  flags : ∀ {y}, ¬ P y → t.flags y = s.flags y
  mutex : ∀ {y}, ¬ P y → t.mutex y = s.mutex y
  wakes : ∀ {y} a, ¬ P y → (t.tasks a = .timerWake y ↔ s.tasks a = .timerWake y)

/-- What the CPUs other than `c` do is what it was. -/
def SameCpus (s t : State n τ ι μ) (c : Fin n) : Prop :=
  ∀ c' ≠ c, (t.cpus c').pc = (s.cpus c').pc ∧ (t.cpus c').current = (s.cpus c').current

variable {P : τ → Prop}

omit [DecidableEq τ] in
theorem Untouched.of_eq (hflags : t.flags = s.flags) (hmutex : t.mutex = s.mutex)
    (htasks : t.tasks = s.tasks) : Untouched s t P :=
  ⟨fun _ => by rw [hflags], fun _ => by rw [hmutex], fun _ _ => by rw [htasks]⟩

theorem placeInv_idle (hpc : (t.cpus c).pc.holds = false) (hlist : t.lists (.cpu c) = []) : PlaceInv t (.cpu c) := by
  refine ⟨fun y hy => ?_, ?_⟩
  · rw [hlist] at hy
    exact absurd hy not_mem_nil
  · rw [hlist, hpc]
    rfl

theorem Inv.cpu_nil (h : Inv s) (hpc : (s.cpus c).pc.holds = false) : s.lists (.cpu c) = [] := by
  have hlen := (h.place (.cpu c)).2
  rw [hpc] at hlen
  exact length_eq_zero_iff.mp hlen

theorem Inv.not_woken (h : Inv s) (hx : x ∈ s.lists k) (hk : ∀ m, k ≠ .waiting m) (a : ι) :
    s.tasks a ≠ .timerWake x := by
  intro ha
  obtain ⟨_, m, _, hw⟩ := h.timer ha
  exact hk m (h.exclusive.unique hx hw)

theorem SameCpus.queue (hcpus : SameCpus s t c) (h : Inv s) {c' : Fin n} (hc : c' ≠ c)
    (hrun : (t.cpus c').pc = .run) (hcur : (t.cpus c').current = some x) :
    x ∈ s.lists (.queue c') := by
  rw [(hcpus c' hc).1] at hrun
  rw [(hcpus c' hc).2] at hcur
  exact h.current hrun hcur

theorem PlaceInv.congr (h : PlaceInv s k) (hu : Untouched s t P) (hne : ∀ y ∈ s.lists k, ¬ P y)
    (hlist : t.lists k = s.lists k) (hpc : ∀ c, k = .cpu c → (t.cpus c).pc = (s.cpus c).pc)
    (htask : ∀ a, k = .actor a → (t.tasks a = .handoff ↔ s.tasks a = .handoff)) : PlaceInv t k := by
  have hmem : ∀ y ∈ t.lists k, y ∈ s.lists k := by
    rw [hlist]
    exact fun y hy => hy
  have hflags : ∀ y ∈ t.lists k, t.flags y = s.flags y := fun y hy => hu.flags (hne y (hmem y hy))
  have hmutex : ∀ y ∈ t.lists k, t.mutex y = s.mutex y := fun y hy => hu.mutex (hne y (hmem y hy))
  cases k with
  | cpu c =>
    refine ⟨fun y hy => ?_, ?_⟩
    · rw [hflags y hy, hmutex y hy, hpc c rfl]
      exact h.1 y (hmem y hy)
    · rw [hlist, hpc c rfl]
      exact h.2
  | actor a =>
    refine ⟨fun y hy => ?_, ?_⟩
    · rw [hflags y hy]
      exact h.1 y (hmem y hy)
    · simp only [hlist, htask a rfl]
      exact h.2
  | waiting m =>
    intro y hy
    rw [hflags y hy, hmutex y hy]
    obtain ⟨hrun, hexited, hm, hb⟩ := h y (hmem y hy)
    refine ⟨hrun, hexited, hm, hb.imp_right ?_⟩
    rintro ⟨a, ha⟩
    exact ⟨a, (hu.wakes a (hne y (hmem y hy))).mpr ha⟩
  | _ =>
    intro y hy
    rw [hflags y hy]
    exact h y (hmem y hy)

/-- A step keeps the invariant if it keeps what holds of the places and of the threads that it
    touches, and loses no other thread. -/
theorem Untouched.inv (hu : Untouched s t P) (h : Inv s) (hexclusive : Exclusive t.lists) (hplace : ∀ k, PlaceInv t k)
    (hmem : ∀ {y k}, ¬ P y → y ∈ s.lists k → ∃ k', y ∈ t.lists k' ∧ (k' = k ∨ ∀ m, k ≠ .waiting m))
    (hplaced : ∀ {y}, P y → (t.flags y).running = true → ∃ k, y ∈ t.lists k)
    (htimer : ∀ {a y}, P y → t.tasks a = .timerWake y → (t.flags y).blocked = false ∧ ∃ m, t.mutex
      y = some m ∧ y ∈ t.lists (.waiting m))
    (hunique : ∀ {a a' y}, P y → t.tasks a = .timerWake y → t.tasks a' = .timerWake y → a = a')
    (hcurrent : ∀ {c y}, (t.cpus c).pc = .run → (t.cpus c).current = some y → y ∈ t.lists (.queue
      c)) : Inv t := by
  refine ⟨hexclusive, hplace, ?_, ?_, ?_, hcurrent⟩
  · intro y hy
    by_cases hP : P y
    · exact hplaced hP hy
    · rw [hu.flags hP] at hy
      obtain ⟨k, hk⟩ := h.placed hy
      obtain ⟨k', hk', -⟩ := hmem hP hk
      exact ⟨k', hk'⟩
  · intro a y ha
    by_cases hP : P y
    · exact htimer hP ha
    · obtain ⟨hb, m, hm, hw⟩ := h.timer ((hu.wakes a hP).mp ha)
      rw [hu.flags hP, hu.mutex hP]
      obtain ⟨k', hk', rfl | hne⟩ := hmem hP hw
      · exact ⟨hb, m, hm, hk'⟩
      · exact absurd rfl (hne m)
  · intro a a' y ha ha'
    by_cases hP : P y
    · exact hunique hP ha ha'
    · exact h.timer_unique ((hu.wakes a hP).mp ha) ((hu.wakes a' hP).mp ha')

/-- The lists stay as they are. Flags change for thread `x` only. -/
theorem Inv.stay (h : Inv s) (hu : Untouched s t (· = x)) (hlists : t.lists = s.lists)
    (hpc : ∀ c, x ∉ s.lists (.cpu c) → (t.cpus c).pc = (s.cpus c).pc)
    (htask : ∀ a, x ∉ s.lists (.actor a) → (t.tasks a = .handoff ↔ s.tasks a = .handoff))
    (hplace : ∀ k, x ∈ s.lists k → PlaceInv t k)
    (hplaced : (t.flags x).running = true → (s.flags x).running = true)
    (htimer : ∀ a, t.tasks a = .timerWake x → (t.flags x).blocked = false ∧
      ∃ m, t.mutex x = some m ∧ x ∈ t.lists (.waiting m))
    (hunique : ∀ a a', t.tasks a = .timerWake x → t.tasks a' = .timerWake x → a = a')
    (hcurrent : ∀ {c y}, (t.cpus c).pc = .run → (t.cpus c).current = some y →
      y ∈ s.lists (.queue c)) : Inv t := by
  rw [← hlists] at hcurrent
  refine hu.inv h (hlists ▸ h.exclusive) ?_ (fun _ hy => ⟨_, hlists ▸ hy, .inl rfl⟩) ?_ ?_ ?_
    hcurrent
  · intro k
    by_cases hx : x ∈ s.lists k
    · exact hplace k hx
    refine (h.place k).congr hu ?_ (by rw [hlists]) ?_ ?_
    · rintro y hy rfl
      exact hx hy
    · rintro c rfl
      exact hpc c hx
    · rintro a rfl
      exact htask a hx
  · rintro y rfl hy
    rw [hlists]
    exact h.placed (hplaced hy)
  · rintro a y rfl
    exact htimer a
  · rintro a a' y rfl
    exact hunique a a'

variable [DecidableEq ι] [DecidableEq μ]

section

variable (h : Inv s) (hu : Untouched s t (· = x))

include h hu

theorem Inv.move (hk : k' ≠ k) (hl : (x :: l).Perm (s.lists k)) (hl' : l'.Perm (x :: s.lists k'))
    (hlists : t.lists = update (update s.lists k l) k' l')
    (hpc : ∀ c, .cpu c ≠ k → .cpu c ≠ k' → (t.cpus c).pc = (s.cpus c).pc)
    (htask : ∀ a, .actor a ≠ k → .actor a ≠ k' → t.tasks a = s.tasks a)
    (hwake : ∀ a, t.tasks a ≠ .timerWake x) (hplace : PlaceInv t k) (hplace' : PlaceInv t k')
    (hcurrent : ∀ {c y}, (t.cpus c).pc = .run → (t.cpus c).current = some y → (y = x ∧ k' = .queue
      c) ∨ (y ≠ x ∨ k ≠ .queue c) ∧ y ∈ s.lists (.queue c)) : Inv t := by
  have hmem : ∀ {y q}, y ∈ t.lists q ↔ (y = x ∧ q = k') ∨ (y ≠ x ∧ y ∈ s.lists q) := by
    intro y q
    rw [hlists]
    exact h.exclusive.mem_move_iff hk hl hl'
  have hx : x ∈ s.lists k := hl.subset mem_cons_self
  refine hu.inv h ?_ ?_ (fun hyx hy => ⟨_, hmem.mpr (.inr ⟨hyx, hy⟩), .inl rfl⟩)
    (fun hyx _ => ⟨k', hmem.mpr (.inl ⟨hyx, rfl⟩)⟩) ?_ ?_ ?_
  · rw [hlists]
    exact h.exclusive.move hk hl hl'
  · intro q
    rcases eq_or_ne q k' with rfl | hqk'
    · exact hplace'
    rcases eq_or_ne q k with rfl | hqk
    · exact hplace
    refine (h.place q).congr hu ?_ ?_ ?_ ?_
    · rintro y hy rfl
      exact hqk (h.exclusive.unique hy hx)
    · rw [hlists, update_of_ne hqk', update_of_ne hqk]
    · rintro c rfl
      exact hpc c hqk hqk'
    · rintro a rfl
      rw [htask a hqk hqk']
  · rintro a y rfl ha
    exact absurd ha (hwake a)
  · rintro a a' y rfl ha
    exact absurd ha (hwake a)
  · intro c y hrun hcur
    rcases hcurrent hrun hcur with ⟨rfl, hq⟩ | ⟨hstays, hqueue⟩
    · exact hmem.mpr (.inl ⟨rfl, hq.symm⟩)
    · refine hmem.mpr (.inr ⟨?_, hqueue⟩)
      rintro rfl
      rcases hstays with hne | hne
      · exact hne rfl
      · exact hne (h.exclusive.unique hx hqueue)

theorem Inv.join (hx : ∀ q, x ∉ s.lists q) (hl : l.Perm (x :: s.lists k))
    (hlists : t.lists = update s.lists k l) (hcpus : t.cpus = s.cpus)
    (htask : ∀ a, .actor a ≠ k → t.tasks a = s.tasks a) (hwake : ∀ a, t.tasks a ≠ .timerWake x)
    (hplace : PlaceInv t k) : Inv t := by
  have hmem : ∀ {y q}, y ∈ s.lists q → y ∈ t.lists q := by
    intro y q hy
    rw [hlists]
    rcases eq_or_ne q k with rfl | hq
    · rw [update_self, hl.mem_iff]
      exact mem_cons_of_mem x hy
    · rwa [update_of_ne hq]
  refine hu.inv h ?_ ?_ (fun _ hy => ⟨_, hmem hy, .inl rfl⟩) ?_ ?_ ?_ ?_
  · rw [hlists]
    exact h.exclusive.put hx hl
  · intro q
    rcases eq_or_ne q k with rfl | hq
    · exact hplace
    refine (h.place q).congr hu ?_ ?_ (fun c _ => by rw [hcpus]) ?_
    · rintro y hy rfl
      exact hx q hy
    · rw [hlists, update_of_ne hq]
    · rintro a rfl
      rw [htask a hq]
  · rintro y rfl _
    refine ⟨k, ?_⟩
    rw [hlists, update_self, hl.mem_iff]
    exact mem_cons_self
  · rintro a y rfl ha
    exact absurd ha (hwake a)
  · rintro a a' y rfl ha
    exact absurd ha (hwake a)
  · intro c y hrun hcur
    rw [hcpus] at hrun hcur
    exact hmem (h.current hrun hcur)

theorem Inv.leave (hx : s.lists (.cpu c) = [x]) (hlists : t.lists = update s.lists (.cpu c) [])
    (hstopped : (t.flags x).running = false) (htasks : t.tasks = s.tasks) (hcpus : SameCpus s t c)
    (hpc : (t.cpus c).pc.holds = false) (hrun : (t.cpus c).pc ≠ .run) : Inv t := by
  have hheld : x ∈ s.lists (.cpu c) := hx ▸ mem_singleton_self x
  have hwake : ∀ a, t.tasks a ≠ .timerWake x := by
    rw [htasks]
    exact h.not_woken hheld nofun
  refine hu.inv h ?_ ?_ ?_ ?_ ?_ ?_ ?_
  · rw [hlists]
    exact h.exclusive.take (by rw [hx])
  · intro q
    rcases eq_or_ne q (.cpu c) with rfl | hq
    · exact placeInv_idle hpc (by rw [hlists, update_self])
    refine (h.place q).congr hu ?_ ?_ ?_ (fun a _ => by rw [htasks])
    · rintro y hy rfl
      exact hq (h.exclusive.unique hy hheld)
    · rw [hlists, update_of_ne hq]
    · rintro c' rfl
      exact (hcpus c' fun hc => hq (by rw [hc])).1
  · intro y q hyx hy
    refine ⟨q, ?_, .inl rfl⟩
    rw [hlists]
    rcases eq_or_ne q (.cpu c) with rfl | hq
    · rw [hx, mem_singleton] at hy
      exact absurd hy hyx
    · rwa [update_of_ne hq]
  · rintro y rfl hy
    rw [hstopped] at hy
    cases hy
  · rintro a y rfl ha
    exact absurd ha (hwake a)
  · rintro a a' y rfl ha
    exact absurd ha (hwake a)
  · intro c' y hrun' hcur
    rw [hlists, update_of_ne (by nofun)]
    rcases eq_or_ne c' c with rfl | hc
    · exact absurd hrun' hrun
    · exact hcpus.queue h hc hrun' hcur

end

theorem Inv.merge (h : Inv s) (hl : l.Perm (s.lists (.queue c) ++ s.lists (.incoming c)))
    (hlists : t.lists = update (update s.lists (.queue c) l) (.incoming c) [])
    (hflags : t.flags = s.flags) (hmutex : t.mutex = s.mutex) (htasks : t.tasks = s.tasks)
    (hcpus : SameCpus s t c) (hidle : (s.cpus c).pc.holds = false)
    (hpc : (t.cpus c).pc.holds = false) (hrun : (t.cpus c).pc ≠ .run) : Inv t := by
  have hu : Untouched s t fun _ => False := .of_eq hflags hmutex htasks
  have hother : ∀ q, q ≠ .queue c → q ≠ .incoming c → t.lists q = s.lists q := by
    intro q hq hq'
    rw [hlists, update_of_ne hq', update_of_ne hq]
  have hqueue : t.lists (.queue c) = l := by
    rw [hlists, update_of_ne (by nofun), update_self]
  refine hu.inv h ?_ ?_ ?_ nofun nofun nofun ?_
  · rw [hlists]
    exact h.exclusive.merge nofun hl
  · intro q
    by_cases hq : q = .queue c
    · subst hq
      intro y hy
      rw [hqueue, hl.mem_iff, mem_append] at hy
      rw [hflags]
      rcases hy with hy | hy
      · exact h.place (.queue c) y hy
      · exact h.place (.incoming c) y hy
    by_cases hq' : q = .incoming c
    · subst hq'
      intro y hy
      rw [hlists, update_self] at hy
      exact absurd hy not_mem_nil
    by_cases hc : q = .cpu c
    · subst hc
      refine placeInv_idle hpc ?_
      rw [hother _ hq hq']
      exact h.cpu_nil hidle
    refine (h.place q).congr hu (fun _ _ => id) (hother q hq hq') ?_ (fun a _ => by rw [htasks])
    rintro c' rfl
    exact (hcpus c' fun h => hc (by rw [h])).1
  · intro y q _ hq
    by_cases hqueue' : q = .queue c ∨ q = .incoming c
    · refine ⟨.queue c, ?_, .inr ?_⟩
      · rw [hqueue, hl.mem_iff, mem_append]
        rcases hqueue' with rfl | rfl
        · exact .inl hq
        · exact .inr hq
      · rintro m rfl
        rcases hqueue' with heq | heq <;> cases heq
    · obtain ⟨h1, h2⟩ := not_or.mp hqueue'
      exact ⟨q, by rwa [hother q h1 h2], .inl rfl⟩
  · intro c' y hrun' hcur
    rcases eq_or_ne c' c with rfl | hc
    · exact absurd hrun' hrun
    · rw [hother _ (fun hq => hc (Place.queue.inj hq)) nofun]
      exact hcpus.queue h hc hrun' hcur

/-- Only the data of CPU `c` and what no list depends on change. -/
theorem Inv.recpu (h : Inv s) (c : Fin n) (hlists : t.lists = s.lists) (hflags : t.flags = s.flags)
    (hmutex : t.mutex = s.mutex) (htasks : t.tasks = s.tasks) (hcpus : SameCpus s t c)
    (hplace : PlaceInv t (.cpu c))
    (hcurrent : (t.cpus c).pc = .run → ∀ y, (t.cpus c).current = some y → y ∈ s.lists (.queue c)) :
    Inv t := by
  have hu : Untouched s t fun _ => False := .of_eq hflags hmutex htasks
  refine hu.inv h (hlists ▸ h.exclusive) ?_ (fun _ hy => ⟨_, hlists ▸ hy, .inl rfl⟩) nofun nofun
    nofun ?_
  · intro k
    by_cases hk : k = .cpu c
    · subst hk
      exact hplace
    refine (h.place k).congr hu (fun _ _ => id) (by rw [hlists]) ?_ (fun a _ => by rw [htasks])
    rintro c' rfl
    exact (hcpus c' fun hc => hk (by rw [hc])).1
  · intro c' y hrun hcur
    rw [hlists]
    rcases eq_or_ne c' c with rfl | hc
    · exact hcurrent hrun y hcur
    · exact hcpus.queue h hc hrun hcur

end

end BadgerOS.Runqueue
