import BadgerOS.Time.Tasks

/-!
# The timer of a CPU

Every operation on the timers ends with `eval_cpu_timer`, which sets the hardware timer of the
CPU. It should be set to the earliest of the preemption time, if this is positive, and the
timestamps of all tasks, and `timer_is_preempt` should tell which of the two it is.

**Deviation.** `eval_cpu_timer` compares the preemption time with the last task of the array,
which is the earliest one, and then sets the timer to the timestamp of the first task, which is
the latest one. So with two tasks the timer fires at the time of the later one
(`armed_late`). A call of `time_add_async_task` that fails does not evaluate the timer at all.

* `evalCpuTimer_armed_iff`: the timer is right after `eval_cpu_timer` if and only if all tasks
  have the same timestamp or the preemption comes first.
* `armed_run`: the timer is right after each operation in all runs in which this condition is
  met by the tasks that an operation leaves, and in which a call of `time_add_async_task` fails
  only while the array is the one for which the timer was last evaluated.
-/

namespace BadgerOS.Time

open Function List Timers

/-! ## Operations -/

/-- The operations on the timers, each of them on a CPU. -/
inductive Op (κ : Type*)
  /-- `time_add_async_task`, with the index of the insertion. -/
  | add (c : κ) (timestamp : ℤ) (callback cookie k : ℕ)
  /-- `time_add_async_task` finds no memory, either for the task or, after it has taken a number,
      for the array. -/
  | addFails (c : κ) (numbered : Bool)
  | cancel (c : κ) (taskno : ℤ)
  | setNextTaskSwitch (c : κ) (timestamp : ℤ)
  /-- The timer interrupt at the time `now`. A switch of the scheduler sets the next one to
      `timestamp`. -/
  | interrupt (c : κ) (now timestamp : ℤ)
  deriving DecidableEq, Repr

/-- The CPU on which the operation is done. -/
def Op.cpu {κ : Type*} : Op κ → κ
  | .add c .. | .addFails c _ | .cancel c _ | .setNextTaskSwitch c _ | .interrupt c .. => c

/-- The timers of the CPUs. -/
structure Alarms (κ : Type*) extends Timers κ where
  /-- Ghost: the tasks have not changed since the timer of this CPU was evaluated. -/
  current : κ → Bool

section

variable {κ : Type*} [DecidableEq κ]

/-- The array after an operation and the preemption time of its CPU: what `eval_cpu_timer` finds. -/
def Timers.after (s : Timers κ) : Op κ → Timers κ
  | .add _ timestamp callback cookie k =>
    s.takeNumber.insertTask k ⟨s.tasknoCounter, timestamp, callback, cookie⟩
  | .addFails _ numbered => if numbered then s.takeNumber else s
  | .cancel _ taskno => s.removeTask taskno
  | .setNextTaskSwitch c timestamp => s.setPreemptTime c timestamp
  | .interrupt c now timestamp =>
    if (s.cpu c).timerIsPreempt then
      (s.setPreemptTime c timestampUsMax).setNextTaskSwitch c timestamp
    else if (s.dueTask now).isSome then s.popTask
    else s

/-- The timer of the CPU is evaluated. -/
def Alarms.evaluated (s : Alarms κ) (timers : Timers κ) (c : κ) : Alarms κ where
  toTimers := timers.evalCpuTimer c
  current d := d = c || (s.current d && timers.tasks = s.tasks)

/-- An operation as a whole. -/
def operate (s : Alarms κ) (op : Op κ) : Option (Alarms κ) :=
  match op with
  | .add c timestamp callback cookie k =>
    if s.InsertsAt k ⟨s.tasknoCounter, timestamp, callback, cookie⟩ then
      some (s.evaluated (s.after op) c)
    else none
  | .addFails _ _ => some { s with toTimers := s.after op }
  | .cancel c _ | .setNextTaskSwitch c _ | .interrupt c _ _ => some (s.evaluated (s.after op) c)

/-! ## The property -/

omit [DecidableEq κ] in
/-- The times at which the CPU has something to do. -/
def Timers.times (s : Timers κ) (c : κ) : List ℤ :=
  (if 0 < (s.cpu c).preemptTime then [(s.cpu c).preemptTime] else []) ++
    s.tasks.map Task.timestamp

omit [DecidableEq κ] in
/-- If the CPU has something to do, then its timer is set to the earliest time, and
    `timer_is_preempt` tells whose time it is. -/
structure Armed (s : Timers κ) (c : κ) : Prop where
  earliest : s.times c ≠ [] →
    (s.cpu c).alarm ∈ s.times c ∧ ∀ time ∈ s.times c, (s.cpu c).alarm ≤ time
  preempt : s.times c ≠ [] → (s.cpu c).timerIsPreempt = true →
    0 < (s.cpu c).preemptTime ∧ (s.cpu c).alarm = (s.cpu c).preemptTime
  task : s.times c ≠ [] → (s.cpu c).timerIsPreempt = false →
    ∃ task ∈ s.tasks, task.timestamp = (s.cpu c).alarm

/-- All tasks have the same timestamp, or the preemption comes before all of them. -/
def Even (tasks : List Task) (preemptTime : ℤ) : Prop :=
  (∀ a ∈ tasks, ∀ b ∈ tasks, a.timestamp = b.timestamp) ∨
    0 < preemptTime ∧ ∀ task ∈ tasks, preemptTime ≤ task.timestamp

instance (tasks : List Task) (preemptTime : ℤ) : Decidable (Even tasks preemptTime) :=
  inferInstanceAs (Decidable (_ ∨ _))

omit [DecidableEq κ] in
/-- The condition on an operation, on the tasks that it leaves and the preemption time that it
    sets. -/
def Meets (s : Alarms κ) : Op κ → Prop
  | .add c timestamp callback cookie _ =>
    Even (⟨s.tasknoCounter, timestamp, callback, cookie⟩ :: s.tasks) (s.cpu c).preemptTime
  | .addFails c _ => s.current c = true
  | .cancel c taskno =>
    Even (s.tasks.eraseP fun task => task.taskno = taskno) (s.cpu c).preemptTime
  | .setNextTaskSwitch _ timestamp => Even s.tasks timestamp
  | .interrupt c now timestamp =>
    if (s.cpu c).timerIsPreempt then Even s.tasks timestamp
    else if s.tasks.getLast?.any fun last => last.timestamp ≤ now then
      Even s.tasks.dropLast (s.cpu c).preemptTime
    else Even s.tasks (s.cpu c).preemptTime

instance (s : Alarms κ) : (op : Op κ) → Decidable (Meets s op)
  | .add .. | .cancel .. | .setNextTaskSwitch .. => inferInstanceAs (Decidable (Even _ _))
  | .addFails .. => inferInstanceAs (Decidable (_ = _))
  | .interrupt .. => inferInstanceAs (Decidable (ite _ _ _))

end

/-! ## One evaluation -/

section

variable {κ : Type*} {s : Timers κ} {c : κ}

variable {first : Task}

/-- The last task is the earliest one and the first task is the latest one. -/
theorem Ordered.bounds {tasks : List Task} (h : Ordered tasks) {last : Task}
    (hfirst : tasks.head? = some first) (hlast : tasks.getLast? = some last) {task : Task}
    (hmem : task ∈ tasks) : last.timestamp ≤ task.timestamp ∧ task.timestamp ≤ first.timestamp := by
  have hpair : tasks.Pairwise fun a b => b.timestamp ≤ a.timestamp :=
    h.imp fun hab => (timertaskTimestampCmp_nonpos _ _).1 hab
  constructor
  · rw [← dropLast_append_getLast? last hlast] at hmem hpair
    rcases mem_append.1 hmem with hin | hin
    · exact (pairwise_append.1 hpair).2.2 task hin last (mem_singleton_self last)
    · rw [mem_singleton.1 hin]
  · obtain ⟨rest, rfl⟩ := head?_eq_some_iff.1 hfirst
    rcases mem_cons.1 hmem with rfl | hin
    · exact le_rfl
    · exact (pairwise_cons.1 hpair).1 task hin

theorem mem_times {time : ℤ} : time ∈ s.times c ↔ (0 < (s.cpu c).preemptTime ∧ time = (s.cpu c).preemptTime) ∨
      ∃ task ∈ s.tasks, task.timestamp = time := by
  rw [times, mem_append, mem_map]
  split_ifs with h <;> simp [h]

theorem armed_of_preempt (hkind : (s.cpu c).timerIsPreempt = true) (halarm : (s.cpu c).alarm = (s.cpu c).preemptTime)
    (hfirst : ∀ task ∈ s.tasks, 0 < (s.cpu c).preemptTime ∧
      (s.cpu c).preemptTime ≤ task.timestamp) : Armed s c := by
  have hpos : s.times c ≠ [] → 0 < (s.cpu c).preemptTime := by
    intro hne
    obtain ⟨time, htime⟩ := exists_mem_of_ne_nil _ hne
    rcases mem_times.1 htime with ⟨hp, -⟩ | ⟨task, htask, -⟩
    · exact hp
    · exact (hfirst task htask).1
  refine ⟨fun hne => ⟨mem_times.2 (.inl ⟨hpos hne, halarm⟩), fun time htime => ?_⟩,
    fun hne _ => ⟨hpos hne, halarm⟩, fun _ hno => ?_⟩
  · rcases mem_times.1 htime with ⟨-, rfl⟩ | ⟨task, htask, rfl⟩
    · exact halarm.le
    · exact halarm ▸ (hfirst task htask).2
  · rw [hkind] at hno
    contradiction

/-- A timer that is set for a task is right if and only if no task is earlier. -/
theorem armed_task_iff (hkind : (s.cpu c).timerIsPreempt = false) (hmem : first ∈ s.tasks)
    (halarm : (s.cpu c).alarm = first.timestamp)
    (hpreempt : 0 < (s.cpu c).preemptTime → ∃ task ∈ s.tasks, task.timestamp ≤ (s.cpu c).preemptTime) :
    Armed s c ↔ ∀ task ∈ s.tasks, first.timestamp ≤ task.timestamp := by
  have htime : first.timestamp ∈ s.times c := mem_times.2 (.inr ⟨first, hmem, rfl⟩)
  have hne : s.times c ≠ [] := ne_nil_of_mem htime
  constructor
  · intro h task htask
    exact halarm ▸ (h.earliest hne).2 _ (mem_times.2 (.inr ⟨task, htask, rfl⟩))
  · intro h
    refine ⟨fun _ => ⟨halarm ▸ htime, fun time hin => ?_⟩, fun _ hyes => ?_,
      fun _ _ => ⟨first, hmem, halarm.symm⟩⟩
    · rcases mem_times.1 hin with ⟨hpos, rfl⟩ | ⟨task, htask, rfl⟩
      · obtain ⟨task, htask, hle⟩ := hpreempt hpos
        exact halarm ▸ (h task htask).trans hle
      · exact halarm ▸ h task htask
    · rw [hkind] at hyes
      contradiction

variable [DecidableEq κ]

variable {d : κ}

theorem evalCpuTimer_other (hne : d ≠ c) : (s.evalCpuTimer c).cpu d = s.cpu d := update_of_ne hne _ _

theorem setPreemptTime_other (hne : d ≠ c) (timestamp : ℤ) : (s.setPreemptTime c timestamp).cpu d = s.cpu d :=
  update_of_ne hne _ _

theorem setPreemptTime_self (s : Timers κ) (c : κ) (timestamp : ℤ) :
    ((s.setPreemptTime c timestamp).cpu c).preemptTime = timestamp := by
  simp only [setPreemptTime, update_self]

theorem evalCpuTimer_preemptTime (s : Timers κ) (c : κ) : ((s.evalCpuTimer c).cpu c).preemptTime = (s.cpu c).preemptTime := by
  simp only [evalCpuTimer, update_self]
  split
  · split_ifs <;> rfl
  · rfl

theorem evalCpuTimer_nil (hnil : s.tasks = []) : (s.evalCpuTimer c).cpu c =
    { s.cpu c with timerIsPreempt := true, alarm := (s.cpu c).preemptTime } := by
  simp [evalCpuTimer, hnil]

theorem evalCpuTimer_task {last : Task} (hfirst : s.tasks.head? = some first) (hlast : s.tasks.getLast? = some last)
    (htest : (s.cpu c).preemptTime ≤ 0 ∨ last.timestamp < (s.cpu c).preemptTime) :
    (s.evalCpuTimer c).cpu c =
      { s.cpu c with timerIsPreempt := false, alarm := first.timestamp } := by
  simp only [evalCpuTimer, hfirst, hlast, if_pos htest, update_self]

theorem evalCpuTimer_preempt {last : Task} (hfirst : s.tasks.head? = some first) (hlast : s.tasks.getLast? = some last)
    (htest : ¬ ((s.cpu c).preemptTime ≤ 0 ∨ last.timestamp < (s.cpu c).preemptTime)) :
    (s.evalCpuTimer c).cpu c =
      { s.cpu c with timerIsPreempt := true, alarm := (s.cpu c).preemptTime } := by
  simp only [evalCpuTimer, hfirst, hlast, if_neg htest, update_self]

/-- `eval_cpu_timer` sets the timer to the earliest time exactly if all tasks have the same
    timestamp or the preemption comes first. -/
theorem evalCpuTimer_armed_iff (hord : Ordered s.tasks) : Armed (s.evalCpuTimer c) c ↔ Even s.tasks (s.cpu c).preemptTime := by
  rcases hfirst : s.tasks.head? with _ | first
  · -- No task.
    have hnil : s.tasks = [] := head?_eq_none_iff.1 hfirst
    have hcpu := evalCpuTimer_nil (c := c) hnil
    have harmed : Armed (s.evalCpuTimer c) c :=
      armed_of_preempt (by rw [hcpu]) (by rw [hcpu]) (by simp [evalCpuTimer, hnil])
    exact iff_of_true harmed (.inl (by simp [hnil]))
  · have hmem : first ∈ s.tasks := mem_of_mem_head? hfirst
    obtain ⟨last, hlast⟩ : ∃ last, s.tasks.getLast? = some last :=
      Option.ne_none_iff_exists'.1 fun h => by simp [getLast?_eq_none_iff.1 h] at hmem
    have hlmem : last ∈ s.tasks := mem_of_getLast? hlast
    by_cases htest : (s.cpu c).preemptTime ≤ 0 ∨ last.timestamp < (s.cpu c).preemptTime
    · -- The timer is set to the first task, which is the latest one.
      have hcpu := evalCpuTimer_task hfirst hlast htest
      have hpreempt : 0 < ((s.evalCpuTimer c).cpu c).preemptTime →
          ∃ task ∈ (s.evalCpuTimer c).tasks,
            task.timestamp ≤ ((s.evalCpuTimer c).cpu c).preemptTime := by
        rw [hcpu]
        intro hpos
        exact ⟨last, hlmem, (htest.resolve_left (not_le.2 hpos)).le⟩
      have hkind : ((s.evalCpuTimer c).cpu c).timerIsPreempt = false := by rw [hcpu]
      have halarm : ((s.evalCpuTimer c).cpu c).alarm = first.timestamp := by rw [hcpu]
      refine (armed_task_iff hkind hmem halarm hpreempt).trans ?_
      constructor
      · intro hall
        have heq : ∀ task ∈ s.tasks, task.timestamp = first.timestamp := fun task hin =>
          le_antisymm (hord.bounds hfirst hlast hin).2 (hall task hin)
        exact .inl fun a ha b hb => (heq a ha).trans (heq b hb).symm
      · rintro (heq | ⟨hpos, hle⟩) task hin
        · exact (heq first hmem task hin).le
        · have := hle last hlmem
          omega
    · have hcpu := evalCpuTimer_preempt hfirst hlast htest
      have hle : ∀ task ∈ s.tasks,
          0 < (s.cpu c).preemptTime ∧ (s.cpu c).preemptTime ≤ task.timestamp := by
        intro task hin
        have := (hord.bounds hfirst hlast hin).1
        omega
      have harmed : Armed (s.evalCpuTimer c) c :=
        armed_of_preempt (by rw [hcpu]) (by rw [hcpu]) (by rw [hcpu]; exact hle)
      exact iff_of_true harmed (.inr ⟨(hle first hmem).1, fun task hin => (hle task hin).2⟩)

/-! ## All runs -/

theorem Even.mono {tasks other : List Task} {preemptTime : ℤ} (h : Even tasks preemptTime)
    (hmem : ∀ task ∈ other, task ∈ tasks) : Even other preemptTime := by
  rcases h with heq | ⟨hpos, hle⟩
  · exact .inl fun a ha b hb => heq a (hmem a ha) b (hmem b hb)
  · exact .inr ⟨hpos, fun task hin => hle task (hmem task hin)⟩

omit [DecidableEq κ] in
theorem Armed.congr {t : Timers κ} (h : Armed s c) (htasks : t.tasks = s.tasks)
    (hcpu : t.cpu c = s.cpu c) : Armed t c := by
  have htimes : t.times c = s.times c := by rw [times, times, htasks, hcpu]
  refine ⟨?_, ?_, ?_⟩
  · rw [htimes, hcpu]
    exact h.earliest
  · rw [htimes, hcpu]
    exact h.preempt
  · rw [htimes, hcpu, htasks]
    exact h.task

variable {op : Op κ} {s : Alarms κ}

omit [DecidableEq κ] in
theorem dueTask_isSome (now : ℤ) : (s.dueTask now).isSome = s.tasks.getLast?.any fun last => last.timestamp ≤ now := by
  cases h : s.tasks.getLast? with
  | none => simp [dueTask, h]
  | some last =>
    by_cases hle : last.timestamp ≤ now <;> simp [dueTask, h, Option.filter, hle]

section

variable
  (hadd : ∀ c timestamp callback cookie k, op = .add c timestamp callback cookie k → s.InsertsAt k
  ⟨s.tasknoCounter, timestamp, callback, cookie⟩)

include hadd

theorem after_ordered (h : Ordered s.tasks) : Ordered (s.after op).tasks := by
  cases op with
  | add c timestamp callback cookie k => exact (hadd c timestamp callback cookie k rfl).2
  | addFails c numbered => cases numbered <;> exact h
  | cancel c taskno => exact h.sublist eraseP_sublist
  | setNextTaskSwitch c timestamp => exact h
  | interrupt c now timestamp =>
    simp only [Timers.after]
    split_ifs
    · exact h
    · exact h.sublist (dropLast_sublist _)
    · exact h

/-- The condition is the one on what `eval_cpu_timer` finds. -/
theorem Meets.even (h : Meets s op) (hfails : ∀ c numbered, op ≠ .addFails c numbered) :
    Even (s.after op).tasks ((s.after op).cpu op.cpu).preemptTime := by
  cases op with
  | add c timestamp callback cookie k =>
    refine Even.mono h fun task hin => mem_cons.2 ?_
    exact (mem_insertIdx (hadd c timestamp callback cookie k rfl).1).1 hin
  | addFails c numbered => exact absurd rfl (hfails c numbered)
  | cancel c taskno => exact h
  | setNextTaskSwitch c timestamp =>
    rw [Timers.after, Op.cpu, setPreemptTime_self]
    exact h
  | interrupt c now timestamp =>
    simp only [Meets, ← dueTask_isSome] at h
    simp only [Timers.after, Op.cpu]
    split_ifs at h ⊢ with hkind hdue
    · rw [Timers.setNextTaskSwitch, evalCpuTimer_preemptTime, setPreemptTime_self]
      exact h
    · exact h
    · exact h

end

/-- The invariant: the array is in order, and the timer is right where the tasks have not
    changed. -/
structure AlarmInv (s : Alarms κ) : Prop where
  ordered : Ordered s.tasks
  armed : ∀ c, s.current c = true → Armed s.toTimers c

theorem evaluated_armed {timers : Timers κ} (hord : Ordered timers.tasks)
    (heven : Even timers.tasks (timers.cpu c).preemptTime) :
    Armed (s.evaluated timers c).toTimers c :=
  (evalCpuTimer_armed_iff hord).2 heven

theorem AlarmInv.evaluated (h : AlarmInv s) {timers : Timers κ} (hord : Ordered timers.tasks)
    (heven : Even timers.tasks (timers.cpu c).preemptTime)
    (hothers : ∀ d ≠ c, timers.cpu d = s.cpu d) : AlarmInv (s.evaluated timers c) := by
  refine ⟨hord, fun d hd => ?_⟩
  rcases eq_or_ne d c with rfl | hne
  · exact evaluated_armed hord heven
  · simp only [Alarms.evaluated, hne, decide_false, Bool.false_or, Bool.and_eq_true,
      decide_eq_true_eq] at hd
    refine (h.armed d hd.1).congr hd.2 ?_
    exact (evalCpuTimer_other hne).trans (hothers d hne)

theorem after_others (s : Timers κ) (op : Op κ) (hne : d ≠ op.cpu) : (s.after op).cpu d = s.cpu d := by
  cases op with
  | add | cancel => rfl
  | addFails c numbered => cases numbered <;> rfl
  | setNextTaskSwitch c timestamp => exact setPreemptTime_other hne timestamp
  | interrupt c now timestamp =>
    rw [Op.cpu] at hne
    simp only [Timers.after]
    split_ifs
    · rw [Timers.setNextTaskSwitch, evalCpuTimer_other hne, setPreemptTime_other hne,
        setPreemptTime_other hne]
    · rfl
    · rfl

/-- An operation evaluates the timer of its CPU, or it is a failed `time_add_async_task`. -/
theorem operate_cases {t : Alarms κ} (h : operate s op = some t) : ((∀ c numbered, op ≠ .addFails c numbered) ∧
      (∀ c timestamp callback cookie k, op = .add c timestamp callback cookie k →
        s.InsertsAt k ⟨s.tasknoCounter, timestamp, callback, cookie⟩) ∧
      t = s.evaluated (s.after op) op.cpu) ∨
    ∃ c numbered, op = .addFails c numbered ∧ t = { s with toTimers := s.after op } := by
  cases op with
  | add c timestamp callback cookie k =>
    simp only [operate] at h
    split at h
    · rename_i hins
      refine .inl ⟨by simp, ?_, (Option.some.inj h).symm⟩
      rintro _ _ _ _ _ ⟨⟩
      exact hins
    · contradiction
  | addFails c numbered => exact .inr ⟨c, numbered, rfl, (Option.some.inj h).symm⟩
  | cancel c taskno | setNextTaskSwitch c timestamp | interrupt c now timestamp =>
    exact .inl ⟨by simp, by simp, (Option.some.inj h).symm⟩

theorem after_fails (s : Timers κ) (d : κ) (numbered : Bool) : (s.after (.addFails d numbered)).tasks = s.tasks ∧
      (s.after (.addFails d numbered)).cpu = s.cpu := by
  cases numbered <;> exact ⟨rfl, rfl⟩

theorem AlarmInv.operate {t : Alarms κ} (h : AlarmInv s) (hmeets : Meets s op)
    (hstep : operate s op = some t) : AlarmInv t ∧ Armed t.toTimers op.cpu := by
  rcases operate_cases hstep with ⟨hfails, hadd, rfl⟩ | ⟨c, numbered, rfl, rfl⟩
  · have hord := after_ordered hadd h.ordered
    have heven := hmeets.even hadd hfails
    exact ⟨h.evaluated hord heven fun d hne => after_others s.toTimers op hne,
      evaluated_armed hord heven⟩
  · obtain ⟨htasks, hcpu⟩ := after_fails s.toTimers c numbered
    refine ⟨⟨htasks ▸ h.ordered, fun d hd => ?_⟩, ?_⟩
    · exact (h.armed d hd).congr htasks (congrFun hcpu d)
    · exact (h.armed c hmeets).congr htasks (congrFun hcpu c)

end

section

variable {κ : Type*} [DecidableEq κ]

/-- No task has been added and no CPU has a preemption time. -/
structure AlarmsInitial (s : Alarms κ) : Prop where
  tasks : s.tasks = []
  preemptTime : ∀ c, (s.cpu c).preemptTime = 0

omit [DecidableEq κ] in
theorem AlarmsInitial.inv {s : Alarms κ} (h : AlarmsInitial s) : AlarmInv s := by
  have htimes : ∀ c, s.times c = [] := by simp [times, h.tasks, h.preemptTime]
  refine ⟨by simp [h.tasks, Ordered], fun c _ => ⟨?_, ?_, ?_⟩⟩ <;>
    exact fun hne => absurd (htimes c) hne

/-- If all operations so far and this one meet the condition, then the timer of its CPU is
    right after the operation. -/
theorem armed_run {s t u : Alarms κ} {ops : List (Op κ)} {op : Op κ} (hs : AlarmsInitial s)
    (h : Run operate Meets s ops t) (hmeets : Meets t op) (hstep : operate t op = some u) :
    Armed u.toTimers op.cpu := by
  have hinv : AlarmInv t :=
    h.invariant (fun hinv hok hstep => (AlarmInv.operate hinv hok hstep).1) hs.inv
  exact (hinv.operate hmeets hstep).2

end

/-- The timers of one CPU before the first task. -/
def freshAlarms : Alarms (Fin 1) where
  tasks := []
  tasknoCounter := 0
  cpu _ := ⟨false, 0, 0⟩
  current _ := true

theorem alarmsInitial_fresh : AlarmsInitial freshAlarms := ⟨rfl, fun _ => rfl⟩

/-- A task, a preemption before it, and another task. -/
theorem armed_run_preempt :
    ∃ t u, Run operate Meets freshAlarms [.add 0 10 0 0 0, .setNextTaskSwitch 0 5] t ∧
      operate t (.add 0 20 0 1 0) = some u ∧ Armed u.toTimers 0 := by
  have hexec : (Run.exec operate Meets freshAlarms [.add 0 10 0 0 0, .setNextTaskSwitch 0 5]).map
      (fun t => (decide (Meets t (.add 0 20 0 1 0)), (operate t (.add 0 20 0 1 0)).isSome)) =
      some (true, true) := by decide
  obtain ⟨t, hrun, hend⟩ := Run.of_exec_map hexec
  obtain ⟨hmeets, hsome⟩ := Prod.mk.inj hend
  obtain ⟨u, hu⟩ := Option.isSome_iff_exists.1 hsome
  exact ⟨t, u, hrun, hu, armed_run alarmsInitial_fresh hrun (of_decide_eq_true hmeets) hu⟩

/-- With tasks for the times 10 and 20 the timer is set to the time 20. -/
theorem armed_late :
    ∃ t, Run operate (fun _ _ => True) freshAlarms [.add 0 10 0 0 0, .add 0 20 0 1 0] t ∧
      ¬ Armed t.toTimers 0 := by
  have hexec : (Run.exec operate (fun _ _ => True) freshAlarms
      [.add 0 10 0 0 0, .add 0 20 0 1 0]).map (fun t => (t.times 0, (t.cpu 0).alarm)) =
      some ([20, 10], 20) := by decide
  obtain ⟨t, hrun, hend⟩ := Run.of_exec_map hexec
  obtain ⟨htimes, halarm⟩ := Prod.mk.inj hend
  refine ⟨t, hrun, fun h => ?_⟩
  have hle := (h.earliest (by simp [htimes])).2 10 (by simp [htimes])
  rw [halarm] at hle
  contradiction

end BadgerOS.Time
