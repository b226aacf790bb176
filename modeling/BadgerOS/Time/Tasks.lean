import BadgerOS.Lib.Ownership
import BadgerOS.Lib.Run

/-!
# Timer tasks

Model of the array of timer tasks that all CPUs share (`kernel/src/time.c`). Any number of
threads and interrupt handlers add and cancel tasks and serve the timer interrupts of any
number of CPUs. A step is what one of them does while it has `tasks_spinlock`, or what it
does between two such sections. The array functions of badgelib are taken as they are named:
an insertion leaves the array in the order of its comparator, and a removal takes out the
element at the given index.

The array is sorted by `timertask_timestamp_cmp`, which puts the earliest timestamp last.

* `consumedOnce_run`: in every state of every run each task that was added is either run, not
  before its timestamp, or cancelled, and this only once. A task that is neither is in the
  array or with the interrupt handler that is about to run it. The array is in order.

Timestamps and task numbers are integers here: the code only compares timestamps, and the
counter of task numbers does not wrap around.
-/

namespace BadgerOS.Time

open Option (some.inj)

open Function List

/-- `TIMESTAMP_US_MAX`. -/
def timestampUsMax : ℤ := 2 ^ 63 - 1

/-- `timertask_t` (`kernel/include/badgelib/time_private.h` lines 8–17). -/
structure Task where
  taskno : ℤ
  timestamp : ℤ
  callback : ℕ
  cookie : ℕ
  deriving DecidableEq, Repr

/-- `time_cpulocal_t`, and what the hardware timer of the CPU is set to. -/
structure Cpu where
  timerIsPreempt : Bool
  preemptTime : ℤ
  alarm : ℤ
  deriving DecidableEq, Repr

/-- `timertask_timestamp_cmp` (lines 32–42). -/
def timertaskTimestampCmp (a b : Task) : ℤ :=
  if a.timestamp < b.timestamp then 1 else if a.timestamp > b.timestamp then -1 else 0

/-- The array is in the order of the comparator. -/
def Ordered (tasks : List Task) : Prop :=
  tasks.Pairwise fun a b => timertaskTimestampCmp a b ≤ 0

instance (tasks : List Task) : Decidable (Ordered tasks) :=
  inferInstanceAs (Decidable (tasks.Pairwise _))

theorem timertaskTimestampCmp_nonpos (a b : Task) : timertaskTimestampCmp a b ≤ 0 ↔ b.timestamp ≤ a.timestamp := by
  unfold timertaskTimestampCmp
  split_ifs <;> omega

/-! ## The sections under the spinlock -/

/-- The tasks, the counter and the CPUs. -/
structure Timers (κ : Type*) where
  tasks : List Task
  tasknoCounter : ℤ
  cpu : κ → Cpu

section

variable {κ : Type*} [DecidableEq κ]

/-- `eval_cpu_timer` (lines 60–72). The test looks at the last element of the array, the timer
    is set to the first one. -/
def Timers.evalCpuTimer (s : Timers κ) (c : κ) : Timers κ :=
  let ctx := s.cpu c
  { s with
    cpu := update s.cpu c <|
      match s.tasks.head?, s.tasks.getLast? with
      | some first, some last =>
        if ctx.preemptTime ≤ 0 ∨ last.timestamp < ctx.preemptTime then
          { ctx with timerIsPreempt := false, alarm := first.timestamp }
        else { ctx with timerIsPreempt := true, alarm := ctx.preemptTime }
      | _, _ => { ctx with timerIsPreempt := true, alarm := ctx.preemptTime } }

def Timers.setPreemptTime (s : Timers κ) (c : κ) (timestamp : ℤ) : Timers κ :=
  { s with cpu := update s.cpu c { s.cpu c with preemptTime := timestamp } }

/-- `time_set_next_task_switch` (lines 75–79). -/
def Timers.setNextTaskSwitch (s : Timers κ) (c : κ) (timestamp : ℤ) : Timers κ :=
  (s.setPreemptTime c timestamp).evalCpuTimer c

omit [DecidableEq κ] in
/-- The first section of `time_add_async_task` (lines 90–93): the number of the task. -/
def Timers.takeNumber (s : Timers κ) : Timers κ :=
  { s with tasknoCounter := s.tasknoCounter + 1 }

/-- The second section of `time_add_async_task` (lines 103–108): the sorted insertion puts the
    task at index `k`. -/
def Timers.insertTask (s : Timers κ) (k : ℕ) (task : Task) : Timers κ :=
  { s with tasks := s.tasks.insertIdx k task }

/-- The index is one at which the sorted insertion may put the task. -/
def Timers.InsertsAt (s : Timers κ) (k : ℕ) (task : Task) : Prop :=
  k ≤ s.tasks.length ∧ Ordered (s.tasks.insertIdx k task)

instance (s : Timers κ) (k : ℕ) (task : Task) : Decidable (s.InsertsAt k task) :=
  inferInstanceAs (Decidable (_ ∧ _))

/-- `found` in `time_cancel_async_task` (lines 136–147). -/
def Timers.hasTask (s : Timers κ) (taskno : ℤ) : Bool :=
  s.tasks.any fun task => task.taskno = taskno

/-- The section of `time_cancel_async_task` (lines 136–147): the first task with the number is
    removed. -/
def Timers.removeTask (s : Timers κ) (taskno : ℤ) : Timers κ :=
  { s with tasks := s.tasks.eraseP fun task => task.taskno = taskno }

/-- The test of `time_cpu_timer_isr` (line 180): the task to run at the time `now`, if any. -/
def Timers.dueTask (s : Timers κ) (now : ℤ) : Option Task :=
  s.tasks.getLast?.filter fun task => task.timestamp ≤ now

/-- `tasks[--tasks_len]` (line 181). -/
def Timers.popTask (s : Timers κ) : Timers κ := { s with tasks := s.tasks.dropLast }

end

/-! ## The steps -/

/-- Where a thread or interrupt handler is in the functions of the timer. -/
inductive Pc (κ : Type*)
  | idle
  /-- In `time_add_async_task`, between its two sections. -/
  | numbered (task : Task)
  /-- In `time_cpu_timer_isr` after the timer was set for a preemption. -/
  | preempting (c : κ)
  /-- In `time_cpu_timer_isr` before it looks for a task. -/
  | firing (c : κ) (now : ℤ)
  /-- In `time_cpu_timer_isr` with a task that it has taken from the array. -/
  | running (c : κ) (task : Task)
  /-- Before `eval_cpu_timer`. -/
  | evaluate (c : κ)
  deriving DecidableEq

/-- The timers and those who use them. -/
structure State (ι κ : Type*) extends Timers κ where
  pc : ι → Pc κ
  /-- The time of `time_us`. -/
  clock : ℤ
  /-- Ghost: the tasks that were added. -/
  added : List Task
  /-- Ghost: the calls of `time_cancel_async_task` that returned true. -/
  cancels : List ℤ
  /-- Ghost: the callbacks that were run, and when. -/
  runs : List (Task × ℤ)

/-- The steps of thread or interrupt handler `i`, on the CPU `c`. -/
inductive Action (ι κ : Type*)
  /-- `time_add_async_task` with its allocation, up to the number of the task. -/
  | add (i : ι) (timestamp : ℤ) (callback cookie : ℕ)
  | insert (i : ι) (c : κ) (k : ℕ)
  /-- The insertion finds no memory, and `time_add_async_task` returns -1. -/
  | insertFails (i : ι)
  /-- `time_cancel_async_task`. -/
  | cancel (i : ι) (c : κ) (taskno : ℤ)
  /-- `time_set_next_task_switch`. -/
  | setSwitch (i : ι) (c : κ) (timestamp : ℤ)
  /-- The timer of the CPU fires. -/
  | interrupt (i : ι) (c : κ)
  /-- The switch of the scheduler sets the time of the next one. -/
  | preempt (i : ι) (timestamp : ℤ)
  | pop (i : ι)
  /-- The callback of the task. -/
  | run (i : ι)
  | eval (i : ι)
  /-- Time passes. -/
  | tick (us : ℕ)
  deriving DecidableEq, Repr

section

variable {ι κ : Type*} [DecidableEq ι] [DecidableEq κ]

def State.setPc (s : State ι κ) (i : ι) (pc : Pc κ) : State ι κ :=
  { s with pc := update s.pc i pc }

/-- A new task, before it is in the array. -/
def State.numbered (s : State ι κ) (i : ι) (timestamp : ℤ) (callback cookie : ℕ) : State ι κ :=
  { s with
    toTimers := s.takeNumber
    pc := update s.pc i (.numbered ⟨s.tasknoCounter, timestamp, callback, cookie⟩) }

def State.inserted (s : State ι κ) (i : ι) (c : κ) (k : ℕ) (task : Task) : State ι κ :=
  { s with
    toTimers := s.insertTask k task
    pc := update s.pc i (.evaluate c)
    added := task :: s.added }

def State.cancelled (s : State ι κ) (i : ι) (c : κ) (taskno : ℤ) : State ι κ :=
  { s with
    toTimers := s.removeTask taskno
    pc := update s.pc i (.evaluate c)
    cancels := if s.hasTask taskno then taskno :: s.cancels else s.cancels }

def State.popped (s : State ι κ) (i : ι) (c : κ) (task : Task) : State ι κ :=
  { s with toTimers := s.popTask, pc := update s.pc i (.running c task) }

def State.ran (s : State ι κ) (i : ι) (c : κ) (task : Task) : State ι κ :=
  { s with
    pc := update s.pc i (.evaluate c)
    runs := (task, s.clock) :: s.runs }

/-- One step. -/
def step (s : State ι κ) : Action ι κ → Option (State ι κ)
  | .add i timestamp callback cookie =>
    if s.pc i = .idle then some (s.numbered i timestamp callback cookie) else none
  | .insert i c k =>
    match s.pc i with
    | .numbered task => if s.InsertsAt k task then some (s.inserted i c k task) else none
    | _ => none
  | .insertFails i =>
    match s.pc i with
    | .numbered _ => some (s.setPc i .idle)
    | _ => none
  | .cancel i c taskno => if s.pc i = .idle then some (s.cancelled i c taskno) else none
  | .setSwitch i c timestamp =>
    if s.pc i = .idle then some { s with toTimers := s.setNextTaskSwitch c timestamp } else none
  | .interrupt i c =>
    if s.pc i = .idle then
      if (s.cpu c).timerIsPreempt then
        some { s.setPc i (.preempting c) with toTimers := s.setPreemptTime c timestampUsMax }
      else some (s.setPc i (.firing c s.clock))
    else none
  | .preempt i timestamp =>
    match s.pc i with
    | .preempting c =>
      some { s.setPc i (.evaluate c) with toTimers := s.setNextTaskSwitch c timestamp }
    | _ => none
  | .pop i =>
    match s.pc i with
    | .firing c now =>
      match s.dueTask now with
      | some task => some (s.popped i c task)
      | none => some (s.setPc i (.evaluate c))
    | _ => none
  | .run i =>
    match s.pc i with
    | .running c task => some (s.ran i c task)
    | _ => none
  | .eval i =>
    match s.pc i with
    | .evaluate c => some { s.setPc i .idle with toTimers := s.evalCpuTimer c }
    | _ => none
  | .tick us => some { s with clock := s.clock + us }

end

/-! ## The property -/

section

variable {ι κ : Type*}

/-- No task has been added and nobody uses the timers. -/
structure Initial (s : State ι κ) : Prop where
  tasks : s.tasks = []
  idle : ∀ i, s.pc i = .idle
  added : s.added = []
  cancels : s.cancels = []
  runs : s.runs = []

/-- Each task that was added is consumed at most once, by its callback or by a cancellation,
    and is kept until then. The callback runs at its time or later. -/
structure ConsumedOnce (s : State ι κ) : Prop where
  once : ∀ task ∈ s.added,
    s.cancels.count task.taskno + (s.runs.map Prod.fst).count task ≤ 1
  due : ∀ task time, (task, time) ∈ s.runs → task.timestamp ≤ time
  kept : ∀ task ∈ s.added, task.taskno ∉ s.cancels → task ∉ s.runs.map Prod.fst →
    task ∈ s.tasks ∨ ∃ i c, s.pc i = .running c task
  ordered : s.tasks.Pairwise fun a b => b.timestamp ≤ a.timestamp

end

/-! ## What a step does to the tasks -/

section

variable {ι κ : Type*}

/-- The task that an interrupt handler is about to run. -/
def Pc.task? : Pc κ → Option Task
  | .running _ task => some task
  | _ => none

/-- The task that `time_add_async_task` is about to insert. -/
def Pc.new? : Pc κ → Option Task
  | .numbered task => some task
  | _ => none

theorem Pc.task?_eq_some {pc : Pc κ} {task : Task} : pc.task? = some task ↔ ∃ c, pc = .running c task := by
  cases pc <;> simp [Pc.task?]

/-- A step that neither makes nor moves a task. -/
structure Quiet (s t : State ι κ) : Prop where
  tasks : t.tasks = s.tasks
  tasknoCounter : t.tasknoCounter = s.tasknoCounter
  added : t.added = s.added
  cancels : t.cancels = s.cancels
  runs : t.runs = s.runs
  clock : s.clock ≤ t.clock
  task? : ∀ j, (t.pc j).task? = (s.pc j).task?
  new? : ∀ j task, (t.pc j).new? = some task → (s.pc j).new? = some task
  firing : ∀ j c now, t.pc j = .firing c now → s.pc j = .firing c now ∨ now = s.clock

end

section

variable {ι κ : Type*} [DecidableEq ι] {s t : State ι κ}

/-- The steps by their effect on the tasks. -/
inductive Step (s : State ι κ) : State ι κ → Prop
  | quiet {u} : Quiet s u → Step s u
  | number {i} (timestamp callback cookie) : s.pc i = .idle →
      Step s (s.numbered i timestamp callback cookie)
  | insert {i k task} (c) : s.pc i = .numbered task → s.InsertsAt k task →
      Step s (s.inserted i c k task)
  | cancel {i} (c taskno) : s.pc i = .idle → Step s (s.cancelled i c taskno)
  | pop {i c now task} : s.pc i = .firing c now → s.dueTask now = some task →
      Step s (s.popped i c task)
  | run {i c task} : s.pc i = .running c task → Step s (s.ran i c task)

variable {i : ι} {pc : Pc κ} {task : Task} {now : ℤ} {c : κ}

/-- A change of a program counter that has no task before and no task afterwards. The other
    CPU-local data may change as well. -/
theorem quiet_setPc {timers : Timers κ} (htasks : timers.tasks = s.tasks)
    (hcounter : timers.tasknoCounter = s.tasknoCounter) (hbefore : (s.pc i).task? = none)
    (hafter : pc.task? = none) (hnew : pc.new? = none)
    (hfiring : ∀ c now, pc = .firing c now → now = s.clock) :
    Quiet s { s.setPc i pc with toTimers := timers } where
  tasks := htasks
  tasknoCounter := hcounter
  added := rfl
  cancels := rfl
  runs := rfl
  clock := le_rfl
  task? j := by
    rcases eq_or_ne j i with rfl | hne
    · simp only [State.setPc, update_self, hbefore, hafter]
    · simp only [State.setPc, update_of_ne hne]
  new? j task hj := by
    rcases eq_or_ne j i with rfl | hne
    · simp [State.setPc, update_self, hnew] at hj
    · simpa only [State.setPc, update_of_ne hne] using hj
  firing j c now hj := by
    rcases eq_or_ne j i with rfl | hne
    · refine .inr (hfiring c now ?_)
      simpa only [State.setPc, update_self] using hj
    · refine .inl ?_
      simpa only [State.setPc, update_of_ne hne] using hj

theorem step_inv [DecidableEq κ] {a : Action ι κ} (h : step s a = some t) : Step s t := by
  cases a with simp only [step] at h
  | add i timestamp callback cookie =>
    split at h
    · rename_i hpc
      cases h
      exact .number timestamp callback cookie hpc
    · contradiction
  | insert i c k =>
    split at h
    · rename_i task hpc
      split at h
      · rename_i hins
        cases h
        exact .insert c hpc hins
      · contradiction
    · contradiction
  | insertFails i =>
    split at h
    · rename_i task hpc
      cases h
      exact .quiet (quiet_setPc rfl rfl (by rw [hpc]; rfl) rfl rfl (by simp))
    · contradiction
  | cancel i c taskno =>
    split at h
    · rename_i hpc
      cases h
      exact .cancel c taskno hpc
    · contradiction
  | setSwitch i c timestamp =>
    split at h
    · rename_i hpc
      cases h
      exact .quiet ⟨rfl, rfl, rfl, rfl, rfl, le_rfl, fun _ => rfl, fun _ _ h => h,
        fun _ _ _ h => .inl h⟩
    · contradiction
  | interrupt i c =>
    split at h
    · rename_i hpc
      have hnone : (s.pc i).task? = none := by rw [hpc]; rfl
      split at h <;> cases h <;> exact .quiet (quiet_setPc rfl rfl hnone rfl rfl (by simp))
    · contradiction
  | preempt i timestamp | eval i =>
    split at h
    · rename_i c hpc
      cases h
      exact .quiet (quiet_setPc rfl rfl (by rw [hpc]; rfl) rfl rfl (by simp))
    · contradiction
  | pop i =>
    split at h
    · rename_i c now hpc
      split at h
      · rename_i task hdue
        cases h
        exact .pop hpc hdue
      · cases h
        exact .quiet (quiet_setPc rfl rfl (by rw [hpc]; rfl) rfl rfl (by simp))
    · contradiction
  | run i =>
    split at h
    · rename_i c task hpc
      cases h
      exact .run hpc
    · contradiction
  | tick us =>
    cases h
    exact .quiet ⟨rfl, rfl, rfl, rfl, rfl, by simp, fun _ => rfl, fun _ _ h => h,
      fun _ _ _ h => .inl h⟩

/-! ## Numbers -/

/-- The numbers of the tasks are distinct. -/
structure Numbers (s : State ι κ) : Prop where
  added_lt : ∀ task ∈ s.added, task.taskno < s.tasknoCounter
  nodup : (s.added.map Task.taskno).Nodup
  new_lt : ∀ i task, (s.pc i).new? = some task → task.taskno < s.tasknoCounter
  new_not_mem : ∀ i task, (s.pc i).new? = some task → task.taskno ∉ s.added.map Task.taskno
  new_inj : ∀ i j task other, (s.pc i).new? = some task → (s.pc j).new? = some other →
    task.taskno = other.taskno → i = j

omit [DecidableEq ι] in
theorem Numbers.mono (h : Numbers s) (hcounter : t.tasknoCounter = s.tasknoCounter) (hadded : t.added = s.added)
    (hnew : ∀ j task, (t.pc j).new? = some task → (s.pc j).new? = some task) : Numbers t where
  added_lt task hmem := hcounter ▸ h.added_lt task (hadded ▸ hmem)
  nodup := hadded ▸ h.nodup
  new_lt i task hi := hcounter ▸ h.new_lt i task (hnew i task hi)
  new_not_mem i task hi := hadded ▸ h.new_not_mem i task (hnew i task hi)
  new_inj i j task other hi hj := h.new_inj i j task other (hnew i task hi) (hnew j other hj)

theorem new?_update (hpc : pc.new? = none) (j : ι) (task : Task)
    (hj : (update s.pc i pc j).new? = some task) : (s.pc j).new? = some task ∧ j ≠ i := by
  rcases eq_or_ne j i with rfl | hne
  · simp [update_self, hpc] at hj
  · exact ⟨by simpa only [update_of_ne hne] using hj, hne⟩

theorem Numbers.numbered (h : Numbers s) (i : ι) (timestamp : ℤ) (callback cookie : ℕ) :
    Numbers (s.numbered i timestamp callback cookie) := by
  -- A task under way is the new one or has a smaller number.
  have hcases : ∀ j task, ((s.numbered i timestamp callback cookie).pc j).new? = some task →
      j = i ∧ task.taskno = s.tasknoCounter ∨ j ≠ i ∧ (s.pc j).new? = some task := by
    intro j task hj
    rcases eq_or_ne j i with rfl | hne
    · simp only [State.numbered, update_self, Pc.new?, Option.some.injEq] at hj
      exact .inl ⟨rfl, by rw [← hj]⟩
    · simp only [State.numbered, update_of_ne hne] at hj
      exact .inr ⟨hne, hj⟩
  refine ⟨fun task hmem => ?_, h.nodup, fun j task hj => ?_, fun j task hj => ?_,
    fun j k task other hj hk heq => ?_⟩
  · exact lt_trans (h.added_lt task hmem) (lt_add_one _)
  · rcases hcases j task hj with ⟨-, hno⟩ | ⟨-, hold⟩
    · exact hno ▸ lt_add_one _
    · exact lt_trans (h.new_lt j task hold) (lt_add_one _)
  · rcases hcases j task hj with ⟨-, hno⟩ | ⟨-, hold⟩
    · intro hmem
      obtain ⟨other, hother, heq⟩ := mem_map.1 hmem
      exact absurd (h.added_lt other hother) (by omega)
    · exact h.new_not_mem j task hold
  · rcases hcases j task hj with ⟨rfl, hno⟩ | ⟨-, hold⟩ <;>
      rcases hcases k other hk with ⟨rfl, hno'⟩ | ⟨-, hold'⟩
    · rfl
    · exact absurd (h.new_lt k other hold') (by omega)
    · exact absurd (h.new_lt j task hold) (by omega)
    · exact h.new_inj j k task other hold hold' heq

theorem Numbers.inserted (h : Numbers s) (hpc : s.pc i = .numbered task) (c : κ) (k : ℕ) :
    Numbers (s.inserted i c k task) := by
  have hnew : (s.pc i).new? = some task := by rw [hpc]; rfl
  refine ⟨?_, ?_, fun j other hj => ?_, fun j other hj => ?_, fun j k a b hj hk heq => ?_⟩
  · intro other hmem
    rcases mem_cons.1 hmem with rfl | hmem
    · exact h.new_lt i _ hnew
    · exact h.added_lt other hmem
  · exact nodup_cons.2 ⟨h.new_not_mem i task hnew, h.nodup⟩
  · exact h.new_lt j other (new?_update rfl j other hj).1
  · obtain ⟨hold, hne⟩ := new?_update rfl j other hj
    intro hmem
    rcases mem_cons.1 hmem with heq | hmem
    · exact hne (h.new_inj j i other task hold hnew heq)
    · exact h.new_not_mem j other hold hmem
  · exact h.new_inj j k a b (new?_update rfl j a hj).1 (new?_update rfl k b hk).1 heq

theorem Numbers.step (h : Numbers s) (hstep : Step s t) : Numbers t := by
  cases hstep with
  | quiet hq => exact h.mono hq.tasknoCounter hq.added hq.new?
  | number timestamp callback cookie _ => exact h.numbered _ timestamp callback cookie
  | insert c hpc _ => exact h.inserted hpc c _
  | cancel c taskno _ | pop _ _ | run _ =>
    exact h.mono rfl rfl fun j task hj => (new?_update rfl j task hj).1

/-! ## Places -/

/-- Where a task can be that was added. -/
inductive Place (ι : Type*)
  | array
  | flight (i : ι)
  | cancelled
  | ran
  deriving DecidableEq

/-- The tasks at the places. `cancelled` are those whose numbers the state has. -/
def State.lists (s : State ι κ) (cancelled : List Task) : Place ι → List Task
  | .array => s.tasks
  | .flight i => (s.pc i).task?.toList
  | .cancelled => cancelled
  | .ran => s.runs.map Prod.fst

/-- Every task that was added is at one place, and the places have no other tasks. -/
structure Places (s : State ι κ) (cancelled : List Task) : Prop where
  cancels : s.cancels = cancelled.map Task.taskno
  exclusive : Exclusive (s.lists cancelled)
  mem_iff : ∀ task, task ∈ s.added ↔ ∃ p, task ∈ s.lists cancelled p

variable {cancelled : List Task}

omit [DecidableEq ι] in
theorem Numbers.eq (h : Numbers s) {other : Task} (htask : task ∈ s.added)
    (hother : other ∈ s.added) (heq : task.taskno = other.taskno) : task = other :=
  inj_on_of_nodup_map h.nodup htask hother heq

omit [DecidableEq ι] in
theorem Places.stay (h : Places s cancelled) (hlists : t.lists cancelled = s.lists cancelled)
    (hadded : t.added = s.added) (hcancels : t.cancels = s.cancels) : Places t cancelled :=
  ⟨hcancels.trans h.cancels, hlists ▸ h.exclusive, by rw [hadded, hlists]; exact h.mem_iff⟩

theorem Places.move (h : Places s cancelled) {cancelled' : List Task} (task : Task)
    (p p' : Place ι) (l l' : List Task) (hne : p' ≠ p)
    (hl : (task :: l).Perm (s.lists cancelled p)) (hl' : l'.Perm (task :: s.lists cancelled p'))
    (hlists : t.lists cancelled' = update (update (s.lists cancelled) p l) p' l')
    (hadded : t.added = s.added) (hcancels : t.cancels = cancelled'.map Task.taskno) :
    Places t cancelled' := by
  refine ⟨hcancels, hlists ▸ h.exclusive.move hne hl hl', fun other => ?_⟩
  rw [hadded, h.mem_iff, hlists]
  simp only [h.exclusive.mem_move_iff hne hl hl']
  constructor
  · rintro ⟨q, hq⟩
    by_cases heq : other = task
    · exact ⟨p', .inl ⟨heq, rfl⟩⟩
    · exact ⟨q, .inr ⟨heq, hq⟩⟩
  · rintro ⟨q, ⟨rfl, -⟩ | ⟨-, hq⟩⟩
    · exact ⟨p, hl.subset mem_cons_self⟩
    · exact ⟨q, hq⟩

/-- Only the program counter `i` changes, which has no task before and none afterwards. -/
theorem task?_update (hbefore : (s.pc i).task? = none) (hafter : pc.task? = none) (j : ι) :
    (update s.pc i pc j).task? = (s.pc j).task? := by
  rcases eq_or_ne j i with rfl | hne
  · rw [update_self, hbefore, hafter]
  · rw [update_of_ne hne]

theorem Places.numbered (h : Places s cancelled) (hpc : s.pc i = .idle) (timestamp : ℤ)
    (callback cookie : ℕ) : Places (s.numbered i timestamp callback cookie) cancelled := by
  refine h.stay (funext fun p => ?_) rfl rfl
  cases p with
  | flight j =>
    rw [State.lists, State.numbered, task?_update (by rw [hpc]; rfl) (by rfl)]
    rfl
  | _ => rfl

theorem Places.inserted (h : Places s cancelled) (hn : Numbers s) {k : ℕ}
    (hpc : s.pc i = .numbered task) (hins : s.InsertsAt k task) (c : κ) :
    Places (s.inserted i c k task) cancelled := by
  have hlists : (s.inserted i c k task).lists cancelled =
      update (s.lists cancelled) .array (s.tasks.insertIdx k task) := by
    funext p
    cases p with
    | flight j =>
      rw [update_of_ne (by nofun), State.lists, State.inserted,
        task?_update (by rw [hpc]; rfl) (by rfl)]
      rfl
    | _ => rfl
  have hnot : task.taskno ∉ s.added.map Task.taskno := hn.new_not_mem i task (by rw [hpc]; rfl)
  have hnowhere : ∀ p, task ∉ s.lists cancelled p := fun p hp =>
    hnot (mem_map_of_mem ((h.mem_iff task).2 ⟨p, hp⟩))
  have hperm := perm_insertIdx task s.tasks hins.1
  refine ⟨h.cancels, hlists ▸ h.exclusive.put hnowhere hperm, fun other => ?_⟩
  rw [hlists, show (s.inserted i c k task).added = task :: s.added from rfl, mem_cons, h.mem_iff]
  constructor
  · rintro (rfl | ⟨p, hp⟩)
    · exact ⟨.array, by rw [update_self, hperm.mem_iff]; exact mem_cons_self⟩
    · refine ⟨p, ?_⟩
      rcases eq_or_ne p .array with rfl | hne
      · rw [update_self, hperm.mem_iff]
        exact mem_cons_of_mem _ hp
      · rwa [update_of_ne hne]
  · rintro ⟨p, hp⟩
    rcases eq_or_ne p .array with rfl | hne
    · rw [update_self, hperm.mem_iff, mem_cons] at hp
      exact hp.imp_right fun hold => ⟨.array, hold⟩
    · rw [update_of_ne hne] at hp
      exact .inr ⟨p, hp⟩

omit [DecidableEq ι] in
/-- A cancellation removes one task with the number, or nothing. -/
theorem removeTask_cases (s : State ι κ) (n : ℤ) : (∃ task, task.taskno = n ∧ s.hasTask n = true ∧
      (task :: (s.removeTask n).tasks).Perm s.tasks) ∨
    s.hasTask n = false ∧ (s.removeTask n).tasks = s.tasks := by
  by_cases hany : ∃ task ∈ s.tasks, decide (task.taskno = n) = true
  · obtain ⟨found, hfound, hno⟩ := hany
    obtain ⟨task, l1, l2, -, hp, heq, herase⟩ :=
      exists_of_eraseP (p := fun task => decide (task.taskno = n)) hfound hno
    have hmem : task ∈ s.tasks := by rw [heq]; simp
    refine .inl ⟨task, of_decide_eq_true hp, any_eq_true.2 ⟨task, hmem, hp⟩, ?_⟩
    rw [Timers.removeTask, herase, heq]
    exact perm_middle.symm
  · have hall : ∀ task ∈ s.tasks, ¬ decide (task.taskno = n) = true :=
      fun task hmem hp => hany ⟨task, hmem, hp⟩
    refine .inr ⟨?_, eraseP_of_forall_not hall⟩
    rw [Timers.hasTask, ← Bool.not_eq_true, any_eq_true]
    exact hany

theorem Places.cancel (h : Places s cancelled) (hpc : s.pc i = .idle) (c : κ) (n : ℤ) :
    ∃ cancelled', Places (s.cancelled i c n) cancelled' := by
  have hflight (j : ι) : ((s.cancelled i c n).pc j).task? = (s.pc j).task? :=
    task?_update (by rw [hpc]; rfl) rfl j
  rcases removeTask_cases s n with ⟨task, hno, hhas, hperm⟩ | ⟨hhas, hrest⟩
  · have hcancels : (s.cancelled i c n).cancels = n :: s.cancels := if_pos hhas
    refine ⟨task :: cancelled, h.move task .array .cancelled _ _ nofun hperm (.refl _)
      (funext fun p => ?_) rfl ?_⟩
    · cases p with
      | flight j =>
        rw [update_of_ne (by nofun), update_of_ne (by nofun), State.lists, hflight j]
        rfl
      | _ => rfl
    · rw [hcancels, h.cancels, map_cons, hno]
  · refine ⟨cancelled, h.stay (funext fun p => ?_) rfl (if_neg (by simp [hhas]))⟩
    cases p with
    | array => exact hrest
    | flight j => rw [State.lists, State.lists, hflight j]
    | _ => rfl

omit [DecidableEq ι] in
theorem dueTask_eq_some (h : s.dueTask now = some task) : s.tasks = s.popTask.tasks ++ [task] ∧ task.timestamp ≤ now := by
  rw [Timers.dueTask, Option.filter_eq_some_iff] at h
  exact ⟨(dropLast_append_getLast? task h.1).symm, of_decide_eq_true h.2⟩

theorem Places.popped (h : Places s cancelled) (hpc : s.pc i = .firing c now)
    (hdue : s.dueTask now = some task) : Places (s.popped i c task) cancelled := by
  obtain ⟨htasks, -⟩ := dueTask_eq_some hdue
  refine h.move task .array (.flight i) s.popTask.tasks [task] nofun ?_ ?_ (funext fun p => ?_) rfl
    h.cancels
  · rw [State.lists, htasks]
    exact (perm_append_singleton task _).symm
  · rw [State.lists, hpc]
    rfl
  · cases p with
    | flight j =>
      rcases eq_or_ne j i with rfl | hne
      · simp only [State.lists, State.popped, update_self]
        rfl
      · rw [update_of_ne (by simp [hne]), update_of_ne (by nofun)]
        simp only [State.lists, State.popped, update_of_ne hne]
    | _ => rfl

theorem Places.ran (h : Places s cancelled) (hpc : s.pc i = .running c task) : Places (s.ran i c task) cancelled := by
  refine h.move task (.flight i) .ran [] _ nofun ?_ (.refl _) (funext fun p => ?_) rfl h.cancels
  · rw [State.lists, hpc]
    rfl
  · cases p with
    | flight j =>
      rw [update_of_ne (by nofun)]
      rcases eq_or_ne j i with rfl | hne
      · simp only [State.lists, State.ran, update_self]
        rfl
      · rw [update_of_ne (by simp [hne])]
        simp only [State.lists, State.ran, update_of_ne hne]
    | _ => rfl

theorem Places.step (h : Places s cancelled) (hn : Numbers s) (hstep : Step s t) :
    ∃ cancelled', Places t cancelled' := by
  cases hstep with
  | quiet hq =>
    refine ⟨cancelled, h.stay (funext fun p => ?_) hq.added hq.cancels⟩
    cases p with
    | array => exact hq.tasks
    | flight i => rw [State.lists, State.lists, hq.task? i]
    | cancelled => rfl
    | ran => rw [State.lists, State.lists, hq.runs]
  | number timestamp callback cookie hpc => exact ⟨_, h.numbered hpc timestamp callback cookie⟩
  | insert c hpc hins => exact ⟨_, h.inserted hn hpc hins c⟩
  | cancel c taskno hpc => exact h.cancel hpc c taskno
  | pop hpc hdue => exact ⟨_, h.popped hpc hdue⟩
  | run hpc => exact ⟨_, h.ran hpc⟩

/-! ## Times and order -/

/-- The tasks are run when they are due, and the array is in order. -/
structure Timely (s : State ι κ) : Prop where
  firing : ∀ i c now, s.pc i = .firing c now → now ≤ s.clock
  flight : ∀ i task, (s.pc i).task? = some task → task.timestamp ≤ s.clock
  runs : ∀ task time, (task, time) ∈ s.runs → task.timestamp ≤ time
  ordered : Ordered s.tasks

theorem Timely.firing_update (h : Timely s) (hpc : ∀ c now, pc ≠ .firing c now) (j : ι) (c : κ)
    (now : ℤ) (hj : update s.pc i pc j = .firing c now) : now ≤ s.clock := by
  rcases eq_or_ne j i with rfl | hne
  · rw [update_self] at hj
    exact absurd hj (hpc c now)
  · rw [update_of_ne hne] at hj
    exact h.firing j c now hj

theorem Timely.flight_update (h : Timely s) (hpc : pc.task? = none) (j : ι) (other : Task)
    (hj : (update s.pc i pc j).task? = some other) : other.timestamp ≤ s.clock := by
  rcases eq_or_ne j i with rfl | hne
  · rw [update_self, hpc] at hj
    contradiction
  · rw [update_of_ne hne] at hj
    exact h.flight j other hj

theorem Timely.step (h : Timely s) (hstep : Step s t) : Timely t := by
  cases hstep with
  | quiet hq =>
    refine ⟨fun i c now hi => ?_, fun i task hi => ?_, hq.runs ▸ h.runs, hq.tasks ▸ h.ordered⟩
    · rcases hq.firing i c now hi with hold | rfl
      · exact (h.firing i c now hold).trans hq.clock
      · exact hq.clock
    · exact (h.flight i task (hq.task? i ▸ hi)).trans hq.clock
  | number timestamp callback cookie hpc =>
    exact ⟨h.firing_update (by simp), h.flight_update rfl, h.runs, h.ordered⟩
  | insert c hpc hins =>
    exact ⟨h.firing_update (by simp), h.flight_update rfl, h.runs, hins.2⟩
  | cancel c taskno hpc =>
    exact ⟨h.firing_update (by simp), h.flight_update rfl, h.runs,
      h.ordered.sublist eraseP_sublist⟩
  | @pop i c now task hpc hdue =>
    refine ⟨h.firing_update (by simp), fun j other hj => ?_, h.runs,
      h.ordered.sublist (dropLast_sublist _)⟩
    rcases eq_or_ne j i with rfl | hne
    · simp only [State.popped, update_self] at hj
      obtain rfl := some.inj hj
      exact (dueTask_eq_some hdue).2.trans (h.firing j c now hpc)
    · simp only [State.popped, update_of_ne hne] at hj
      exact h.flight j other hj
  | @run i c task hpc =>
    refine ⟨h.firing_update (by simp), h.flight_update rfl, fun other time hmem => ?_, h.ordered⟩
    rcases mem_cons.1 hmem with heq | hmem
    · obtain ⟨rfl, rfl⟩ := Prod.mk.inj heq
      exact h.flight i other (by rw [hpc]; rfl)
    · exact h.runs other time hmem

/-! ## All runs -/

/-- The invariant. -/
structure Inv (s : State ι κ) : Prop where
  numbers : Numbers s
  places : ∃ cancelled, Places s cancelled
  timely : Timely s

omit [DecidableEq ι] in
theorem Initial.inv (h : Initial s) : Inv s where
  numbers := by
    refine ⟨?_, ?_, ?_, ?_, ?_⟩ <;> simp [h.added, h.idle, Pc.new?]
  places := by
    have hnil (p : Place ι) : s.lists [] p = [] := by
      cases p <;> simp [State.lists, h.tasks, h.idle, h.runs, Pc.task?]
    refine ⟨[], h.cancels, ⟨?_, ?_⟩, ?_⟩ <;> simp [hnil, h.added]
  timely := by
    refine ⟨?_, ?_, ?_, ?_⟩ <;> simp [h.tasks, h.idle, h.runs, Pc.task?, Ordered]

theorem Inv.step (h : Inv s) (hstep : Step s t) : Inv t := by
  obtain ⟨cancelled, hplaces⟩ := h.places
  exact ⟨h.numbers.step hstep, hplaces.step h.numbers hstep, h.timely.step hstep⟩

omit [DecidableEq ι] in
theorem Inv.consumedOnce (h : Inv s) : ConsumedOnce s := by
  obtain ⟨cancelled, hp⟩ := h.places
  have hadded {task : Task} {p : Place ι} (hmem : task ∈ s.lists cancelled p) : task ∈ s.added :=
    (hp.mem_iff task).2 ⟨p, hmem⟩
  -- A number that was cancelled is the number of a task that was.
  have hcancelled {task : Task} (hmem : task ∈ s.added) (hno : task.taskno ∈ s.cancels) :
      task ∈ s.lists cancelled .cancelled := by
    rw [hp.cancels] at hno
    obtain ⟨other, hother, heq⟩ := mem_map.1 hno
    rwa [h.numbers.eq hmem (hadded (p := .cancelled) hother) heq.symm]
  refine ⟨fun task hmem => ?_, h.timely.runs, fun task hmem hcancel hrun => ?_,
    h.timely.ordered.imp fun hab => (timertaskTimestampCmp_nonpos _ _).1 hab⟩
  · have hnodup : s.cancels.Nodup := by
      rw [hp.cancels]
      exact (hp.exclusive.nodup .cancelled).map_on fun a ha b hb heq =>
        h.numbers.eq (hadded (p := .cancelled) ha) (hadded (p := .cancelled) hb) heq
    have hcancel := nodup_iff_count_le_one.1 hnodup task.taskno
    have hrun := nodup_iff_count_le_one.1 (hp.exclusive.nodup .ran) task
    simp only [State.lists] at hrun
    by_contra hboth
    have hno : task.taskno ∈ s.cancels := count_pos_iff.1 (by omega)
    have hran : task ∈ s.lists cancelled .ran := count_pos_iff.1 (by rw [State.lists]; omega)
    exact nomatch hp.exclusive.unique (hcancelled hmem hno) hran
  · obtain ⟨p, hat⟩ := (hp.mem_iff task).1 hmem
    cases p with
    | array => exact .inl hat
    | flight i =>
      obtain ⟨c, hc⟩ := Pc.task?_eq_some.1 (Option.mem_toList.1 hat)
      exact .inr ⟨i, c, hc⟩
    | cancelled =>
      refine absurd ?_ hcancel
      rw [hp.cancels]
      exact mem_map_of_mem hat
    | ran => exact absurd hat hrun

/-- In every state of every run the tasks are consumed at most once, and the array is in order. -/
theorem consumedOnce_run [DecidableEq κ] {actions : List (Action ι κ)} (hs : Initial s)
    (h : Run step (fun _ _ => True) s actions t) : ConsumedOnce t := (h.invariant (fun hinv _ hstep => Inv.step hinv (step_inv hstep)) hs.inv).consumedOnce

end

/-- Two users on two CPUs before the first task. -/
def freshTimers : State (Fin 2) (Fin 2) where
  tasks := []
  tasknoCounter := 0
  cpu _ := ⟨false, 0, 0⟩
  pc _ := .idle
  clock := 0
  added := []
  cancels := []
  runs := []

theorem initial_freshTimers : Initial freshTimers := ⟨rfl, fun _ => rfl, rfl, rfl, rfl⟩

section

local instance neZeroTwo : NeZero 2 := ⟨two_ne_zero⟩

/-- Two tasks are added. One of them runs, the other one is cancelled in the meantime, and a
    cancellation of the first one finds nothing. -/
def twoTasks : List (Action (Fin 2) (Fin 2)) :=
  [.add 0 5 0 0, .add 1 3 0 1, .insert 0 0 0, .insert 1 1 1, .eval 0, .eval 1, .tick 4,
    .interrupt 0 0, .pop 0, .cancel 1 1 0, .eval 1, .cancel 1 1 1, .run 0]

end

theorem consumedOnce_run_twoTasks :
    ∃ t, Run step (fun _ _ => True) freshTimers twoTasks t ∧
      (t.runs, t.cancels) = ([(⟨1, 3, 0, 1⟩, 4)], [0]) ∧ ConsumedOnce t := by
  have hexec : (Run.exec step (fun _ _ => True) freshTimers twoTasks).map
      (fun t => (t.runs, t.cancels)) = some ([(⟨1, 3, 0, 1⟩, 4)], [0]) := rfl
  obtain ⟨t, hrun, hend⟩ := Run.of_exec_map hexec
  exact ⟨t, hrun, hend, consumedOnce_run initial_freshTimers hrun⟩

end BadgerOS.Time
