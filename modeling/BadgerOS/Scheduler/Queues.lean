import BadgerOS.Lib.Ownership
import BadgerOS.Lib.Run

/-!
# The run queues

The lists that hold the threads of the scheduler (`kernel/src/scheduler/scheduler.c`) and of
the mutexes (`kernel/src/badgelib/mutex.c`), and the code that moves threads between them: any
number of CPUs that run `sched_request_switch_from_isr`, and any number of actors that suspend
and resume threads, wake them up when a mutex is released and run the timers of mutexes.

The lists and the local variables that hold a thread between two of them are the `Place`s of a
thread. A step goes up to the next access of another CPU's or actor's data:

* A compare-exchange loop that decides anew with the flags it has just read is the step in
  which its exchange succeeds. The loop that parks a thread is not of this kind
  (`CpuPc.park`).
* `thread_handoff` is one step: it holds a share of `run_mtx`, which the CPU acquires exclusively
  before it exits. The share that it keeps if the CPU does not run is counted in `leaked`.
* The loop that empties `incoming` is one step: it holds `incoming_mtx`.
* `mutex_notify` is one step up to the thread that it finds blocked: it holds the spinlock of
  the waiting list.

How long a thread has run is not modelled: the usage that a measurement finds is given.
-/

namespace BadgerOS.Runqueue

open Function

/-! ## Data -/

/-- The flags of a thread (`kernel/include/scheduler/types.h` lines 30–50) that are read here. -/
structure ThreadFlags where
  running : Bool := false
  exiting : Bool := false
  exited : Bool := false
  privileged : Bool := false
  kernel : Bool := false
  startnow : Bool := false
  suspending : Bool := false
  ksuspend : Bool := false
  blocked : Bool := false
  deriving DecidableEq, Repr

/-- The scheduler parks a thread with these flags (line 311). -/
def ThreadFlags.parkable (f : ThreadFlags) : Bool :=
  (f.ksuspend || !f.privileged) && f.suspending

/-- The flags of a parked thread (line 320). -/
def ThreadFlags.parked (f : ThreadFlags) : ThreadFlags :=
  { f with running := false, ksuspend := false, suspending := false }

/-- Where a thread can be. -/
inductive Place (n : ℕ) (ι μ : Type)
  /-- `queue` of a CPU. -/
  | queue (c : Fin n)
  /-- `incoming` of a CPU. -/
  | incoming (c : Fin n)
  /-- A local variable of the code that a CPU runs with interrupts disabled. -/
  | cpu (c : Fin n)
  /-- A local variable of an actor. -/
  | actor (a : ι)
  /-- `waiting_list` of a mutex. -/
  | waiting (m : μ)
  /-- `dead_threads`. -/
  | dead
  deriving DecidableEq

/-- What a CPU does. -/
inductive CpuPc (μ : Type)
  | off
  /-- It runs a thread, or the idle thread. -/
  | run
  /-- At the start of `sched_request_switch_from_isr` (line 250). -/
  | flags
  /-- Before the check for the load measurement (line 268). -/
  | measure
  /-- In `sw_handle_loadbalance`, waiting for the other CPUs (line 206). -/
  | barrier
  /-- In the loop that hands off threads (line 225). -/
  | balance (i : ℕ) (average : ℤ)
  /-- The same, with a thread that CPUs `cpu` and up may take (line 228). -/
  | balanceTry (i : ℕ) (average : ℤ) (cpu : ℕ)
  /-- Before the check for incoming threads (line 279). -/
  | drain
  /-- In the loop that looks for a runnable thread (line 292). -/
  | select
  /-- The same, with the first thread and its flags (line 298). -/
  | decide (flags : ThreadFlags)
  /-- The same, with a thread marked as exited (line 307). -/
  | kill
  /-- In the loop that parks a thread (line 314). -/
  | park (flags : ThreadFlags)
  /-- In the loop that hands over the threads of a CPU that exits (line 153). -/
  | exitLoop (cpu : ℕ)
  /-- The same, with a thread that `cpu` did not take (line 155). -/
  | exitTry (cpu : ℕ)
  /-- In `mutex_wait`, with the thread out of the queue. -/
  | wait (m : μ) (timed : Bool)
  /-- The same, with the thread marked as blocked. -/
  | waitBlocked (m : μ)
  deriving DecidableEq

/-- `sched_cpulocal_t`, with what the CPU does. -/
structure CpuInfo (τ μ : Type) where
  starting : Bool := false
  running : Bool := false
  exiting : Bool := false
  loadAverage : ℤ := 0
  loadEstimate : ℤ := 0
  /-- The shares of `run_mtx` that `thread_handoff` has kept. -/
  leaked : ℕ := 0
  current : Option τ := none
  pc : CpuPc μ := .off

/-- What an actor does. -/
inductive Task (τ : Type)
  | idle
  /-- Before a forced `thread_handoff`. -/
  | handoff
  /-- At the start of `mutex_resume_timer`. -/
  | timer (thread : τ)
  /-- In `mutex_resume_timer`, with the thread marked as not blocked. -/
  | timerWake (thread : τ)
  deriving DecidableEq

/-- The state of the scheduler. -/
structure State (n : ℕ) (τ ι μ : Type) where
  cpus : Fin n → CpuInfo τ μ := fun _ => {}
  lists : Place n ι μ → List τ := fun _ => []
  flags : τ → ThreadFlags
  /-- `timeusage.cpu_usage`. -/
  usage : τ → ℤ := fun _ => 0
  /-- The process of the thread has `PROC_EXITING` set. -/
  procExiting : τ → Bool := fun _ => false
  /-- `blocking_obj.mutex.mutex`. -/
  mutex : τ → Option μ := fun _ => none
  /-- The timer of a `mutex_wait` has been set. -/
  armed : τ → Bool := fun _ => false
  tasks : ι → Task τ := fun _ => .idle
  /-- `running_sched_count`. -/
  runningCount : ℤ := 0
  /-- `loadbalance_ready_count`. -/
  readyCount : ℤ := 0

namespace State

variable {n : ℕ} {τ ι μ : Type} [DecidableEq τ] [DecidableEq ι] [DecidableEq μ]

/-- Write the data of a CPU. -/
@[simps]
def setCpu (s : State n τ ι μ) (c : Fin n) (info : CpuInfo τ μ) : State n τ ι μ :=
  { s with cpus := update s.cpus c info }

/-- A CPU goes on. -/
def setPc (s : State n τ ι μ) (c : Fin n) (pc : CpuPc μ) : State n τ ι μ :=
  s.setCpu c { s.cpus c with pc := pc }

/-- Write a list. -/
@[simps]
def setList (s : State n τ ι μ) (k : Place n ι μ) (l : List τ) : State n τ ι μ :=
  { s with lists := update s.lists k l }

/-- Write the flags of a thread. -/
@[simps]
def setFlags (s : State n τ ι μ) (thread : τ) (flags : ThreadFlags) : State n τ ι μ :=
  { s with flags := update s.flags thread flags }

/-- An actor goes on. -/
@[simps]
def setTask (s : State n τ ι μ) (a : ι) (task : Task τ) : State n τ ι μ :=
  { s with tasks := update s.tasks a task }

end State

section

variable {n : ℕ} {τ ι μ : Type} [DecidableEq τ] [DecidableEq ι] [DecidableEq μ]

/-! ## Handing a thread off -/

/-- The CPU runs and is not about to exit. -/
def CpuInfo.isRunning (info : CpuInfo τ μ) : Bool := info.running && !info.exiting

/-- `thread_handoff` (lines 82–127). -/
def threadHandoff (s : State n τ ι μ) (thread : τ) (cpu : Fin n) (force : Bool) (maxLoad : ℤ) :
    Bool × State n τ ι μ :=
  let info := s.cpus cpu
  if !force && !info.isRunning then
    (false, s.setCpu cpu { info with leaked := info.leaked + 1 })
  else if force || info.loadEstimate + s.usage thread ≤ maxLoad then
    (info.isRunning,
      (s.setCpu cpu { info with loadEstimate := info.loadEstimate + s.usage thread }).setList
        (.incoming cpu) (s.lists (.incoming cpu) ++ [thread]))
  else (info.isRunning, s)

/-- `__INT_MAX__`. -/
def intMax : ℤ := 2 ^ 31 - 1

/-! ## The steps of a CPU -/

/-- `sw_handle_sched_flags` (lines 130–164) and the check before it. A CPU that exits waits for
    `run_mtx`. -/
def handleSchedFlags (s : State n τ ι μ) (c : Fin n) : Option (State n τ ι μ) :=
  let info := s.cpus c
  if !info.running && !info.starting then
    some (s.setCpu c { info with starting := true, pc := .measure })
  else if info.starting then
    some { s.setCpu c { info with starting := false, running := !info.running, pc := .measure } with
      runningCount := s.runningCount + 1 }
  else if info.exiting then
    if info.leaked = 0 then
      some { ((s.setCpu c
          { info with
            loadAverage := 0, loadEstimate := 0, running := false, exiting := false
            pc := .exitLoop 0 }).setList (.queue c)
              (s.lists (.queue c) ++ s.lists (.incoming c))).setList (.incoming c) [] with
        runningCount := s.runningCount - 1 }
    else none
  else some (s.setPc c .measure)

/-- `sw_measure_load` (lines 167–197), if it is time for it, and the start of
    `sw_handle_loadbalance` (line 204). -/
def measureLoad (s : State n τ ι μ) (c : Fin n) (measured : Option (τ → ℤ)) : State n τ ι μ :=
  match measured with
  | none => s.setPc c .drain
  | some usage =>
    let total := ((s.lists (.queue c)).map usage).sum
    { s.setCpu c { s.cpus c with loadAverage := total, loadEstimate := total, pc := .barrier } with
      usage := fun thread => if thread ∈ s.lists (.queue c) then usage thread else s.usage thread
      readyCount := s.readyCount + 1 }

/-- The decision of `sw_handle_loadbalance` (lines 206–221). -/
def passBarrier (s : State n τ ι μ) (c : Fin n) : Option (State n τ ι μ) :=
  if s.readyCount < s.runningCount then none
  else
    let average := (∑ i, (s.cpus i).loadAverage).tdiv s.runningCount
    if (s.cpus c).loadAverage ≤ average then
      some { s.setPc c .drain with readyCount := s.readyCount - 1 }
    else some (s.setPc c (.balance 0 average))

/-- The loop over `incoming` (lines 280–288): the new queue. -/
def drainIncoming (flags : τ → ThreadFlags) : List τ → List τ → List τ
  | queue, [] => queue
  | queue, thread :: rest =>
    drainIncoming flags
      (if (flags thread).startnow then thread :: queue else queue ++ [thread]) rest

/-- A CPU tries to hand its thread to CPU `cpu`. -/
def tryHandoff (s : State n τ ι μ) (c : Fin n) (thread : τ) (cpu : Fin n) (maxLoad : ℤ)
    (taken kept : CpuPc μ) : State n τ ι μ :=
  let (ok, s) := threadHandoff s thread cpu false maxLoad
  if ok then (s.setList (.cpu c) []).setPc c taken else s.setPc c kept

/-- A step of a CPU with interrupts disabled. `measured` is what a load measurement finds, if it
    is time for one. -/
def cpuStep (s : State n τ ι μ) (c : Fin n) (measured : Option (τ → ℤ)) : Option (State n τ ι μ) :=
  match (s.cpus c).pc, s.lists (.cpu c) with
  | .flags, _ => handleSchedFlags s c
  | .measure, _ => some (measureLoad s c measured)
  | .barrier, _ => passBarrier s c
  | .balance i average, _ =>
    match s.lists (.queue c) with
    | thread :: rest =>
      if i < (s.lists (.queue c)).length then
        some (((s.setList (.queue c) rest).setList (.cpu c) [thread]).setPc c
          (.balanceTry i average 0))
      else some { s.setPc c .drain with readyCount := s.readyCount - 1 }
    | [] => some { s.setPc c .drain with readyCount := s.readyCount - 1 }
  | .balanceTry i average cpu, [thread] =>
    if h : cpu < n then
      if cpu = c then some (s.setPc c (.balanceTry i average (cpu + 1)))
      else some (tryHandoff s c thread ⟨cpu, h⟩ average (.balance (i + 1) average)
        (.balanceTry i average (cpu + 1)))
    else
      some (((s.setList (.cpu c) []).setList (.queue c) (s.lists (.queue c) ++ [thread])).setPc c
        (.balance (i + 1) average))
  | .drain, _ =>
    some (((s.setList (.queue c)
      (drainIncoming s.flags (s.lists (.queue c)) (s.lists (.incoming c)))).setList
        (.incoming c) []).setPc c .select)
  | .select, _ =>
    match s.lists (.queue c) with
    | thread :: rest =>
      some (((s.setList (.queue c) rest).setList (.cpu c) [thread]).setPc c
        (.decide (s.flags thread)))
    | [] => some (s.setCpu c { s.cpus c with current := none, pc := .run })
  | .decide flags, [thread] =>
    if flags.exiting || s.procExiting thread && !flags.privileged then
      some ((s.setFlags thread { s.flags thread with exited := true }).setPc c .kill)
    else if flags.parkable then some (s.setPc c (.park flags))
    else
      some (((s.setList (.cpu c) []).setList (.queue c) (s.lists (.queue c) ++ [thread])).setCpu c
        { s.cpus c with current := some thread, pc := .run })
  | .kill, [thread] =>
    some ((((s.setFlags thread { s.flags thread with running := false, exiting := false }).setList
      (.cpu c) []).setList .dead (s.lists .dead ++ [thread])).setPc c .select)
  | .park flags, [thread] =>
    -- a suspension that was cancelled: the thread is not put back in the queue
    if !flags.parkable then
      some ((s.setList (.cpu c) []).setCpu c { s.cpus c with current := some thread, pc := .run })
    else if s.flags thread = flags then
      some (((s.setFlags thread flags.parked).setList (.cpu c) []).setPc c .select)
    else some (s.setPc c (.park (s.flags thread)))
  | .exitLoop cpu, _ =>
    match s.lists (.queue c) with
    | thread :: rest =>
      some (((s.setList (.queue c) rest).setList (.cpu c) [thread]).setPc c (.exitTry cpu))
    | [] => some (s.setPc c .off)
  | .exitTry cpu, [thread] =>
    let next : Fin n := ⟨(cpu + 1) % n, Nat.mod_lt _ c.pos⟩
    if next = c then some (s.setPc c (.exitTry next))
    else some (tryHandoff s c thread next intMax (.exitLoop next) (.exitTry next))
  | .wait m timed, [thread] =>
    some { (s.setFlags thread { s.flags thread with blocked := true }).setPc c (.waitBlocked m) with
      mutex := update s.mutex thread (some m)
      armed := update s.armed thread (timed || s.armed thread) }
  | .waitBlocked m, [thread] =>
    some (((s.setList (.cpu c) []).setList (.waiting m) (s.lists (.waiting m) ++ [thread])).setPc c
      .flags)
  | _, _ => none

/-! ## The other steps -/

/-- The flags that `thread_suspend` sets (lines 696–707). -/
def ThreadFlags.suspend (f : ThreadFlags) (suspendKernel : Bool) : ThreadFlags :=
  if f.kernel && !suspendKernel || !f.running then f
  else { f with suspending := true, ksuspend := f.ksuspend || suspendKernel }

/-- `thread_try_mark_running` (lines 726–740) returns true. -/
def ThreadFlags.resumable (f : ThreadFlags) : Bool := !f.exited && !f.exiting && !f.running

/-- The flags that `thread_try_mark_running` sets (lines 734–737). -/
def ThreadFlags.resume (f : ThreadFlags) (now : Bool) : ThreadFlags :=
  { f with running := true, suspending := false, startnow := f.startnow || now }

/-- The steps. -/
inductive Op (n : ℕ) (τ ι μ : Type)
  /-- `sched_exec` on a CPU that has been powered on. -/
  | start (c : Fin n)
  /-- `sched_exit`. -/
  | exit (c : Fin n)
  /-- An interrupt, `thread_yield` or another call that requests a switch. -/
  | enter (c : Fin n)
  /-- A step of a CPU with interrupts disabled. -/
  | cpu (c : Fin n) (measured : Option (τ → ℤ))
  /-- `mutex_wait` by the current thread, up to `thread_dequeue_self`. -/
  | wait (c : Fin n) (m : μ) (timed : Bool)
  /-- `thread_exit` by the current thread, up to the switch. -/
  | threadExit (c : Fin n)
  /-- The current thread enters or leaves the kernel. -/
  | privilege (c : Fin n) (privileged : Bool)
  /-- The processes of some threads are about to exit. -/
  | procExit (threads : τ → Bool)
  /-- `thread_suspend`. -/
  | suspend (thread : τ) (suspendKernel : Bool)
  /-- `thread_resume_impl`, up to the handoff. -/
  | resume (a : ι) (thread : τ) (now : Bool)
  /-- `mutex_notify`, up to the handoff. -/
  | notify (a : ι) (m : μ)
  /-- The timer of a `mutex_wait` goes off. -/
  | timer (a : ι) (thread : τ)
  /-- A step of an actor, which runs on CPU `cpu`. -/
  | task (a : ι) (cpu : Fin n)

/-- A step of an actor: `mutex_resume_timer` (lines 40–59), and the forced handoff that ends it,
    `mutex_notify` and `thread_resume_impl`. -/
def taskStep (s : State n τ ι μ) (a : ι) (cpu : Fin n) : Option (State n τ ι μ) :=
  match s.tasks a, s.lists (.actor a) with
  | .timer thread, _ =>
    if (s.flags thread).blocked then
      some ((s.setFlags thread { s.flags thread with blocked := false }).setTask a
        (.timerWake thread))
    else some (s.setTask a .idle)
  | .timerWake thread, _ =>
    match s.mutex thread with
    | some m =>
      some (((s.setList (.waiting m) ((s.lists (.waiting m)).erase thread)).setList (.actor a)
        [thread]).setTask a .handoff)
    | none => none
  | .handoff, [thread] =>
    some (((threadHandoff s thread cpu true 0).2.setList (.actor a) []).setTask a .idle)
  | _, _ => none

/-- What a step does. -/
def step (s : State n τ ι μ) : Op n τ ι μ → Option (State n τ ι μ)
  | .start c =>
    if (s.cpus c).pc = .off then
      some (s.setCpu c
        { s.cpus c with
          starting := false, running := false, exiting := false, loadAverage := 0
          loadEstimate := 0, pc := .flags })
    else none
  | .exit c =>
    if (s.cpus c).leaked = 0 then some (s.setCpu c { s.cpus c with exiting := true }) else none
  | .enter c => if (s.cpus c).pc = .run then some (s.setPc c .flags) else none
  | .cpu c measured => cpuStep s c measured
  | .wait c m timed =>
    match (s.cpus c).pc, (s.cpus c).current with
    | .run, some thread =>
      some (((s.setList (.queue c) ((s.lists (.queue c)).erase thread)).setList (.cpu c)
        [thread]).setPc c (.wait m timed))
    | _, _ => none
  | .threadExit c =>
    match (s.cpus c).pc, (s.cpus c).current with
    | .run, some thread => some (s.setFlags thread { s.flags thread with exiting := true })
    | _, _ => none
  | .privilege c privileged =>
    match (s.cpus c).pc, (s.cpus c).current with
    | .run, some thread => some (s.setFlags thread { s.flags thread with privileged := privileged })
    | _, _ => none
  | .procExit threads =>
    some { s with procExiting := fun thread => s.procExiting thread || threads thread }
  | .suspend thread suspendKernel =>
    some (s.setFlags thread ((s.flags thread).suspend suspendKernel))
  | .resume a thread now =>
    if s.tasks a ≠ .idle then none
    else if (s.flags thread).resumable then
      some (((s.setFlags thread ((s.flags thread).resume now)).setList (.actor a)
        [thread]).setTask a .handoff)
    else some s
  | .notify a m =>
    if s.tasks a ≠ .idle then none
    else
      match (s.lists (.waiting m)).find? fun thread => (s.flags thread).blocked with
      | none => some s
      | some thread =>
        some { ((((s.setFlags thread { s.flags thread with blocked := false }).setList (.waiting m)
            ((s.lists (.waiting m)).erase thread)).setList (.actor a) [thread]).setTask a
              .handoff) with
          armed := update s.armed thread false }
  | .timer a thread =>
    if s.tasks a = .idle ∧ s.armed thread = true then
      some { s.setTask a (.timer thread) with armed := update s.armed thread false }
    else none
  | .task a cpu => taskStep s a cpu

end

end BadgerOS.Runqueue
