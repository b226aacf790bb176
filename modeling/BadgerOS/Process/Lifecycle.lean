import BadgerOS.Lib.Run

/-!
# The life cycle of processes: model

Creation, exit, `SIGKILL`, reaping and deletion of processes (`kernel/src/process/process.c`
with the types of `kernel/include/process/types.h`; the claiming of a state change is the
inner `if` of `syscall_proc_waitpid` in `kernel/src/process/syscall_impl.c`).

* The table `procs` is a partial map from process IDs. The pointer `parent` is the ID of the
  process that it points to; IDs are not used twice, so that a pointer to a freed process is
  an ID that the table no longer has.
* The `children` list threaded through the `node` fields is a list of IDs. `dlist_concat`
  appends a list and empties it. `dlist_remove` is only defined for a node on the list.
* Operations that hold `proc_mtx` exclusively, or that housekeeping runs, are single steps.
  `proc_delete` is a step of its own after the call that decided on it: `doomed` lists the
  processes that some thread is about to pass to `proc_delete`.
* A step has no successor where the code panics, uses a freed process or a null pointer, or
  overflows `pid_counter`.
* Arguments, files, threads, memory maps and pending signals are left out, as is the case
  that memory for a new process cannot be allocated, which changes nothing.
-/

namespace BadgerOS.Lifecycle

/-- The bits of `process_t::flags` (`process/process.h`, lines 10–21) without `PROC_SIGPEND`. -/
structure ProcFlags where
  running : Bool := false
  exiting : Bool := false
  exited : Bool := false
  prestart : Bool := false
  stateChg : Bool := false
  deriving DecidableEq, Repr

/-- `process_t`. `ignoresChld` is `sighandlers[SIGCHLD] == SIG_IGN`. -/
structure Process where
  parent : Option ℤ := none
  children : List ℤ := []
  flags : ProcFlags := {}
  stateCode : BitVec 32 := 0
  ignoresChld : Bool := false
  deriving DecidableEq, Repr

/-- The process table with the pending calls of `clean_up_from_housekeeping` and of
    `proc_delete`. -/
structure State where
  procs : ℤ → Option Process := fun _ => none
  pidCounter : ℤ := 1
  tasks : List ℤ := []
  doomed : List ℤ := []
  shutdown : Bool := false

/-- Write to a process through a pointer. -/
def State.modify (s : State) (pid : ℤ) (f : Process → Process) : State :=
  { s with procs := Function.update s.procs pid ((s.procs pid).map f) }

/-- Write to the flags of a process. -/
def State.setFlags (s : State) (pid : ℤ) (f : ProcFlags → ProcFlags) : State :=
  s.modify pid fun proc => { proc with flags := f proc.flags }

/-! ## Status codes (`sys/wait.h`) -/

/-- `W_EXITED(ret)`. -/
def wExited (ret : BitVec 32) : BitVec 32 := ret <<< 8

/-- `W_SIGNALLED(sig)`. -/
def wSignalled (sig : BitVec 32) : BitVec 32 := (sig <<< 8) ||| 0x40

/-- `SIGKILL`. -/
def sigkill : BitVec 32 := 9

/-! ## `process.c` -/

/-- `procs_len`. -/
def procsLen (s : State) : ℕ :=
  (List.range s.pidCounter.toNat).countP fun pid : ℕ => (s.procs pid).isSome

/-- `allow_proc1_death` (lines 44–47). -/
def allowProc1Death (s : State) : Bool := s.shutdown && procsLen s == 1

/-- The entry that `proc_create_raw` makes (lines 163–190). -/
def newProcess (parent : Option ℤ) : Process :=
  { parent := parent, flags := { prestart := true } }

/-- `proc_create_raw` (lines 142–226). The very first process has no parent; for any other
    the parent must exist. -/
def procCreateRaw (s : State) (parentpid : ℤ) : Option State :=
  let parent := (s.procs parentpid).map fun _ => parentpid
  if s.pidCounter ≠ 1 ∧ parent = none then some s
  else if s.pidCounter = 2 ^ 31 - 1 then none
  else
    let handle := s.pidCounter
    let s := { s with procs := Function.update s.procs handle (some (newProcess parent))
                      pidCounter := s.pidCounter + 1 }
    match parent with
    | none => some s
    | some parent =>
      some (s.modify parent fun proc => { proc with children := proc.children ++ [handle] })

/-- `proc_start_raw` (lines 297–341). Loading the executable may fail. On success the flags
    are stored as a whole. -/
def procStartRaw (s : State) (pid : ℤ) (loaded : Bool) : State :=
  match s.procs pid with
  | none => s
  | some proc =>
    if !proc.flags.prestart then s
    else if loaded then s.setFlags pid fun _ => { running := true }
    else s.setFlags pid fun flags => { flags with prestart := false }

/-- `proc_exit_self` (lines 119–133) and `proc_raise_sigkill_raw` (lines 437–445): mark the
    process as exiting and queue its cleanup. -/
def exitWith (s : State) (pid : ℤ) (code : BitVec 32) : State :=
  let s := s.modify pid fun proc =>
    { proc with flags := { proc.flags with exiting := true }, stateCode := code }
  { s with tasks := pid :: s.tasks }

/-- `proc_delete_runtime_raw` (lines 497–553): the children go to the list of the init
    process, `procs[0]`. -/
def procDeleteRuntimeRaw (s : State) (pid : ℤ) : Option State :=
  match s.procs pid with
  | none => none
  | some proc =>
    if pid = 1 ∧ !allowProc1Death s then none
    else if proc.flags.exited then some s
    else
      let exited := fun flags : ProcFlags =>
        { flags with exited := true, exiting := false, running := false }
      if pid = 1 then some (s.setFlags pid exited)
      else if (s.procs 1).isNone then none
      else
        let s := s.modify 1 fun init => { init with children := init.children ++ proc.children }
        let s := s.modify pid fun proc => { proc with children := [] }
        some (s.setFlags pid exited)

/-- `clean_up_from_housekeeping` (lines 87–116), up to its call of `proc_delete`. -/
def cleanUpFromHousekeeping (s : State) (pid : ℤ) : Option State :=
  match procDeleteRuntimeRaw s pid with
  | none => none
  | some s =>
    match (s.procs pid).bind Process.parent with
    | none => some { s with doomed := pid :: s.doomed }
    | some parent =>
      match s.procs parent with
      | none => none
      | some parent =>
        if parent.ignoresChld then some { s with doomed := pid :: s.doomed }
        else some (s.setFlags pid fun flags => { flags with stateChg := true })

/-- `proc_delete_impl` (lines 565–598). -/
def procDeleteImpl (s : State) (pid : ℤ) (onlyPrestart : Bool) : Option State :=
  match s.procs pid with
  | none => some s
  | some proc =>
    if onlyPrestart && !proc.flags.prestart then some s
    else
      match procDeleteRuntimeRaw s pid with
      | none => none
      | some s =>
        match proc.parent with
        | none => some { s with procs := Function.update s.procs pid none }
        | some parent =>
          match s.procs parent with
          | none => none
          | some parentProc =>
            if pid ∈ parentProc.children then
              let s := s.modify parent fun proc =>
                { proc with children := proc.children.erase pid }
              some { s with procs := Function.update s.procs pid none }
            else none

/-- `proc_is_parent` (lines 636–643). -/
def procIsParent (s : State) (parent child : ℤ) : Bool :=
  match s.procs child with
  | none => false
  | some proc => proc.parent == (s.procs parent).map fun _ => parent

/-- What `syscall_proc_waitpid` does at a child whose state change it claims
    (`syscall_impl.c`, lines 181–193). -/
def claimChange (s : State) (pid : ℤ) (noWait : Bool) : Option State :=
  match s.procs pid with
  | none => none
  | some proc =>
    if proc.flags.stateChg then
      let s := s.setFlags pid fun flags => { flags with stateChg := false }
      if proc.flags.exited && !noWait then some { s with doomed := pid :: s.doomed }
      else some s
    else none

/-! ## Steps -/

/-- The steps of a run. -/
inductive Op
  | create (parent : ℤ)
  | start (pid : ℤ) (loaded : Bool)
  | exit (pid : ℤ) (code : BitVec 32)
  | kill (pid : ℤ)
  | cleanUp (pid : ℤ)
  | claim (waiter child : ℤ) (noWait : Bool)
  | delete (pid : ℤ)
  | destroy (caller child : ℤ)
  | ignoreChld (pid : ℤ) (ignores : Bool)
  | shutDown
  deriving DecidableEq, Repr

/-- One step; `cleanUp` runs a queued cleanup, `delete` a pending `proc_delete`, `claim` is the
    claim of a state change by a thread of `waiter`, and `destroy` is `syscall_proc_pdestroy`. -/
def step (s : State) : Op → Option State
  | .create parent => procCreateRaw s parent
  | .start pid loaded => some (procStartRaw s pid loaded)
  | .exit pid code => some (exitWith s pid code)
  | .kill pid => some (exitWith s pid (wSignalled sigkill))
  | .cleanUp pid =>
    if pid ∈ s.tasks then cleanUpFromHousekeeping { s with tasks := s.tasks.erase pid } pid
    else none
  | .claim waiter child noWait =>
    match s.procs waiter with
    | none => none
    | some proc => if child ∈ proc.children then claimChange s child noWait else none
  | .delete pid =>
    if pid ∈ s.doomed then procDeleteImpl { s with doomed := s.doomed.erase pid } pid false
    else none
  | .destroy caller child =>
    if procIsParent s caller child then procDeleteImpl s child true else some s
  | .ignoreChld pid ignores => some (s.modify pid fun proc => { proc with ignoresChld := ignores })
  | .shutDown => some { s with shutdown := true }

/-- The process has threads that can make system calls. -/
def Alive (s : State) (pid : ℤ) : Prop :=
  ∃ proc, s.procs pid = some proc ∧ proc.flags.exited = false

/-- What the callers guarantee: processes are created and end by system calls of their own
    threads, the first process apart, and signals go to existing processes. -/
def ValidStep (s : State) : Op → Prop
  | .create parent => s.pidCounter = 1 ∨ Alive s parent
  | .exit pid _ => Alive s pid
  | .kill pid => (s.procs pid).isSome = true
  | .claim waiter _ _ => Alive s waiter
  | .destroy caller _ => Alive s caller
  | _ => True

end BadgerOS.Lifecycle
