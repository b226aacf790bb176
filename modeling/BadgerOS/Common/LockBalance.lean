import BadgerOS.Filesystem.VfsMount
import BadgerOS.Process.Unmap

/-!
# Lock balance

The calls that take the global mutexes of the kernel: those of the file system
(`Filesystem.VfsLocks`, `Filesystem.VfsMount`), `thread_handoff`
(`kernel/src/scheduler/scheduler.c` lines 82–127), `hk_add_repeated` and `hk_cancel`
(`kernel/src/housekeeping.c` lines 105–144), `proc_map` and `proc_unmap`
(`kernel/src/process/proc_memmap.c` lines 337–361). On every path a call should give back
exactly the mutexes and shares that it takes, and not acquire a mutex that it holds
exclusively.

**Deviation.** Some paths do not:

* `fs_mount` without a type and a block device releases `vfs_mount_mtx` twice;
* `fs_read` and `fs_write` with a negative length release a share of `vfs_handle_mtx` that they
  have not acquired;
* `thread_handoff` to a CPU that does not run keeps its share of `run_mtx`;
* `hk_cancel` keeps `hk_mtx` if it finds the task;
* `proc_map` and `proc_unmap` hold `proc_mtx` when `proc_get` acquires it.

`lockBalanced_iff` says that these are all.
-/

namespace BadgerOS

open Locks Locks.Locked

/-! ## The scheduler -/

namespace Scheduler

/-- The mutexes of a CPU. -/
inductive CpuMutex
  | run
  | incoming
  deriving DecidableEq

/-- What `thread_handoff` uses of a `sched_cpulocal_t`. -/
structure CpuInfo (τ : Type) where
  running : Bool
  exiting : Bool
  loadEstimate : ℤ
  incoming : List τ

/-- The loop that claims space on a CPU (lines 99–113): the new estimate. The exchange fails as
    often as others change the estimate, to the values `others`. -/
def claimSpace (usage maxLoad : ℤ) : ℤ → List ℤ → Option ℤ
  | cur, others =>
    if cur + usage > maxLoad then none
    else
      match others with
      | [] => some (cur + usage)
      | next :: others => claimSpace usage maxLoad next others

/-- `thread_handoff` (lines 82–127). -/
def threadHandoff {τ : Type} (info : CpuInfo τ) (thread : τ) (usage : ℤ) (force : Bool)
    (maxLoad : ℤ) (others : List ℤ) : Locked CpuMutex (Bool × CpuInfo τ) := do
  acquire .shared .run
  let isRunning := info.running && !info.exiting
  if !force && !isRunning then return (false, info)
  else
    let claimed := if force then some (info.loadEstimate + usage)
      else claimSpace usage maxLoad info.loadEstimate others
    match claimed with
    | some load =>
      acquire .exclusive .incoming
      let info := { info with loadEstimate := load, incoming := info.incoming ++ [thread] }
      release .exclusive .incoming
      release .shared .run
      return (isRunning, info)
    | none =>
      release .shared .run
      return (isRunning, info)

theorem threadHandoff_balanced_iff {τ : Type} (info : CpuInfo τ) (thread : τ) (usage : ℤ)
    (force : Bool) (maxLoad : ℤ) (others : List ℤ) :
    Balanced (threadHandoff info thread usage force maxLoad others) ↔
      force = true ∨ info.running = true ∧ info.exiting = false := by
  have hcond : (!force && !(info.running && !info.exiting)) = true ↔
      ¬ (force = true ∨ info.running = true ∧ info.exiting = false) := by
    cases force <;> cases info.running <;> cases info.exiting <;> decide
  unfold threadHandoff
  by_cases hstop : (!force && !(info.running && !info.exiting)) = true
  · simp only [if_pos hstop]
    refine iff_of_false ?_ (hcond.mp hstop)
    refine not_leads_of_rest (leads_acquire List.not_mem_nil) rfl ?_
    rintro ⟨last, hlast, hend⟩
    cases hlast
    exact absurd (hend rfl) (by simp)
  · simp only [if_neg hstop]
    refine iff_of_true ?_ (not_not.mp fun h => hstop (hcond.mpr h))
    refine (leads_acquire List.not_mem_nil).bind fun _ => ?_
    split
    · refine (leads_acquire (by decide)).bind fun _ => (leads_release _ _).bind fun _ => ?_
      exact (leads_release _ _).bind fun _ => leads_pure _
    · exact (leads_release _ _).bind fun _ => leads_pure _

end Scheduler

/-! ## Housekeeping -/

namespace Housekeeping

/-- `hk_mtx`. -/
inductive HkMutex
  | hk
  deriving DecidableEq

/-- `taskent_t`. -/
structure TaskEnt where
  nextTime : Int64
  interval : Int64
  taskno : Int32
  callback : ℕ
  arg : ℕ

/-- `queue` and `taskno_ctr`. -/
structure HkState where
  queue : List TaskEnt
  tasknoCtr : Int32

/-- The functions of badgelib for arrays: whether there is room for an entry, and its place in a
    sorted array. -/
structure ArrayEnv where
  room : Bool
  index : List TaskEnt → TaskEnt → ℕ

/-- `hk_add_repeated` (lines 105–132): the task number. -/
def hkAddRepeated (env : ArrayEnv) (time interval : Int64) (task : Option ℕ) (arg : ℕ)
    (s : HkState) : Locked HkMutex (Int32 × HkState) :=
  match task with
  | none => return (-1, s)
  | some callback => do
    acquire .exclusive .hk
    let taskno := s.tasknoCtr
    let ent : TaskEnt := ⟨time, interval, taskno, callback, arg⟩
    let index := if time ≤ 0 then 0 else env.index s.queue ent
    let s := if env.room then ⟨s.queue.take index ++ ent :: s.queue.drop index, s.tasknoCtr + 1⟩
      else s
    release .exclusive .hk
    return (taskno, s)

/-- `hk_cancel` (lines 135–144). It returns from within the loop when it has removed the task. -/
def hkCancel (taskno : Int32) (s : HkState) : Locked HkMutex HkState := do
  acquire .exclusive .hk
  match s.queue.findIdx? fun ent => ent.taskno = taskno with
  | some i => return { s with queue := s.queue.eraseIdx i }
  | none =>
    release .exclusive .hk
    return s

theorem hkAddRepeated_balanced (env : ArrayEnv) (time interval : Int64) (task : Option ℕ)
    (arg : ℕ) (s : HkState) : Balanced (hkAddRepeated env time interval task arg s) := by
  unfold hkAddRepeated
  split
  · exact leads_pure _
  · refine (leads_acquire List.not_mem_nil).bind fun _ => ?_
    exact (leads_release _ _).bind fun _ => leads_pure _

theorem hkCancel_balanced_iff (taskno : Int32) (s : HkState) :
    Balanced (hkCancel taskno s) ↔ ∀ ent ∈ s.queue, ent.taskno ≠ taskno := by
  unfold hkCancel
  cases hfind : s.queue.findIdx? fun ent => ent.taskno = taskno with
  | some i =>
    refine iff_of_false ?_ ?_
    · refine not_leads_of_rest (leads_acquire List.not_mem_nil) rfl ?_
      rintro ⟨last, hlast, hend⟩
      cases hlast
      exact absurd (hend rfl) (by simp)
    · intro hno
      have hsome : (s.queue.findIdx? fun ent => decide (ent.taskno = taskno)).isSome = true := by
        rw [hfind]
        rfl
      rw [List.findIdx?_isSome, List.any_eq_true] at hsome
      obtain ⟨ent, hent, heq⟩ := hsome
      exact hno ent hent (by simpa using heq)
  | none =>
    refine iff_of_true ?_ fun ent hent heq => ?_
    · refine (leads_acquire List.not_mem_nil).bind fun _ => ?_
      exact (leads_release _ _).bind fun _ => leads_pure _
    · have := List.findIdx?_eq_none_iff.mp hfind ent hent
      simp [heq] at this

end Housekeeping

/-! ## Processes -/

namespace Process

open Memprotect

/-- `proc_mtx`. -/
inductive ProcMutex
  | proc
  deriving DecidableEq

/-- The processes by their ID, with the root table and the regions of each. -/
structure Procs where
  sys : Contexts
  get : ℤ → Option (ℕ × List MemmapEnt)

/-- The processes after a change of the memory map of one. -/
def Procs.set (procs : Procs) (pid : ℤ) (m : Memmap) : Procs :=
  ⟨m.sys, Function.update procs.get pid (some (m.root, m.regions))⟩

/-- `proc_get` (`kernel/src/process/process.c` lines 230–235). -/
def procGet (procs : Procs) (pid : ℤ) : Locked ProcMutex (Option Memmap) :=
  within .shared .proc (some ((procs.get pid).map fun (root, regions) => ⟨procs.sys, root, regions⟩))

/-- `proc_map` (lines 337–349). -/
def procMap (env : MapEnv) (pg : Paging) (pid : ℤ) (vaddrReq minSize minAlign : ℕ) (flags : Flags)
    (procs : Procs) : Locked ProcMutex (ℕ × Cause × Procs) := do
  acquire .exclusive .proc
  let proc ← procGet procs pid
  match proc with
  | some m =>
    let (res, ec, m) ← lift (procMapRaw env pg vaddrReq minSize minAlign flags m)
    release .exclusive .proc
    return (res, ec, procs.set pid m)
  | none =>
    release .exclusive .proc
    return (0, .notfound, procs)

/-- `proc_unmap` (lines 352–361). -/
def procUnmap (env : UnmapEnv) (pg : Paging) (pid : ℤ) (base : ℕ) (procs : Procs) :
    Locked ProcMutex (Cause × Procs) := do
  acquire .exclusive .proc
  let proc ← procGet procs pid
  match proc with
  | some m =>
    let (ec, _, m) ← lift (procUnmapRaw env pg base m)
    release .exclusive .proc
    return (ec, procs.set pid m)
  | none =>
    release .exclusive .proc
    return (.notfound, procs)

/-- `proc_get` cannot be called with `proc_mtx` held exclusively. -/
theorem not_balanced_procGet {α : Type} (procs : Procs) (pid : ℤ) (f : Option Memmap → Locked ProcMutex α) :
    ¬ Balanced (do acquire .exclusive .proc; let proc ← procGet procs pid; f proc) := by
  refine not_leads_of_rest (leads_acquire List.not_mem_nil) rfl ?_
  refine not_leads_bind ?_
  rfl

end Process

/-! ## All calls -/

section Calls

open Filesystem Scheduler Housekeeping Process Memprotect

/-- A call, with the state in which it is made. -/
inductive LockCall (τ : Type)
  | fsMount (call : MountCall) (ec : Cause) (s : Mounts)
  | fsOpen (v : Vfs) (ec : Cause) (path : List UInt8) (oflags : UInt32)
  | fsClose (v : Vfs) (file : Int32)
  | fsRead (v : Vfs) (ec : Cause) (file : Int32) (readlen : Int64)
  | fsWrite (v : Vfs) (ec : Cause) (file : Int32) (writebuf : ℕ → UInt8) (writelen : Int64)
  | fsSeek (v : Vfs) (file : Int32) (off : Int64) (seekmode : SeekMode)
  | threadHandoff (info : CpuInfo τ) (thread : τ) (usage : ℤ) (force : Bool) (maxLoad : ℤ)
      (others : List ℤ)
  | hkAddRepeated (env : ArrayEnv) (time interval : Int64) (task : Option ℕ) (arg : ℕ) (s : HkState)
  | hkCancel (taskno : Int32) (s : HkState)
  | procMap (env : MapEnv) (pg : Paging) (pid : ℤ) (vaddrReq minSize minAlign : ℕ) (flags : Flags)
      (procs : Procs)
  | procUnmap (env : UnmapEnv) (pg : Paging) (pid : ℤ) (base : ℕ) (procs : Procs)

variable {τ : Type}

/-- The call gives back exactly what it takes, and acquires no mutex that it holds exclusively. -/
def LockCall.Balanced : LockCall τ → Prop
  | fsMount call ec s => Locks.Balanced (WithLocks.fsMount call ec s)
  | fsOpen v ec path oflags => Locks.Balanced (WithLocks.fsOpen v ec path oflags)
  | fsClose v file => Locks.Balanced (WithLocks.fsClose v file)
  | fsRead v ec file readlen => Locks.Balanced (WithLocks.fsRead v ec file readlen)
  | fsWrite v ec file writebuf writelen =>
    Locks.Balanced (WithLocks.fsWrite v ec file writebuf writelen)
  | fsSeek v file off seekmode => Locks.Balanced (WithLocks.fsSeek v file off seekmode)
  | threadHandoff info thread usage force maxLoad others =>
    Locks.Balanced (Scheduler.threadHandoff info thread usage force maxLoad others)
  | hkAddRepeated env time interval task arg s =>
    Locks.Balanced (Housekeeping.hkAddRepeated env time interval task arg s)
  | hkCancel taskno s => Locks.Balanced (Housekeeping.hkCancel taskno s)
  | procMap env pg pid vaddrReq minSize minAlign flags procs =>
    Locks.Balanced (Process.procMap env pg pid vaddrReq minSize minAlign flags procs)
  | procUnmap env pg pid base procs => Locks.Balanced (Process.procUnmap env pg pid base procs)

/-- Where it matters, the call returns: a mount that follows a `NULL` pointer in the check of the
    mount point does not come to the second release. -/
def LockCall.Returns : LockCall τ → Prop
  | fsMount call ec s => (WithLocks.fsMount call ec s).result.isSome = true
  | _ => True

/-- The calls that are balanced. -/
def LockCall.Safe : LockCall τ → Prop
  | fsMount call _ _ => call.type = .unknown → call.media.isSome = true
  | fsRead _ _ _ readlen => ¬ readlen < 0
  | fsWrite _ _ _ _ writelen => ¬ writelen < 0
  | threadHandoff info _ _ force _ _ =>
    force = true ∨ info.running = true ∧ info.exiting = false
  | hkCancel taskno s => ∀ ent ∈ s.queue, ent.taskno ≠ taskno
  | procMap .. => False
  | procUnmap .. => False
  | _ => True

/-- The safe calls are balanced, and among the calls that return they are the only ones. -/
theorem lockBalanced_iff (c : LockCall τ) :
    (c.Safe → c.Balanced) ∧ (c.Returns → c.Balanced → c.Safe) := by
  cases c with
  | fsMount call ec s =>
    refine ⟨fun h => WithLocks.fsMount_balanced h ec s, fun hret hbal htype => ?_⟩
    by_contra hmedia
    exact WithLocks.not_fsMount_balanced htype (by simpa using hmedia) hret hbal
  | fsOpen v ec path oflags =>
    exact ⟨fun _ => (WithLocks.fsOpen_keeps v ec path oflags).balanced, fun _ _ => trivial⟩
  | fsClose v file => exact ⟨fun _ => (WithLocks.fsClose_keeps v file).balanced, fun _ _ => trivial⟩
  | fsRead v ec file readlen =>
    have hiff := WithLocks.fsRead_balanced_iff v ec file readlen
    exact ⟨hiff.mpr, fun _ => hiff.mp⟩
  | fsWrite v ec file writebuf writelen =>
    have hiff := WithLocks.fsWrite_balanced_iff v ec file writebuf writelen
    exact ⟨hiff.mpr, fun _ => hiff.mp⟩
  | fsSeek v file off seekmode =>
    exact ⟨fun _ => WithLocks.fsSeek_balanced v file off seekmode, fun _ _ => trivial⟩
  | threadHandoff info thread usage force maxLoad others =>
    have hiff := threadHandoff_balanced_iff info thread usage force maxLoad others
    exact ⟨hiff.mpr, fun _ => hiff.mp⟩
  | hkAddRepeated env time interval task arg s =>
    exact ⟨fun _ => hkAddRepeated_balanced env time interval task arg s, fun _ _ => trivial⟩
  | hkCancel taskno s =>
    have hiff := hkCancel_balanced_iff taskno s
    exact ⟨hiff.mpr, fun _ => hiff.mp⟩
  | procMap env pg pid vaddrReq minSize minAlign flags procs | procUnmap env pg pid base procs =>
    exact ⟨False.elim, fun _ => not_balanced_procGet procs pid _⟩

/-- No open files, and memory for all allocations. -/
def noFiles : Vfs :=
  ⟨⟨fun _ => .zero, fun _ => false, 0⟩, fun _ => emptyShared 0, 0, [], 0, [], 0, 0,
    fun _ => some fun _ => 0⟩

/-- One call for each way to be out of balance: a mount of nothing at `/`, a read and a write of
    -1 bytes, handing a thread to a CPU that does not run, cancelling a task that is in the
    queue, and any use of `proc_map` and `proc_unmap`. -/
theorem lockCalls_not_balanced :
    ¬ (LockCall.fsMount ⟨.unknown, none, [slashChar], false, fun _ => false⟩ .ok
        ⟨[none], none, noFiles⟩ : LockCall ℕ).Balanced ∧
      ¬ (LockCall.fsRead noFiles .ok 0 (-1) : LockCall ℕ).Balanced ∧
      ¬ (LockCall.fsWrite noFiles .ok 0 (fun _ => 0) (-1) : LockCall ℕ).Balanced ∧
      ¬ (LockCall.threadHandoff ⟨false, false, 0, []⟩ 0 0 false 100 [] : LockCall ℕ).Balanced ∧
      ¬ (LockCall.hkCancel 5 ⟨[⟨0, 0, 5, 0, 0⟩], 6⟩ : LockCall ℕ).Balanced ∧
      ¬ (LockCall.procMap roomyEnv Paging.sv39 1 65536 4096 4096 userRw
        ⟨(emptyMemmap []).sys, fun _ => none⟩ : LockCall ℕ).Balanced ∧
      ¬ (LockCall.procUnmap checkedEnv Paging.sv39 1 65536
        ⟨(emptyMemmap []).sys, fun _ => none⟩ : LockCall ℕ).Balanced := by
  refine ⟨?_, ?_, ?_, ?_, ?_, not_balanced_procGet _ _ _, not_balanced_procGet _ _ _⟩
  · exact WithLocks.not_fsMount_balanced rfl rfl rfl
  · exact fun h => absurd ((WithLocks.fsRead_balanced_iff ..).mp h) (by decide)
  · exact fun h => absurd ((WithLocks.fsWrite_balanced_iff ..).mp h) (by decide)
  · exact fun h => absurd ((threadHandoff_balanced_iff ..).mp h) (by decide)
  · exact fun h => (hkCancel_balanced_iff ..).mp h _ List.mem_cons_self rfl

end Calls

end BadgerOS
