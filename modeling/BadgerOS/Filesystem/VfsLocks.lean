import BadgerOS.Filesystem.VfsIo
import BadgerOS.Lib.Locks

/-!
# The mutexes of the file system

The functions of the file system with the mutexes that they take: `vfs_mount_mtx`,
`vfs_handle_mtx`, the mutex of a file handle and the one of RAMFS. Without the mutexes they
are the functions of `Vfs` and `VfsIo`.

* `fsOpen_keeps`, `fsClose_keeps`, `fsSeek_balanced`: on every path all mutexes are given back.
* `fsRead_balanced_iff`, `fsWrite_balanced_iff`: so do reads and writes, but for a negative
  length, where a share is given back that has not been taken.

A mutex that cannot be acquired before the timeout leads to a panic, so the calls below acquire
it. The locks of the log and of the memory allocator are not followed.
-/

namespace BadgerOS.Filesystem

open List

open Locks Locks.Locked

/-- The mutexes. -/
inductive VfsMutex
  | mount
  | handle
  | file (fileno : Int32)
  | ramfs
  deriving DecidableEq

namespace WithLocks

/-! ## Model -/

/-- `vfs_ramfs_create_dir` (vfs_ramfs.c 269–307): `create_file` has the mutex, and the entries
    `.` and `..` are written without it. -/
def vfsRamfsCreateDir (fs : Ramfs) (dir : VfsFileShared) (name : List UInt8)
    (mems : ℕ → Realloc) : Locked VfsMutex (Cause × Ramfs) := do
  let _ ← within .exclusive .ramfs (createFile fs dir name .dir (mems 0))
  lift (Filesystem.vfsRamfsCreateDir fs dir name mems)

/-- `vfs_file_open`, the flags that are about creating the file (vfs_internal.c 307–327). -/
def createTarget (v : Vfs) (dir : ℕ) (name : List UInt8) (oflags : UInt32) :
    Locked VfsMutex (Cause × Vfs) :=
  if hasFlag oflags (oflagsExclusive ||| oflagsCreate) then do
    let present ← within .shared .ramfs (vfsRamfsExists v.fs (v.heap dir) name)
    if hasFlag oflags oflagsExclusive && present then return (.exists, v)
    else if !hasFlag oflags oflagsCreate && !present then return (.notfound, v)
    else if hasFlag oflags oflagsDirectory then
      let r ← vfsRamfsCreateDir v.fs (v.heap dir) name v.mem
      return (.ok, { v with fs := r.2, mem := fun k => v.mem (k + 4) })
    else
      let r ← within .exclusive .ramfs (vfsRamfsCreateFile v.fs (v.heap dir) name (v.mem 0))
      return (.ok, { v with fs := r.2, mem := fun k => v.mem (k + 1) })
  else return (.ok, v)

/-- `vfs_file_open` (vfs_internal.c 300–331). -/
def vfsFileOpen (v : Vfs) (dir file : ℕ) (name : List UInt8) (oflags : UInt32) :
    Locked VfsMutex (Cause × Vfs) := do
  let vfs ← lift (v.heap dir).vfs
  let (ec, v) ← createTarget v dir name oflags
  if ec ≠ .ok then return (ec, v)
  else
    let (ec, fs, shared) ← within .exclusive .ramfs
      (vfsRamfsFileOpen v.fs vfs (v.heap dir) (v.heap file) name)
    return (ec, { v.setShared file shared with fs := fs })

/-- `vfs_root_open` (vfs_internal.c 253–256). -/
def vfsRootOpen (v : Vfs) (p : ℕ) : Locked VfsMutex Vfs :=
  within .shared .ramfs (some (Filesystem.vfsRootOpen v p))

/-- `vfs_file_close` (vfs_internal.c 334–337). -/
def vfsFileClose (v : Vfs) (p : ℕ) : Locked VfsMutex Vfs :=
  within .exclusive .ramfs (Filesystem.vfsFileClose v p)

/-- `vfs_file_destroy_handle` (vfs_internal.c 231–248). -/
def vfsFileDestroyHandle (v : Vfs) (handle : ℕ) : Locked VfsMutex Vfs := do
  let ptr ← lift v.handleList[handle]?
  let v := dropRefcount v ptr.shared
  if (v.heap ptr.shared).refcount = 0 then
    let v ← vfsFileClose v ptr.shared
    let v ← lift (vfsFileSharedSplice v (vfsFileByPtr v ptr.shared))
    lift (vfsFileHandleSplice v handle)
  else lift (vfsFileHandleSplice v handle)

/-- The end of `root_reopen` and `dir_reopen` (filesystem.c 46–61, 102–117). -/
def switchShared (v : Vfs) (dir p : ℕ) : Locked VfsMutex (Cause × Vfs) := do
  let handle ← lift v.handleList[dir]?
  let old := handle.shared
  let v := v.setHandle dir { handle with shared := p }
  let v := pushRefcount v p
  let v := dropRefcount v old
  if (v.heap old).refcount = 0 then
    let v ← vfsFileClose v old
    let v ← lift (vfsFileDestroyShared v (v.heap old).index)
    release .exclusive .handle
    return (.ok, v)
  else
    release .exclusive .handle
    return (.ok, v)

/-- `root_reopen` (filesystem.c 13–62). -/
def rootReopen (v : Vfs) (dir : ℕ) : Locked VfsMutex (Cause × Vfs) := do
  acquire .exclusive .handle
  match vfsSharedByInode v (some rootVfs) inodeRoot with
  | some shared =>
    let p ← lift v.sharedList[shared]?
    switchShared v dir p
  | none =>
    match vfsFileCreateShared v with
    | (none, v) =>
      release .exclusive .handle
      return (.nomem, v)
    | (some shared, v) =>
      let p ← lift v.sharedList[shared]?
      let v ← vfsRootOpen v p
      let v := v.setShared p { v.heap p with refcount := 0 }
      switchShared v dir p

/-- `dir_reopen` (filesystem.c 66–118). -/
def dirReopen (v : Vfs) (dir : ℕ) (ent : DirentT) : Locked VfsMutex (Cause × Vfs) := do
  acquire .exclusive .handle
  let handle ← lift v.handleList[dir]?
  match vfsSharedByInode v (v.heap handle.shared).vfs ent.inode with
  | some shared =>
    let p ← lift v.sharedList[shared]?
    switchShared v dir p
  | none =>
    match vfsFileCreateShared v with
    | (none, v) =>
      release .exclusive .handle
      return (.nomem, v)
    | (some shared, v) =>
      let p ← lift v.sharedList[shared]?
      let (ec, v) ← vfsFileOpen v handle.shared p ent.name 0
      if ec ≠ .ok then
        let v ← lift (vfsFileDestroyShared v shared)
        release .exclusive .handle
        return (ec, v)
      else
        let v := v.setShared p { v.heap p with refcount := 0 }
        switchShared v dir p

/-- The loop of `walk` (filesystem.c 175–222). -/
def walkLoop (dir : ℕ) (path : List UInt8) :
    ℕ → Vfs → Cause → ℕ → DirentT → Locked VfsMutex (Cause × Option ℕ × DirentT × Vfs)
  | 0, _, _, _, _ => lift none
  | rounds + 1, v, ec, start, ent =>
    if start < path.length then do
      let handle ← lift v.handleList[dir]?
      if path[start]? = some slashChar then
        if !handle.isDir then return (.isFile, none, { ent with inode := 0 }, v)
        else walkLoop dir path rounds v ec (start + 1) ent
      else
        let stop := nameEnd path start
        let name := (path.take stop).drop start
        let _ ← lift (v.heap handle.shared).vfs
        match ← lift (vfsRamfsDirFindEnt v.fs (v.heap handle.shared) name) with
        | none =>
          if isIntermediate path stop then return (.notfound, none, ent, v)
          else return (.ok, some start, { ent with inode := 0 }, v)
        | some ent =>
          if isIntermediate path stop then
            let (ec, v) ← dirReopen v dir ent
            if ec ≠ .ok then return (ec, none, ent, v)
            else walkLoop dir path rounds v ec stop ent
          else return (.ok, some start, ent, v)
    else return (ec, some start, ent, v)

/-- `walk` (filesystem.c 137–231). -/
def walk (v : Vfs) (ec : Cause) (dir : ℕ) (path : List UInt8) :
    Locked VfsMutex (Cause × WalkEnd × DirentT × List UInt8 × Vfs) := do
  let path := dedupSlashes path
  let (ec, v) ← if path.head? = some slashChar then rootReopen v dir else pure (ec, v)
  if path.head? = some slashChar ∧ ec ≠ .ok then return (ec, .failed, zeroDirent, path, v)
  else if path = [slashChar] then return (ec, .root, zeroDirent, path, v)
  else
    match ← walkLoop dir path (path.length + 1) v ec 0 zeroDirent with
    | (ec, some start, ent, v) => return (ec, .name start, ent, stripSlashes path, v)
    | (ec, none, ent, v) => return (ec, .failed, ent, stripSlashes path, v)

/-- `root_open` (filesystem.c 234–264). -/
def rootOpen (v : Vfs) (ec : Cause) : Locked VfsMutex (Cause × ℕ × Vfs) := do
  acquire .exclusive .handle
  let existing := vfsSharedByInode v (some rootVfs) inodeRoot
  match vfsFileCreateHandle v existing with
  | (none, _) => lift none
  | (some handle, v) =>
    let ptr ← lift v.handleList[handle]?
    let (ec, v) ← if existing.isNone then do pure (.ok, ← vfsRootOpen v ptr.shared) else pure (ec, v)
    let v := v.setHandle handle
      { ptr with offset := 0, write := false, read := true, isDir := true, dirCache := [] }
    release .exclusive .handle
    return (ec, handle, v)

/-- The label `error` of `fs_open` (filesystem.c 708–716). -/
def openError (v : Vfs) (parent : ℕ) (ec : Cause) : Locked VfsMutex (Int32 × Cause × Vfs) := do
  acquire .exclusive .handle
  let handle ← lift v.handleList[parent]?
  let index ← lift (vfsFileByHandle v handle.fileno)
  let v ← vfsFileDestroyHandle v index
  release .exclusive .handle
  return (fileNone, ec, v)

/-- `fs_open` from the walk on (filesystem.c 650–706). -/
def openTarget (v : Vfs) (parent : ℕ) (ent : DirentT) (filename : List UInt8) (oflags : UInt32) :
    Locked VfsMutex (Int32 × Cause × Vfs) := do
  acquire .exclusive .handle
  let found := ent.inode ≠ 0
  let handle ← lift v.handleList[parent]?
  let dir := handle.shared
  if found && ent.isDir && !hasFlag oflags oflagsDirectory then
    release .exclusive .handle
    openError v parent .isDir
  else if found && !ent.isDir && hasFlag oflags oflagsDirectory then
    release .exclusive .handle
    openError v parent .isFile
  else
    let isDir := if found then ent.isDir else hasFlag oflags oflagsDirectory
    let existing := if found then vfsSharedByInode v (v.heap dir).vfs ent.inode else none
    match vfsFileCreateHandle v existing with
    | (none, v) =>
      release .exclusive .handle
      openError v parent .nomem
    | (some handle, v) =>
      let ptr ← lift v.handleList[handle]?
      let v := v.setHandle handle
        { ptr with
          read := hasFlag oflags oflagsReadonly
          write := hasFlag oflags oflagsWriteonly
          isDir := isDir }
      if existing.isNone then
        let (ec, v) ← vfsFileOpen v dir ptr.shared filename oflags
        if ec ≠ .ok then
          let v ← vfsFileDestroyHandle v handle
          release .exclusive .handle
          openError v parent ec
        else
          release .exclusive .handle
          return (ptr.fileno, ec, v.setShared ptr.shared { v.heap ptr.shared with refcount := 1 })
      else
        release .exclusive .handle
        return (ptr.fileno, .ok, v)

/-- `fs_open` (filesystem.c 602–717). -/
def fsOpen (v : Vfs) (ec : Cause) (path : List UInt8) (oflags : UInt32) :
    Locked VfsMutex (Int32 × Cause × Vfs) :=
  if rejectsOflags oflags then return (fileNone, .param, v)
  else if path.length > pathMax then return (fileNone, .toolong, v)
  else do
    let (ec, parent, v) ← rootOpen v ec
    if ec ≠ .ok then return (fileNone, ec, v)
    else
      let (ec, slash, ent, path, v) ← walk v ec parent path
      if ec ≠ .ok then return (fileNone, ec, v)
      else openTarget v parent ent (walkFilename path slash) oflags

/-- `fs_close` (filesystem.c 721–733). -/
def fsClose (v : Vfs) (file : Int32) : Locked VfsMutex (Cause × Vfs) := do
  acquire .exclusive .handle
  match vfsFileByHandle v file with
  | none =>
    release .exclusive .handle
    return (.param, v)
  | some index =>
    let v ← vfsFileDestroyHandle v index
    release .exclusive .handle
    return (.ok, v)

/-- `fs_read` from a directory (filesystem.c 763–774). -/
def readDirHandle (v : Vfs) (ec : Cause) (index : ℕ) (ptr : VfsFileHandle) (readlen : Int64) :
    Locked VfsMutex (Int64 × Cause × Option (List UInt8) × Vfs) :=
  if ptr.offset = 0 then within .shared .ramfs (Filesystem.readDirHandle v ec index ptr readlen)
  else lift (Filesystem.readDirHandle v ec index ptr readlen)

/-- `vfs_ramfs_file_read` (vfs_ramfs.c 514–535). -/
def vfsRamfsFileRead (fs : Ramfs) (file : VfsFileShared) (offset readlen : Int64) :
    Locked VfsMutex (Cause × Option (List UInt8)) :=
  if offset < 0 then lift (Filesystem.vfsRamfsFileRead fs file offset readlen)
  else within .shared .ramfs (Filesystem.vfsRamfsFileRead fs file offset readlen)

/-- `fs_read` (filesystem.c 737–788). A negative length is rejected before the mutex is
    acquired, with a release of it. -/
def fsRead (v : Vfs) (ec : Cause) (file : Int32) (readlen : Int64) :
    Locked VfsMutex (Int64 × Cause × Option (List UInt8) × Vfs) :=
  if readlen < 0 then do
    release .shared .handle
    return (0, .param, none, v)
  else do
    acquire .shared .handle
    match vfsFileByHandle v file with
    | none =>
      release .shared .handle
      return (0, .param, none, v)
    | some index =>
      let ptr ← lift v.handleList[index]?
      if !ptr.read then
        release .shared .handle
        return (0, .perm, none, v)
      else
        acquire .exclusive (.file ptr.fileno)
        if ptr.isDir then
          let r ← readDirHandle v ec index ptr readlen
          release .exclusive (.file ptr.fileno)
          release .shared .handle
          return r
        else
          let shared := v.heap ptr.shared
          let readlen := clampLen readlen ptr.offset shared.size
          let _ ← lift shared.vfs
          let (ec, data) ← vfsRamfsFileRead v.fs shared ptr.offset readlen
          release .exclusive (.file ptr.fileno)
          release .shared .handle
          return (readlen, ec, data, v.setHandle index { ptr with offset := ptr.offset + readlen })

/-- The file grows before a write that ends behind its end (filesystem.c 826–828), with
    `vfs_ramfs_file_resize` (vfs_ramfs.c 562–581). -/
def growFile (v : Vfs) (ec : Cause) (p : ℕ) (size : Int64) : Locked VfsMutex (Cause × Vfs) :=
  if size > (v.heap p).size ∧ ¬ size < 0 then
    within .exclusive .ramfs (Filesystem.growFile v ec p size)
  else lift (Filesystem.growFile v ec p size)

/-- `vfs_ramfs_file_write` (vfs_ramfs.c 538–559). -/
def vfsRamfsFileWrite (fs : Ramfs) (file : VfsFileShared) (offset : Int64) (writebuf : ℕ → UInt8)
    (writelen : Int64) : Locked VfsMutex (Cause × Ramfs) :=
  if offset < 0 then lift (Filesystem.vfsRamfsFileWrite fs file offset writebuf writelen)
  else within .exclusive .ramfs (Filesystem.vfsRamfsFileWrite fs file offset writebuf writelen)

/-- `fs_write` (filesystem.c 792–834). -/
def fsWrite (v : Vfs) (ec : Cause) (file : Int32) (writebuf : ℕ → UInt8) (writelen : Int64) :
    Locked VfsMutex (Int64 × Cause × Vfs) :=
  if writelen < 0 then do
    release .shared .handle
    return (0, .param, v)
  else do
    acquire .shared .handle
    match vfsFileByHandle v file with
    | none =>
      release .shared .handle
      return (0, .param, v)
    | some index =>
      let ptr ← lift v.handleList[index]?
      if !ptr.write then
        release .shared .handle
        return (0, .perm, v)
      else
        acquire .exclusive (.file ptr.fileno)
        if writelen + ptr.offset < 0 then
          release .exclusive (.file ptr.fileno)
          release .shared .handle
          return (0, .nospace, v)
        else
          let _ ← lift (v.heap ptr.shared).vfs
          let (_, v) ← growFile v ec ptr.shared (ptr.offset + writelen)
          let (ec, fs) ← vfsRamfsFileWrite v.fs (v.heap ptr.shared) ptr.offset writebuf writelen
          release .exclusive (.file ptr.fileno)
          release .shared .handle
          return (writelen, ec, v.setFs fs)

/-- `fs_seek` (filesystem.c 858–893). -/
def fsSeek (v : Vfs) (file : Int32) (off : Int64) (seekmode : SeekMode) :
    Locked VfsMutex (Int64 × Cause × Vfs) := do
  acquire .shared .handle
  match vfsFileByHandle v file with
  | none =>
    release .shared .handle
    return (0, .param, v)
  | some index =>
    let ptr ← lift v.handleList[index]?
    acquire .exclusive (.file ptr.fileno)
    let size := (v.heap ptr.shared).size
    let (ec, offset) := seekOffset ptr.offset size off seekmode
    let offset := clampOffset ptr size offset
    release .exclusive (.file ptr.fileno)
    release .shared .handle
    return (offset, ec, v.setHandle index { ptr with offset := offset })

/-! ## Every path gives the mutexes back -/

section Keeps

variable (v : Vfs)

theorem vfsRamfsCreateDir_keeps (fs : Ramfs) (dir : VfsFileShared) (name : List UInt8)
    (mems : ℕ → Realloc) : Keeps [.ramfs] (vfsRamfsCreateDir fs dir name mems) :=
  (keeps_within (mem_singleton_self _) _).bind fun _ => keeps_lift _ _

theorem createTarget_keeps (dir : ℕ) (name : List UInt8) (oflags : UInt32) :
    Keeps [.ramfs] (createTarget v dir name oflags) := by
  unfold createTarget
  refine keeps_ite ?_ (keeps_pure _ _)
  refine (keeps_within (mem_singleton_self _) _).bind fun present => ?_
  refine keeps_ite (keeps_pure _ _) (keeps_ite (keeps_pure _ _) (keeps_ite ?_ ?_))
  · exact (vfsRamfsCreateDir_keeps _ _ _ _).bind fun _ => keeps_pure _ _
  · exact (keeps_within (mem_singleton_self _) _).bind fun _ => keeps_pure _ _

theorem vfsFileOpen_keeps (dir file : ℕ) (name : List UInt8) (oflags : UInt32) :
    Keeps [.ramfs] (vfsFileOpen v dir file name oflags) := by
  unfold vfsFileOpen
  refine (keeps_lift _ _).bind fun vfs => (createTarget_keeps v dir name oflags).bind ?_
  rintro ⟨ec, v1⟩
  refine keeps_ite (keeps_pure _ _) ?_
  exact (keeps_within (mem_singleton_self _) _).bind fun _ => keeps_pure _ _

theorem vfsFileDestroyHandle_keeps (handle : ℕ) : Keeps [.ramfs] (vfsFileDestroyHandle v handle) := by
  unfold vfsFileDestroyHandle
  refine (keeps_lift _ _).bind fun ptr => keeps_ite ?_ (keeps_lift _ _)
  refine (keeps_within (mem_singleton_self _) _).bind fun v1 => ?_
  exact (keeps_lift _ _).bind fun v2 => keeps_lift _ _

theorem leads_handle_end {α : Type} {held : List (Mode × VfsMutex)} (mode : Mode) (a : α) :
    Leads ((mode, .handle) :: held) (do release mode .handle; return a) held :=
  (leads_release _ _).bind fun _ => leads_pure _

variable {held : List (Mode × VfsMutex)} (hheld : ∀ m ∈ [VfsMutex.ramfs], (.exclusive, m) ∉ held)

include hheld

theorem switchShared_leads (dir p : ℕ) : Leads ((.exclusive, .handle) :: held) (switchShared v dir p) held := by
  unfold switchShared
  refine (leads_lift _).bind fun handle => leads_ite ?_ (leads_handle_end _ _)
  refine ((keeps_within (mem_singleton_self _) _).leads_cons (by decide) hheld).bind
    fun v1 => (leads_lift _).bind fun v2 => ?_
  exact leads_handle_end _ _

variable (h : (.exclusive, .handle) ∉ held)

include h

theorem rootReopen_leads (dir : ℕ) : Leads held (rootReopen v dir) held := by
  unfold rootReopen
  refine (leads_acquire h).bind fun _ => ?_
  split
  · exact (leads_lift _).bind fun p => switchShared_leads v hheld dir p
  · split
    · exact leads_handle_end _ _
    · refine (leads_lift _).bind fun p => ?_
      refine ((keeps_within (mem_singleton_self _) _).leads_cons (by decide) hheld).bind
        fun v2 => ?_
      exact switchShared_leads _ hheld dir p

theorem dirReopen_leads (dir : ℕ) (ent : DirentT) : Leads held (dirReopen v dir ent) held := by
  unfold dirReopen
  refine (leads_acquire h).bind fun _ => (leads_lift _).bind fun handle => ?_
  split
  · exact (leads_lift _).bind fun p => switchShared_leads v hheld dir p
  · split
    · exact leads_handle_end _ _
    · rename_i shared v1 _
      refine (leads_lift _).bind fun p => ?_
      refine ((vfsFileOpen_keeps v1 _ _ _ _).leads_cons (by decide) hheld).bind ?_
      rintro ⟨ec, v2⟩
      refine leads_ite ?_ (switchShared_leads _ hheld dir p)
      exact (leads_lift _).bind fun v3 => leads_handle_end _ _

/-- The loop: every round that opens a directory gives the mutex back. -/
theorem walkLoop_leads (dir : ℕ) (path : List UInt8) (rounds : ℕ) (ec : Cause) (start : ℕ)
    (ent : DirentT) : Leads held (walkLoop dir path rounds v ec start ent) held := by
  induction rounds generalizing v ec start ent with
  | zero => exact leads_lift _
  | succ rounds ih =>
    rw [walkLoop]
    refine leads_ite ?_ (leads_pure _)
    refine (leads_lift _).bind fun handle => leads_ite (leads_ite (leads_pure _) (ih ..)) ?_
    refine (leads_lift _).bind fun vfs => (leads_lift _).bind fun found => ?_
    cases found with
    | none => exact leads_ite (leads_pure _) (leads_pure _)
    | some ent' =>
      refine leads_ite ?_ (leads_pure _)
      refine (dirReopen_leads v hheld h dir ent').bind ?_
      rintro ⟨ec1, v1⟩
      exact leads_ite (leads_pure _) (ih ..)

theorem walk_leads (ec : Cause) (dir : ℕ) (path : List UInt8) : Leads held (walk v ec dir path) held := by
  have hloop (ec : Cause) (v : Vfs) : Leads held (do
      match ← walkLoop dir (dedupSlashes path) ((dedupSlashes path).length + 1) v ec 0 zeroDirent with
      | (ec, some start, ent, v) => return (ec, .name start, ent, stripSlashes (dedupSlashes path), v)
      | (ec, none, ent, v) => return (ec, .failed, ent, stripSlashes (dedupSlashes path), v) :
        Locked VfsMutex (Cause × WalkEnd × DirentT × List UInt8 × Vfs)) held := by
    refine (walkLoop_leads v hheld h ..).bind ?_
    rintro ⟨ec, _ | start, ent, v⟩
    · exact leads_pure _
    · exact leads_pure _
  unfold walk
  refine leads_ite ?_ ?_
  · refine (rootReopen_leads v hheld h dir).bind ?_
    rintro ⟨ec1, v1⟩
    exact leads_ite (leads_pure _) (leads_ite (leads_pure _) (hloop ..))
  · exact leads_ite (leads_pure _) (leads_ite (leads_pure _) (hloop ..))

theorem rootOpen_leads (ec : Cause) : Leads held (rootOpen v ec) held := by
  unfold rootOpen
  refine (leads_acquire h).bind fun _ => ?_
  dsimp only
  split
  · exact ⟨_, rfl, by intros; contradiction⟩
  · refine (leads_lift _).bind fun ptr => leads_ite ?_ (leads_handle_end _ _)
    refine ((keeps_within (mem_singleton_self _) _).leads_cons (by decide) hheld).bind fun v2 => ?_
    exact leads_handle_end _ _

theorem openError_leads (parent : ℕ) (ec : Cause) : Leads held (openError v parent ec) held := by
  unfold openError
  refine (leads_acquire h).bind fun _ => (leads_lift _).bind fun handle => ?_
  refine (leads_lift _).bind fun index => ?_
  refine ((vfsFileDestroyHandle_keeps v index).leads_cons (by decide) hheld).bind fun v1 => ?_
  exact leads_handle_end _ _

theorem openTarget_leads (parent : ℕ) (ent : DirentT) (filename : List UInt8) (oflags : UInt32) :
    Leads held (openTarget v parent ent filename oflags) held := by
  -- The jump to `error`.
  have herror (v : Vfs) (ec : Cause) : Leads ((.exclusive, .handle) :: held)
      (do release .exclusive .handle; openError v parent ec) held :=
    (leads_release _ _).bind fun _ => openError_leads v hheld h parent ec
  unfold openTarget
  refine (leads_acquire h).bind fun _ => (leads_lift _).bind fun handle => ?_
  refine leads_ite (herror ..) (leads_ite (herror ..) ?_)
  dsimp only
  split
  · exact herror ..
  · rename_i new v1 _
    refine (leads_lift _).bind fun ptr => leads_ite ?_ (leads_handle_end _ _)
    refine ((vfsFileOpen_keeps _ _ _ _ _).leads_cons (by decide) hheld).bind ?_
    rintro ⟨ec, v2⟩
    refine leads_ite ?_ (leads_handle_end _ _)
    refine ((vfsFileDestroyHandle_keeps v2 new).leads_cons (by decide) hheld).bind fun v3 => ?_
    exact herror ..

end Keeps

theorem keeps_handle_ramfs {α : Type} {x : Locked VfsMutex α}
    (h : ∀ held, (∀ m ∈ [VfsMutex.ramfs], (.exclusive, m) ∉ held) → (.exclusive, .handle) ∉ held →
      Leads held x held) : Keeps [.handle, .ramfs] x := by
  intro held hheld
  exact h held (fun m hm => hheld m (mem_cons_of_mem _ hm)) (hheld _ mem_cons_self)

theorem fsOpen_keeps (v : Vfs) (ec : Cause) (path : List UInt8) (oflags : UInt32) :
    Keeps [.handle, .ramfs] (fsOpen v ec path oflags) := by
  refine keeps_handle_ramfs fun held hheld h => ?_
  unfold fsOpen
  refine leads_ite (leads_pure _) (leads_ite (leads_pure _) ?_)
  refine (rootOpen_leads v hheld h ec).bind ?_
  rintro ⟨ec1, parent, v1⟩
  refine leads_ite (leads_pure _) ?_
  refine (walk_leads v1 hheld h ec1 parent path).bind ?_
  rintro ⟨ec2, slash, ent, path2, v2⟩
  exact leads_ite (leads_pure _) (openTarget_leads v2 hheld h ..)

theorem fsClose_keeps (v : Vfs) (file : Int32) : Keeps [.handle, .ramfs] (fsClose v file) := by
  refine keeps_handle_ramfs fun held hheld h => ?_
  unfold fsClose
  refine (leads_acquire h).bind fun _ => ?_
  split
  · exact leads_handle_end _ _
  · rename_i index _
    refine ((vfsFileDestroyHandle_keeps v index).leads_cons (by decide) hheld).bind fun v1 => ?_
    exact leads_handle_end _ _

/-! ### Reads, writes and seeks -/

section Handles

variable {v : Vfs} {file : Int32} {α : Type}

/-- The locks of a call that uses a file handle. -/
def handleLocks (fileno : Int32) : List (Mode × VfsMutex) :=
  [(.exclusive, .file fileno), (.shared, .handle)]

theorem leads_handleLocks {fileno : Int32} {x : Locked VfsMutex α} (h : Leads (handleLocks fileno) x []) :
    Leads [(.shared, .handle)] (do acquire .exclusive (.file fileno); x) [] :=
  (leads_acquire (by simp)).bind fun _ => h

theorem leads_handleLocks_end (fileno : Int32) (a : α) : Leads (handleLocks fileno)
      (do release .exclusive (.file fileno); release .shared .handle; return a) [] :=
  (leads_release _ _).bind fun _ => leads_handle_end _ _

theorem leads_handleLocks_of_keeps {fileno : Int32} {x : Locked VfsMutex α} (h : Keeps [.ramfs] x) :
    Leads (handleLocks fileno) x (handleLocks fileno) :=
  h _ (by simp [handleLocks])

theorem fsSeek_balanced (v : Vfs) (file : Int32) (off : Int64) (seekmode : SeekMode) :
    Balanced (fsSeek v file off seekmode) := by
  unfold fsSeek
  refine (leads_acquire not_mem_nil).bind fun _ => ?_
  split
  · exact leads_handle_end _ _
  · refine (leads_lift _).bind fun ptr => leads_handleLocks ?_
    exact leads_handleLocks_end _ _

theorem not_balanced_release {mode : Mode} {m : VfsMutex} (a : α) : ¬ Balanced (do release mode m; return a) :=
  not_leads_bind (follow_release_of_notMem not_mem_nil)

theorem fsRead_balanced_iff (v : Vfs) (ec : Cause) (file : Int32) (readlen : Int64) :
    Balanced (fsRead v ec file readlen) ↔ ¬ readlen < 0 := by
  by_cases hneg : readlen < 0
  · rw [fsRead, if_pos hneg]
    exact iff_of_false (not_balanced_release _) (not_not_intro hneg)
  · rw [fsRead, if_neg hneg]
    refine iff_of_true ?_ hneg
    refine (leads_acquire not_mem_nil).bind fun _ => ?_
    split
    · exact leads_handle_end _ _
    · refine (leads_lift _).bind fun ptr => leads_ite (leads_handle_end _ _) ?_
      refine leads_handleLocks (leads_ite ?_ ?_)
      · have hdir (index : ℕ) : Keeps [.ramfs] (readDirHandle v ec index ptr readlen) :=
          keeps_ite (keeps_within (mem_singleton_self _) _) (keeps_lift _ _)
        exact (leads_handleLocks_of_keeps (hdir _)).bind fun r => leads_handleLocks_end _ _
      · have hread (len : Int64) :
            Keeps [.ramfs] (vfsRamfsFileRead v.fs (v.heap ptr.shared) ptr.offset len) :=
          keeps_ite (keeps_lift _ _) (keeps_within (mem_singleton_self _) _)
        refine (leads_lift _).bind fun vfs => (leads_handleLocks_of_keeps (hread _)).bind ?_
        rintro ⟨ec1, data⟩
        exact leads_handleLocks_end _ _

theorem fsWrite_balanced_iff (v : Vfs) (ec : Cause) (file : Int32) (writebuf : ℕ → UInt8)
    (writelen : Int64) : Balanced (fsWrite v ec file writebuf writelen) ↔ ¬ writelen < 0 := by
  by_cases hneg : writelen < 0
  · rw [fsWrite, if_pos hneg]
    exact iff_of_false (not_balanced_release _) (not_not_intro hneg)
  · rw [fsWrite, if_neg hneg]
    refine iff_of_true ?_ hneg
    refine (leads_acquire not_mem_nil).bind fun _ => ?_
    split
    · exact leads_handle_end _ _
    · refine (leads_lift _).bind fun ptr => leads_ite (leads_handle_end _ _) ?_
      refine leads_handleLocks (leads_ite (leads_handleLocks_end _ _) ?_)
      have hgrow (size : Int64) : Keeps [.ramfs] (growFile v ec ptr.shared size) :=
        keeps_ite (keeps_within (mem_singleton_self _) _) (keeps_lift _ _)
      refine (leads_lift _).bind fun vfs => (leads_handleLocks_of_keeps (hgrow _)).bind ?_
      rintro ⟨ec1, v1⟩
      have hwrite (shared : VfsFileShared) :
          Keeps [.ramfs] (vfsRamfsFileWrite v1.fs shared ptr.offset writebuf writelen) :=
        keeps_ite (keeps_lift _ _) (keeps_within (mem_singleton_self _) _)
      refine (leads_handleLocks_of_keeps (hwrite _)).bind ?_
      rintro ⟨ec2, fs⟩
      exact leads_handleLocks_end _ _

end Handles

end WithLocks

end BadgerOS.Filesystem
