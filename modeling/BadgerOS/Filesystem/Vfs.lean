import BadgerOS.Filesystem.Ramfs
import BadgerOS.Lib.SwapRemove

/-!
# Open files

The tables of open files of `filesystem/vfs_internal.c` and the calls `fs_open` and
`fs_close` of `filesystem/filesystem.c`, on a RAMFS mounted at `/`.

A shared file handle is allocated on the heap and never freed, so a pointer to one is a
number that is used once. A pointer into the table of file handles is the index in it.
The outcomes of the allocations are given in the order in which they are made. As in
`BadgerOS.Filesystem.Ramfs`, `none` stands for a call that does not return: a loop that
never ends, a `NULL` pointer or an index of -1 that is followed.
-/

namespace BadgerOS.Filesystem

/-- `vfs_file_handle_t` (vfs_types.h 47–70). -/
structure VfsFileHandle where
  offset : Int64
  write : Bool
  read : Bool
  isDir : Bool
  /-- `dir_cache`, of `dir_cache_size` bytes. -/
  dirCache : List UInt8
  shared : ℕ
  fileno : Int32
  deriving DecidableEq, Repr

/-- The state of `vfs_internal.c` (15–43). -/
structure Vfs where
  fs : Ramfs
  /-- The shared handles that have been allocated, by address. -/
  heap : ℕ → VfsFileShared
  heapNext : ℕ
  sharedList : List ℕ
  sharedCap : ℕ
  handleList : List VfsFileHandle
  handleCap : ℕ
  handleNo : Int32
  /-- The outcomes of the allocations to come. -/
  mem : ℕ → Realloc

/-- The filesystem mounted at `/`, `vfs_table[vfs_root_index]`. -/
def rootVfs : ℕ := 0

namespace Vfs

/-- The next allocation. -/
def alloc (v : Vfs) : Realloc × Vfs := (v.mem 0, { v with mem := fun k => v.mem (k + 1) })

/-- Write a shared handle. -/
@[simps]
def setShared (v : Vfs) (p : ℕ) (file : VfsFileShared) : Vfs :=
  { v with heap := Function.update v.heap p file }

/-- Write a file handle. -/
@[simps]
def setHandle (v : Vfs) (i : ℕ) (handle : VfsFileHandle) : Vfs :=
  { v with handleList := v.handleList.set i handle }

/-- Write the shared table. -/
@[simps]
def setTable (v : Vfs) (table : List ℕ) : Vfs := { v with sharedList := table }

/-- Write the table of file handles. -/
@[simps]
def setHandles (v : Vfs) (handles : List VfsFileHandle) : Vfs := { v with handleList := handles }

/-- Write the filesystem. -/
@[simps]
def setFs (v : Vfs) (fs : Ramfs) : Vfs := { v with fs := fs }

end Vfs

/-! ## The tables -/

/-- `vfs_file_by_ptr` (vfs_internal.c 83–90). -/
def vfsFileByPtr (v : Vfs) (p : ℕ) : Option ℕ := v.sharedList.findIdx? (· = p)

/-- The shared table gives memory back (vfs_internal.c 100–111). -/
def shrinkShared (v : Vfs) : Vfs :=
  if v.sharedCap > v.sharedList.length * 2 then
    let (mem, v) := v.alloc
    if mem.isSome then { v with sharedCap := max (v.sharedCap / 2) 2 } else v
  else v

/-- `vfs_file_shared_splice` (vfs_internal.c 93–112). -/
def vfsFileSharedSplice (v : Vfs) (i : Option ℕ) : Option Vfs :=
  (swapRemove v.sharedList i).map fun table => shrinkShared (v.setTable table)

/-- The table of file handles gives memory back (vfs_internal.c 122–133). -/
def shrinkHandles (v : Vfs) : Vfs :=
  if v.handleCap > v.handleList.length * 2 then
    let (mem, v) := v.alloc
    if mem.isSome then { v with handleCap := max (v.handleCap / 2) 2 } else v
  else v

/-- `vfs_file_handle_splice` (vfs_internal.c 115–134). -/
def vfsFileHandleSplice (v : Vfs) (i : ℕ) : Option Vfs :=
  (swapRemove v.handleList (some i)).map fun handles => shrinkHandles (v.setHandles handles)

/-- `vfs_shared_by_inode` (vfs_internal.c 137–144). -/
def vfsSharedByInode (v : Vfs) (vfs : Option ℕ) (inode : ℕ) : Option ℕ :=
  v.sharedList.findIdx? fun p => (v.heap p).vfs = vfs && (v.heap p).inode = inode

/-- `vfs_file_by_handle` (vfs_internal.c 147–154). -/
def vfsFileByHandle (v : Vfs) (fileno : Int32) : Option ℕ :=
  v.handleList.findIdx? fun handle => handle.fileno = fileno

/-- The shared handle that `vfs_file_create_shared` writes (vfs_internal.c 174–180). -/
def emptyShared (index : ℕ) : VfsFileShared := ⟨0, index, 0, none, 0, none⟩

/-- Room for one more entry in the shared table (vfs_internal.c 158–168). -/
def growShared (v : Vfs) : Bool × Vfs :=
  if v.sharedList.length ≥ v.sharedCap then
    let (mem, v) := v.alloc
    if mem.isSome then (true, { v with sharedCap := max (v.sharedCap * 2) 2 }) else (false, v)
  else (true, v)

/-- `vfs_file_create_shared` (vfs_internal.c 157–185): the index of the shared handle. -/
def vfsFileCreateShared (v : Vfs) : Option ℕ × Vfs :=
  let (grown, v) := growShared v
  if !grown then (none, v)
  else
    let (mem, v) := v.alloc
    if mem.isNone then (none, v)
    else
      (some v.sharedList.length,
        { v with
          heap := Function.update v.heap v.heapNext (emptyShared v.sharedList.length)
          heapNext := v.heapNext + 1
          sharedList := v.sharedList ++ [v.heapNext] })

/-- Room for one more file handle (vfs_internal.c 199–209). -/
def growHandles (v : Vfs) : Bool × Vfs :=
  if v.handleList.length ≥ v.handleCap then
    let (mem, v) := v.alloc
    if mem.isSome then (true, { v with handleCap := max (v.handleCap * 2) 2 }) else (false, v)
  else (true, v)

/-- The file handle that `vfs_file_create_handle` writes (vfs_internal.c 214–219). -/
def newHandle (v : Vfs) (p : ℕ) : VfsFileHandle := ⟨0, false, false, false, [], p, v.handleNo⟩

/-- `vfs_file_create_handle` (vfs_internal.c 189–222): the index of the handle. The reference
    count of the shared handle is not touched. -/
def vfsFileCreateHandle (v : Vfs) (shared : Option ℕ) : Option ℕ × Vfs :=
  let (shared, v) := if shared.isNone then vfsFileCreateShared v else (shared, v)
  match shared with
  | none => (none, v)
  | some shared =>
    let (grown, v) := growHandles v
    if !grown then (none, v)
    else
      (some v.handleList.length,
        { v with
          handleList := v.handleList ++ [newHandle v (v.sharedList.getD shared 0)]
          handleNo := v.handleNo + 1 })

/-- `vfs_file_destroy_shared` (vfs_internal.c 225–227). -/
def vfsFileDestroyShared (v : Vfs) (shared : ℕ) : Option Vfs := vfsFileSharedSplice v (some shared)

/-- `vfs_file_close` (vfs_internal.c 334–337). -/
def vfsFileClose (v : Vfs) (p : ℕ) : Option Vfs := do
  let _ ← (v.heap p).vfs
  let (fs, file) ← vfsRamfsFileClose v.fs (v.heap p)
  return { v.setShared p file with fs := fs }

/-- One less, in 64 bits. -/
def predRefcount (refcount : ℕ) : ℕ := if refcount = 0 then 2 ^ 64 - 1 else refcount - 1

/-- The reference count of a shared handle goes down by one. -/
def dropRefcount (v : Vfs) (p : ℕ) : Vfs :=
  v.setShared p { v.heap p with refcount := predRefcount (v.heap p).refcount }

/-- The reference count of a shared handle goes up by one. There is no memory for `2 ^ 64`
    handles, so it does not wrap around. -/
def pushRefcount (v : Vfs) (p : ℕ) : Vfs :=
  v.setShared p { v.heap p with refcount := (v.heap p).refcount + 1 }

/-- A shared handle without references is closed and removed (vfs_internal.c 239–244). -/
def closeUnreferenced (v : Vfs) (p : ℕ) : Option Vfs :=
  if (v.heap p).refcount = 0 then do
    let v ← vfsFileClose v p
    vfsFileSharedSplice v (vfsFileByPtr v p)
  else some v

/-- `vfs_file_destroy_handle` (vfs_internal.c 231–248). -/
def vfsFileDestroyHandle (v : Vfs) (handle : ℕ) : Option Vfs := do
  let p := (← v.handleList[handle]?).shared
  let v ← closeUnreferenced (dropRefcount v p) p
  vfsFileHandleSplice v handle

/-! ## Opening on the filesystem -/

/-- `OFLAGS_READONLY`. -/
def oflagsReadonly : UInt32 := 0x01

/-- `OFLAGS_WRITEONLY`. -/
def oflagsWriteonly : UInt32 := 0x02

/-- `OFLAGS_APPEND`. -/
def oflagsAppend : UInt32 := 0x04

/-- `OFLAGS_TRUNCATE`. -/
def oflagsTruncate : UInt32 := 0x08

/-- `OFLAGS_CREATE`. -/
def oflagsCreate : UInt32 := 0x10

/-- `OFLAGS_EXCLUSIVE`. -/
def oflagsExclusive : UInt32 := 0x20

/-- `OFLAGS_CLOEXEC`. -/
def oflagsCloexec : UInt32 := 0x40

/-- `OFLAGS_DIRECTORY`. -/
def oflagsDirectory : UInt32 := 0x80

/-- `OFLAGS_READWRITE`. -/
def oflagsReadwrite : UInt32 := oflagsReadonly ||| oflagsWriteonly

/-- `VALID_OFLAGS_FILE` (filesystem.h 46–47). -/
def validOflagsFile : UInt32 :=
  oflagsReadwrite ||| oflagsAppend ||| oflagsTruncate ||| oflagsCreate ||| oflagsExclusive |||
    oflagsCloexec

/-- `VALID_OFLAGS_DIRECTORY` (filesystem.h 49). -/
def validOflagsDirectory : UInt32 :=
  oflagsDirectory ||| oflagsCreate ||| oflagsExclusive ||| oflagsReadonly ||| oflagsCloexec

/-- One of the flags is given. -/
def hasFlag (oflags flag : UInt32) : Bool := oflags &&& flag != 0

/-- `vfs_file_open`, the flags that are about creating the file (vfs_internal.c 307–327).
    What creating the file reports is overwritten when the file is opened. -/
def createTarget (v : Vfs) (dir : ℕ) (name : List UInt8) (oflags : UInt32) :
    Option (Cause × Vfs) :=
  if hasFlag oflags (oflagsExclusive ||| oflagsCreate) then do
    let present ← vfsRamfsExists v.fs (v.heap dir) name
    if hasFlag oflags oflagsExclusive && present then some (.exists, v)
    else if !hasFlag oflags oflagsCreate && !present then some (.notfound, v)
    else if hasFlag oflags oflagsDirectory then
      (vfsRamfsCreateDir v.fs (v.heap dir) name v.mem).map fun r =>
        (.ok, { v with fs := r.2, mem := fun k => v.mem (k + 4) })
    else
      (vfsRamfsCreateFile v.fs (v.heap dir) name (v.mem 0)).map fun r =>
        (.ok, { v with fs := r.2, mem := fun k => v.mem (k + 1) })
  else some (.ok, v)

/-- `vfs_file_open` (vfs_internal.c 300–331) on the shared handles `dir` and `file`. -/
def vfsFileOpen (v : Vfs) (dir file : ℕ) (name : List UInt8) (oflags : UInt32) :
    Option (Cause × Vfs) := do
  let vfs ← (v.heap dir).vfs
  let (ec, v) ← createTarget v dir name oflags
  if ec ≠ .ok then return (ec, v)
  let (ec, fs, shared) ← vfsRamfsFileOpen v.fs vfs (v.heap dir) (v.heap file) name
  return (ec, { v.setShared file shared with fs := fs })

/-- `vfs_root_open` (vfs_internal.c 253–256). RAMFS reports no error. -/
def vfsRootOpen (v : Vfs) (p : ℕ) : Vfs :=
  let (_, fs, shared) := vfsRamfsRootOpen v.fs rootVfs (v.heap p)
  { v.setShared p shared with fs := fs }

/-! ## Walking a path -/

/-- The end of `root_reopen` and `dir_reopen` (filesystem.c 46–59, 102–115): the handle goes over to
    another shared handle. The old one is removed from the table by its index field. -/
def switchShared (v : Vfs) (dir p : ℕ) : Option (Cause × Vfs) := do
  let handle ← v.handleList[dir]?
  let old := handle.shared
  let v := v.setHandle dir { handle with shared := p }
  let v := pushRefcount v p
  let v := dropRefcount v old
  if (v.heap old).refcount = 0 then
    let v ← vfsFileClose v old
    let v ← vfsFileDestroyShared v (v.heap old).index
    return (.ok, v)
  else return (.ok, v)

/-- `root_reopen` (filesystem.c 13–62). -/
def rootReopen (v : Vfs) (dir : ℕ) : Option (Cause × Vfs) :=
  match vfsSharedByInode v (some rootVfs) inodeRoot with
  | some shared => do
    let p ← v.sharedList[shared]?
    switchShared v dir p
  | none =>
    match vfsFileCreateShared v with
    | (none, v) => some (.nomem, v)
    | (some shared, v) => do
      let p ← v.sharedList[shared]?
      let v := vfsRootOpen v p
      let v := v.setShared p { v.heap p with refcount := 0 }
      switchShared v dir p

/-- `dir_reopen` (filesystem.c 66–118). -/
def dirReopen (v : Vfs) (dir : ℕ) (ent : DirentT) : Option (Cause × Vfs) := do
  let handle ← v.handleList[dir]?
  match vfsSharedByInode v (v.heap handle.shared).vfs ent.inode with
  | some shared =>
    let p ← v.sharedList[shared]?
    switchShared v dir p
  | none =>
    match vfsFileCreateShared v with
    | (none, v) => return (.nomem, v)
    | (some shared, v) =>
      let p ← v.sharedList[shared]?
      let (ec, v) ← vfsFileOpen v handle.shared p ent.name 0
      if ec ≠ .ok then return (ec, ← vfsFileDestroyShared v shared)
      let v := v.setShared p { v.heap p with refcount := 0 }
      switchShared v dir p

/-- The character `/`. -/
def slashChar : UInt8 := 47

/-- Repeated slashes are merged (filesystem.c 154–161). -/
def dedupSlashes : List UInt8 → List UInt8
  | a :: b :: rest =>
    if a = slashChar && b = slashChar then dedupSlashes (b :: rest) else a :: dedupSlashes (b :: rest)
  | path => path

/-- Trailing slashes are removed, but not the first character (filesystem.c 225–228). -/
def stripSlashes (path : List UInt8) : List UInt8 :=
  path.take 1 ++ ((path.drop 1).reverse.dropWhile (· = slashChar)).reverse

/-- A `dirent_t` of zeros. -/
def zeroDirent : DirentT := ⟨0, 0, false, false, 0, []⟩

/-- Where the loop of `walk` stands: the end of the name that starts at `begin`
    (filesystem.c 188–190). -/
def nameEnd (path : List UInt8) (start : ℕ) : ℕ :=
  start + (path.drop start).findIdx (· = slashChar)

/-- The name from `start` on is that of an intermediate directory (filesystem.c 197–198). -/
def isIntermediate (path : List UInt8) (stop : ℕ) : Bool :=
  path[stop]? = some slashChar && stop + 1 < path.length

/-- The loop of `walk` (filesystem.c 175–222). Every round goes on in the path. Returns the
    error code and `begin`, where `none` is -1. -/
def walkLoop (dir : ℕ) (path : List UInt8) :
    ℕ → Vfs → Cause → ℕ → DirentT → Option (Cause × Option ℕ × DirentT × Vfs)
  | 0, _, _, _, _ => none
  | rounds + 1, v, ec, start, ent =>
    if start < path.length then do
      let handle ← v.handleList[dir]?
      if path[start]? = some slashChar then
        if !handle.isDir then return (.isFile, none, { ent with inode := 0 }, v)
        else walkLoop dir path rounds v ec (start + 1) ent
      else
        let stop := nameEnd path start
        let name := (path.take stop).drop start
        let _ ← (v.heap handle.shared).vfs
        match ← vfsRamfsDirFindEnt v.fs (v.heap handle.shared) name with
        | none =>
          if isIntermediate path stop then return (.notfound, none, ent, v)
          else return (.ok, some start, { ent with inode := 0 }, v)
        | some ent =>
          if isIntermediate path stop then
            let (ec, v) ← dirReopen v dir ent
            if ec ≠ .ok then return (ec, none, ent, v)
            else walkLoop dir path rounds v ec stop ent
          else return (.ok, some start, ent, v)
    else some (ec, some start, ent, v)

/-- What `walk` returns. -/
inductive WalkEnd
  | root
  | failed
  | name (start : ℕ)
  deriving DecidableEq, Repr

/-- `walk` (filesystem.c 137–231). Also returns the path as it leaves it. -/
def walk (v : Vfs) (ec : Cause) (dir : ℕ) (path : List UInt8) :
    Option (Cause × WalkEnd × DirentT × List UInt8 × Vfs) := do
  let path := dedupSlashes path
  let (ec, v) ← if path.head? = some slashChar then rootReopen v dir else some (ec, v)
  if path.head? = some slashChar ∧ ec ≠ .ok then return (ec, .failed, zeroDirent, path, v)
  if path = [slashChar] then return (ec, .root, zeroDirent, path, v)
  match ← walkLoop dir path (path.length + 1) v ec 0 zeroDirent with
  | (ec, some start, ent, v) => return (ec, .name start, ent, stripSlashes path, v)
  | (ec, none, ent, v) => return (ec, .failed, ent, stripSlashes path, v)

/-! ## `fs_open` and `fs_close` -/

/-- `FILE_NONE`. -/
def fileNone : Int32 := -1

/-- `root_open` (filesystem.c 234–264): the index of the handle. -/
def rootOpen (v : Vfs) (ec : Cause) : Option (Cause × ℕ × Vfs) :=
  let existing := vfsSharedByInode v (some rootVfs) inodeRoot
  match vfsFileCreateHandle v existing with
  | (none, _) => none
  | (some handle, v) => do
    let ptr ← v.handleList[handle]?
    let (ec, v) := if existing.isNone then (.ok, vfsRootOpen v ptr.shared) else (ec, v)
    return (ec, handle, v.setHandle handle
      { ptr with offset := 0, write := false, read := true, isDir := true, dirCache := [] })

/-- The flags that `fs_open` rejects (filesystem.c 609–622). -/
def rejectsOflags (oflags : UInt32) : Bool :=
  hasFlag oflags oflagsDirectory && hasFlag oflags (~~~validOflagsDirectory) ||
    !hasFlag oflags oflagsDirectory && hasFlag oflags (~~~validOflagsFile) ||
    !hasFlag oflags oflagsReadwrite

/-- The label `error` of `fs_open` (filesystem.c 708–714). -/
def openError (v : Vfs) (parent : ℕ) (ec : Cause) : Option (Int32 × Cause × Vfs) := do
  let index ← vfsFileByHandle v (← v.handleList[parent]?).fileno
  let v ← vfsFileDestroyHandle v index
  return (fileNone, ec, v)

/-- The filename after the walk (filesystem.c 641–648). -/
def walkFilename (path : List UInt8) : WalkEnd → List UInt8
  | .root => dot
  | .failed => path
  | .name start => path.drop start

/-- `fs_open` from the walk on (filesystem.c 650–706). -/
def openTarget (v : Vfs) (parent : ℕ) (ent : DirentT) (filename : List UInt8) (oflags : UInt32) :
    Option (Int32 × Cause × Vfs) := do
  let found := ent.inode ≠ 0
  let dir := (← v.handleList[parent]?).shared
  if found && ent.isDir && !hasFlag oflags oflagsDirectory then openError v parent .isDir
  else if found && !ent.isDir && hasFlag oflags oflagsDirectory then openError v parent .isFile
  else
    let isDir := if found then ent.isDir else hasFlag oflags oflagsDirectory
    let existing := if found then vfsSharedByInode v (v.heap dir).vfs ent.inode else none
    match vfsFileCreateHandle v existing with
    | (none, v) => openError v parent .nomem
    | (some handle, v) =>
      let ptr ← v.handleList[handle]?
      let v := v.setHandle handle
        { ptr with
          read := hasFlag oflags oflagsReadonly
          write := hasFlag oflags oflagsWriteonly
          isDir := isDir }
      if existing.isNone then
        let (ec, v) ← vfsFileOpen v dir ptr.shared filename oflags
        if ec ≠ .ok then openError (← vfsFileDestroyHandle v handle) parent ec
        else return (ptr.fileno, ec, v.setShared ptr.shared { v.heap ptr.shared with refcount := 1 })
      else return (ptr.fileno, .ok, v)

/-- `FILESYSTEM_PATH_MAX`. -/
def pathMax : ℕ := 511

/-- `fs_open` (filesystem.c 602–717): the file number. -/
def fsOpen (v : Vfs) (ec : Cause) (path : List UInt8) (oflags : UInt32) :
    Option (Int32 × Cause × Vfs) :=
  if rejectsOflags oflags then some (fileNone, .param, v)
  else if path.length > pathMax then some (fileNone, .toolong, v)
  else do
    let (ec, parent, v) ← rootOpen v ec
    if ec ≠ .ok then return (fileNone, ec, v)
    let (ec, slash, ent, path, v) ← walk v ec parent path
    if ec ≠ .ok then return (fileNone, ec, v)
    openTarget v parent ent (walkFilename path slash) oflags

/-- `fs_close` (filesystem.c 721–733). -/
def fsClose (v : Vfs) (file : Int32) : Option (Cause × Vfs) :=
  match vfsFileByHandle v file with
  | none => some (.param, v)
  | some index => (vfsFileDestroyHandle v index).map fun v => (.ok, v)

end BadgerOS.Filesystem
