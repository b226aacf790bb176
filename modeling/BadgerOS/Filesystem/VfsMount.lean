import BadgerOS.Filesystem.VfsLocks

/-!
# Mounting a file system

Model of `fs_mount` and `check_mountpoint` (`kernel/src/filesystem/filesystem.c` lines 269–426)
with the mutexes that they take, of `fs_detect` (lines 463–473) and of `vfs_fat_detect`
(`kernel/src/filesystem/vfs_fat.c` lines 53–81). What is read from the block device is given.

**Deviation.** When neither a type nor a block device is given, `fs_mount` gives
`vfs_mount_mtx` back and goes on without it, until it gives it back for a second time.

* `fsDetect_ok`: detecting the type reports no error, so the return after it that keeps the
  mutex is not taken.
* `fsMount_balanced`, `not_fsMount_balanced`: all other calls give back what they take.
-/

namespace BadgerOS.Filesystem

open Locks Locks.Locked

/-! ## Model -/

/-- `fs_type_t` (filesystem.h 67–74), and a value that is none of them. -/
inductive FsType
  | unknown
  | fat
  | ramfs
  | invalid
  deriving DecidableEq, Repr

/-- A block device, by what `fs_mount` finds out about it. -/
structure Media where
  readonly : Bool
  /-- The error code of reading the first sector, and `bytes_per_sector` in it. -/
  bpb : Cause × ℕ
  /-- The error code of reading the signature, and the two bytes. -/
  signature : Cause × UInt8 × UInt8
  /-- The error code that `vfs_fat_mount` leaves. -/
  fatMount : Cause

/-- `vfs_t` of a mounted file system. -/
structure Mount where
  mountpoint : List UInt8
  readonly : Bool
  media : Bool
  type : FsType
  ramfs : Option Ramfs

/-- `vfs_table`, `vfs_root_index` and the open files. -/
structure Mounts where
  table : List (Option Mount)
  rootIndex : Option ℕ
  vfs : Vfs

/-- The arguments of `fs_mount`, and what the memory for the usage map of a RAMFS holds. -/
structure MountCall where
  type : FsType
  media : Option Media
  mountpoint : List UInt8
  readonly : Bool
  usage : ℕ → Bool

/-- `vfs_fat_detect` (vfs_fat.c 53–81). -/
def vfsFatDetect (media : Media) : Bool × Cause :=
  let (ec, bytesPerSector) := media.bpb
  if ec ≠ .ok then (false, ec)
  else if bytesPerSector < 512 || bytesPerSector > 4096 then (false, ec)
  else if bytesPerSector &&& (bytesPerSector - 1) ≠ 0 then (false, ec)
  else
    let (ec, tmp) := media.signature
    if ec ≠ .ok then (false, ec)
    else if tmp.1 ≠ 0x55 || tmp.2 ≠ 0xAA then (false, ec)
    else (true, ec)

/-- `fs_detect` (filesystem.c 463–473). -/
def fsDetect (media : Media) : FsType × Cause :=
  let (isFat, ec) := vfsFatDetect media
  if isFat then (.fat, ec) else (.unknown, .ok)

/-- The loop of `fs_is_canonical_path` (filesystem.c 484–501). Every round takes at least one
    character off the path. -/
def canonicalLoop : ℕ → List UInt8 → Bool
  | 0, _ => true
  | rounds + 1, path =>
    if path = [] then true
    else
      let i := if path[1]? = some 46 then 1 else 0
      if path[0]? = some 46 && (path.getD i 0 = 0 || path.getD i 0 = slashChar) then false
      else if path[0]? = some slashChar && path[1]? = some slashChar then false
      else
        match path.findIdx? (· = slashChar) with
        | none => true
        | some index => canonicalLoop rounds (path.drop (index + 1))

/-- `fs_is_canonical_path` (filesystem.c 479–502). -/
def fsIsCanonicalPath (path : List UInt8) : Bool :=
  path.head? = some slashChar && canonicalLoop (path.length + 1) path

namespace WithLocks

/-- `is_dir_handle` (filesystem.c 505–524). -/
def isDirHandle (v : Vfs) (dir : Int32) : Locked VfsMutex Bool := do
  acquire .shared .handle
  match vfsFileByHandle v dir with
  | none =>
    release .shared .handle
    return false
  | some index =>
    let handle ← lift v.handleList[index]?
    if !handle.isDir then
      release .shared .handle
      return false
    else
      release .shared .handle
      return true

/-- `fs_dir_close` (filesystem.c 545–549). -/
def fsDirClose (v : Vfs) (dir : Int32) : Locked VfsMutex Vfs := do
  let isDir ← isDirHandle v dir
  if !isDir then return v
  else
    let (_, v) ← fsClose v dir
    return v

/-- `check_mountpoint` (filesystem.c 269–334): the copy of the path. The copy ends as the path
    does. For `/` the error code stays as it is. -/
def checkMountpoint (ec : Cause) (raw : List UInt8) (s : Mounts) :
    Locked VfsMutex (Cause × Option (List UInt8) × Vfs) :=
  let v := s.vfs
  if raw.head? ≠ some slashChar then return (.param, none, v)
  else if raw.length > pathMax then return (.param, none, v)
  else if !fsIsCanonicalPath raw then return (.param, none, v)
  else
    let (mem, v) := v.alloc
    if mem.isNone then return (.nomem, none, v)
    else if s.table.any fun m => m.any fun m => m.mountpoint = raw then return (.inuse, none, v)
    else if raw = [slashChar] then return (ec, some raw, v)
    else do
      let (dir, ec, v) ← fsOpen v ec raw (oflagsDirectory ||| oflagsReadonly)
      if dir = fileNone then return (ec, none, v)
      else
        let v ← fsDirClose v dir
        return (ec, some raw, v)

/-- The mounting that depends on the type (filesystem.c 403–407). A FAT file system is read from
    the block device. -/
def mountType (call : MountCall) (type : FsType) (v : Vfs) : Option (Cause × Option Ramfs) :=
  match type with
  | .fat => call.media.map fun media => (media.fatMount, none)
  | .ramfs => vfsRamfsMount .ok call.media.isSome call.usage v.mem
  | _ => some (.param, none)

/-- `fs_mount` after the check of the mount point (filesystem.c 372–425). -/
def mountChecked (call : MountCall) (type : FsType) (ec : Cause) (copy : List UInt8) (s : Mounts) :
    Locked VfsMutex (Cause × Mounts) :=
  if ec ≠ .ok then do
    release .exclusive .mount
    return (ec, s)
  else
    match s.table.findIdx? (·.isNone) with
    | none => do
      release .exclusive .mount
      return (.unavail, s)
    | some index =>
      if !call.readonly && call.media.any Media.readonly then do
        release .exclusive .mount
        return (.readonly, s)
      else do
        let (ec, ramfs) ← lift (mountType call type s.vfs)
        let s := { s with vfs := { s.vfs with mem := fun k => s.vfs.mem (k + 2) } }
        if ec ≠ .ok then
          release .exclusive .mount
          return (ec, s)
        else
          let ent : Mount := ⟨copy, call.readonly, call.media.isSome, type, ramfs⟩
          release .exclusive .mount
          return (.ok, { s with
            table := s.table.set index (some ent)
            rootIndex := if call.mountpoint = [slashChar] then some index else s.rootIndex })

/-- `fs_mount` from the check of the mount point on (filesystem.c 365–425). -/
def mountAt (call : MountCall) (type : FsType) (ec : Cause) (s : Mounts) :
    Locked VfsMutex (Cause × Mounts) := do
  let (ec, copy, v) ← checkMountpoint ec call.mountpoint s
  mountChecked call type ec (copy.getD []) { s with vfs := v }

/-- `fs_mount` (filesystem.c 339–426). Without a type and a block device the call goes on after
    it has released the mutex. -/
def fsMount (call : MountCall) (ec : Cause) (s : Mounts) : Locked VfsMutex (Cause × Mounts) := do
  acquire .exclusive .mount
  if call.type = .unknown then
    match call.media with
    | none =>
      release .exclusive .mount
      mountAt call .unknown .param s
    | some media =>
      let (type, ec) := fsDetect media
      if ec ≠ .ok then return (ec, s)
      else if type = .unknown then
        release .exclusive .mount
        return (.unavail, s)
      else mountAt call type ec s
  else mountAt call call.type ec s

/-! ## The mutexes -/

theorem fsDetect_ok (media : Media) : (fsDetect media).2 = .ok := by
  unfold fsDetect
  rcases hdetect : vfsFatDetect media with ⟨isFat, ec⟩
  cases isFat with
  | false => rfl
  | true =>
    unfold vfsFatDetect at hdetect
    dsimp only at hdetect
    split_ifs at hdetect with h1 h2 h3 h4 h5
    all_goals first
      | exact absurd (Prod.mk.inj hdetect).1 (by decide)
      | exact (Prod.mk.inj hdetect).2 ▸ not_not.mp h4

theorem isDirHandle_keeps (v : Vfs) (dir : Int32) : Keeps [.handle, .ramfs] (isDirHandle v dir) := by
  refine keeps_handle_ramfs fun held hheld h => ?_
  unfold isDirHandle
  refine (leads_acquire h).bind fun _ => ?_
  split
  · exact leads_handle_end _ _
  · exact (leads_lift _).bind fun handle => leads_ite (leads_handle_end _ _) (leads_handle_end _ _)

theorem fsDirClose_keeps (v : Vfs) (dir : Int32) : Keeps [.handle, .ramfs] (fsDirClose v dir) := by
  unfold fsDirClose
  refine (isDirHandle_keeps v dir).bind fun isDir => keeps_ite (keeps_pure _ _) ?_
  refine (fsClose_keeps v dir).bind ?_
  rintro ⟨ec, v1⟩
  exact keeps_pure _ _

theorem checkMountpoint_keeps (ec : Cause) (raw : List UInt8) (s : Mounts) :
    Keeps [.handle, .ramfs] (checkMountpoint ec raw s) := by
  unfold checkMountpoint
  refine keeps_ite (keeps_pure _ _) (keeps_ite (keeps_pure _ _) (keeps_ite (keeps_pure _ _) ?_))
  refine keeps_ite (keeps_pure _ _) (keeps_ite (keeps_pure _ _) (keeps_ite (keeps_pure _ _) ?_))
  refine (fsOpen_keeps _ _ _ _).bind ?_
  rintro ⟨dir, ec1, v1⟩
  refine keeps_ite (keeps_pure _ _) ?_
  exact (fsDirClose_keeps v1 dir).bind fun v2 => keeps_pure _ _

theorem leads_mount_end {α : Type} (a : α) :
    Leads [(.exclusive, VfsMutex.mount)] (do release .exclusive .mount; return a) [] :=
  (leads_release _ _).bind fun _ => leads_pure _

theorem mountChecked_leads (call : MountCall) (type : FsType) (ec : Cause) (copy : List UInt8)
    (s : Mounts) : Leads [(.exclusive, .mount)] (mountChecked call type ec copy s) [] := by
  unfold mountChecked
  refine leads_ite (leads_mount_end _) ?_
  split
  · exact leads_mount_end _
  · refine leads_ite (leads_mount_end _) ((leads_lift _).bind ?_)
    rintro ⟨ec1, ramfs⟩
    exact leads_ite (leads_mount_end _) (leads_mount_end _)

theorem mountAt_leads (call : MountCall) (type : FsType) (ec : Cause) (s : Mounts) :
    Leads [(.exclusive, .mount)] (mountAt call type ec s) [] := by
  unfold mountAt
  refine ((checkMountpoint_keeps _ _ _).leads_cons (by decide) fun _ _ => List.not_mem_nil).bind ?_
  rintro ⟨ec1, copy, v⟩
  exact mountChecked_leads ..

/-- With a type or a block device, `fs_mount` gives back the mutex that it takes. -/
theorem fsMount_balanced {call : MountCall} (h : call.type = .unknown → call.media.isSome = true)
    (ec : Cause) (s : Mounts) : Balanced (fsMount call ec s) := by
  unfold fsMount
  refine (leads_acquire List.not_mem_nil).bind fun _ => ?_
  split_ifs with htype
  · split
    · rename_i hmedia
      rw [hmedia] at h
      exact absurd (h htype) (by decide)
    · rename_i media _
      dsimp only
      rw [if_neg (not_not_intro (fsDetect_ok media))]
      exact leads_ite (leads_mount_end _) (mountAt_leads ..)
  · exact mountAt_leads ..

theorem not_leads_mount_end {α : Type} (a : α) : ¬ Leads [] (do release .exclusive VfsMutex.mount; return a) [] :=
  not_leads_bind (follow_release_of_notMem List.not_mem_nil)

theorem not_mountChecked_leads {call : MountCall} {type : FsType} {ec : Cause} {copy : List UInt8}
    {s : Mounts} (hret : (mountChecked call type ec copy s).result.isSome = true) :
    ¬ Leads [] (mountChecked call type ec copy s) [] := by
  unfold mountChecked at hret ⊢
  by_cases hec : ec ≠ .ok
  · rw [if_pos hec]
    exact not_leads_mount_end _
  rw [if_neg hec] at hret ⊢
  split at hret
  · exact not_leads_mount_end _
  dsimp only at hret ⊢
  by_cases hreadonly : (!call.readonly && call.media.any Media.readonly) = true
  · rw [if_pos hreadonly]
    exact not_leads_mount_end _
  rw [if_neg hreadonly] at hret ⊢
  rw [result_bind, result_lift] at hret
  cases hmount : mountType call type s.vfs with
  | none =>
    rw [hmount] at hret
    contradiction
  | some r =>
    refine not_leads_of_rest (leads_lift _) rfl ?_
    by_cases hr : r.1 ≠ .ok
    · simp only [if_pos hr]
      exact not_leads_mount_end _
    · simp only [if_neg hr]
      exact not_leads_mount_end _

/-- Without a type and a block device, `fs_mount` gives the mutex back twice. -/
theorem not_fsMount_balanced {call : MountCall} {ec : Cause} {s : Mounts}
    (htype : call.type = .unknown) (hmedia : call.media = none)
    (hret : (fsMount call ec s).result.isSome = true) : ¬ Balanced (fsMount call ec s) := by
  unfold fsMount at hret ⊢
  rw [if_pos htype, hmedia] at hret ⊢
  refine not_leads_of_rest (leads_acquire List.not_mem_nil) rfl ?_
  refine not_leads_of_rest (leads_release _ _) rfl ?_
  simp only [result_bind, result_acquire, result_release, Option.bind_some] at hret
  unfold mountAt at hret ⊢
  rw [result_bind] at hret
  cases hcheck : (checkMountpoint .param call.mountpoint s).result with
  | none =>
    rw [hcheck] at hret
    contradiction
  | some r =>
    rw [hcheck] at hret
    exact not_leads_of_rest (checkMountpoint_keeps .param call.mountpoint s).balanced hcheck
      (not_mountChecked_leads hret)

end WithLocks

end BadgerOS.Filesystem
