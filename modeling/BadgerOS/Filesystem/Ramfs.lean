import BadgerOS.Common.Cause
import BadgerOS.Lib.Buffer

/-!
# The RAM filesystem

The in-memory filesystem of `filesystem/vfs_ramfs.c` with the types of
`filesystem/vfs_ramfs_types.h` and `filesystem/vfs_types.h`.

A pointer into the inode table is the index of the inode, `none` is `NULL`. The
data buffer of an inode is the list of its bytes; an access outside of it reads nothing
and writes nothing. An error code `ec` is passed in and out, since not every path
writes it. A function of the model returns `none` where the source does not return:
a loop that never ends or a `NULL` pointer that is followed.

A call of `realloc` is given by its outcome (`Realloc`): the bytes that fit are kept and
the rest of the new block holds what the heap left there. The strings of badgelib
are lists of bytes without the terminator and `mem_copy` is a move.
-/

namespace BadgerOS.Filesystem

open Buffer

/-- The outcome of a `realloc`: `NULL`, or a block whose new bytes are given. -/
abbrev Realloc := Option (ℕ → UInt8)

/-- The bytes of `buf` after it was moved to a block of `cap` bytes. -/
def reallocBuf (buf : List UInt8) (cap : ℕ) (fill : ℕ → UInt8) : List UInt8 :=
  buf.take cap ++ (List.range (cap - buf.length)).map fill

/-- `filetype_t` (filesystem.h 86–102). -/
inductive FileType
  | sock | link | reg | blk | dir | chr | fifo
  deriving DecidableEq, Repr

/-- The number of a file type. -/
def FileType.value : FileType → ℕ
  | .sock => 12
  | .link => 10
  | .reg => 8
  | .blk => 6
  | .dir => 4
  | .chr => 2
  | .fifo => 1

/-- `VFS_RAMFS_NAME_MAX`. -/
def nameMax : ℕ := 255

/-- `VFS_RAMFS_MODE_BIT`. -/
def modeBit : ℕ := 12

/-- `VFS_RAMFS_MODE_MASK`. -/
def modeMask : ℕ := 0xf000

/-- `VFS_RAMFS_INODE_ROOT`. -/
def inodeRoot : ℕ := 1

/-- `VFS_RAMFS_INODE_FIRST`. -/
def inodeFirst : ℕ := 2

/-- `vfs_ramfs_inode_t` (vfs_ramfs_types.h 30–47). -/
structure Inode where
  len : ℕ
  cap : ℕ
  buf : List UInt8
  inode : ℕ
  mode : ℕ
  links : ℕ
  deriving DecidableEq, Repr

/-- An inode of the zeroed inode table. -/
def Inode.zero : Inode := ⟨0, 0, [], 0, 0, 0⟩

/-- The inode has the given file type. -/
def Inode.hasType (inode : Inode) (type : FileType) : Bool :=
  inode.mode &&& modeMask == type.value <<< modeBit

/-- `vfs_ramfs_t` (vfs_ramfs_types.h 66–81). -/
structure Ramfs where
  inodeList : ℕ → Inode
  inodeUsage : ℕ → Bool
  inodeListLen : ℕ

namespace Ramfs

/-- The filesystem with one inode replaced. -/
def setInode (fs : Ramfs) (i : ℕ) (inode : Inode) : Ramfs :=
  { fs with inodeList := Function.update fs.inodeList i inode }

/-- The filesystem with one entry of the usage map replaced. -/
def setUsage (fs : Ramfs) (i : ℕ) (used : Bool) : Ramfs :=
  { fs with inodeUsage := Function.update fs.inodeUsage i used }

end Ramfs

/-- `vfs_file_shared_t` (vfs_types.h 16–44) for a file of a RAMFS. -/
structure VfsFileShared where
  refcount : ℕ
  index : ℕ
  size : Int64
  ramfsFile : Option ℕ
  inode : ℕ
  vfs : Option ℕ
  deriving DecidableEq, Repr

/-! ## Inodes -/

/-- The loop of `resize_inode` (vfs_ramfs.c 34–37): double `cap` until it is at least `size`.
    After 64 rounds `cap` has become 0 and stays so. -/
def growCap : ℕ → ℕ → ℕ → Option ℕ
  | 0, _, _ => none
  | rounds + 1, cap, size =>
    if cap < size then growCap rounds (cap * 2 % 2 ^ 64) size else some cap

/-- `resize_inode` (vfs_ramfs.c 13–49). -/
def resizeInode (ec : Cause) (inode : Inode) (size : ℕ) (mem : Realloc) :
    Option (Bool × Cause × Inode) :=
  if inode.cap ≥ 2 * size % 2 ^ 64 then
    let cap := inode.cap / 2
    match mem with
    | some fill =>
      some (true, ec, { inode with cap := cap, buf := reallocBuf inode.buf cap fill, len := size })
    | none =>
      if cap = 0 then some (true, ec, { inode with cap := cap, buf := [], len := size })
      else some (true, ec, { inode with len := size })
  else if inode.cap ≥ size then
    some (true, .ok, { inode with len := size })
  else
    match growCap 64 1 size with
    | none => none
    | some cap =>
      match mem with
      | some fill =>
        some (true, ec,
          { inode with cap := cap, buf := reallocBuf inode.buf cap fill, len := size })
      | none => some (false, ec, inode)

/-- `find_inode` (vfs_ramfs.c 52–58). -/
def findInode (fs : Ramfs) : Option ℕ :=
  (List.range' inodeFirst (fs.inodeListLen - inodeFirst)).find? fun i => !fs.inodeUsage i

/-- `pop_inode_refcount` (vfs_ramfs.c 61–68). -/
def popInodeRefcount (fs : Ramfs) (i : ℕ) : Ramfs :=
  let inode := fs.inodeList i
  let links := (inode.links + (2 ^ 64 - 1)) % 2 ^ 64
  let fs := fs.setInode i { inode with links := links }
  if links = 0 then fs.setUsage inode.inode false else fs

/-! ## Directory entries

A `vfs_ramfs_dirent_t` has its size at offset 0, its inode at offset 8, the length of
its name at offset 16 and its name at offset 24. -/

/-- `vfs_ramfs_dirent_t` (vfs_ramfs_types.h 50–59); `name` is the whole array. -/
structure Dirent where
  size : ℕ
  inode : ℕ
  nameLen : ℕ
  name : List UInt8
  deriving DecidableEq, Repr

/-- The bytes of an entry in memory. -/
def Dirent.bytes (ent : Dirent) : List UInt8 :=
  toLE 8 ent.size ++ toLE 8 ent.inode ++ toLE 8 ent.nameLen ++ ent.name

/-- A `char` array of `nameMax + 1` bytes that starts with `name`. -/
def nameArray (name : List UInt8) : List UInt8 :=
  (name ++ List.replicate (nameMax + 1) 0).take (nameMax + 1)

/-- `ent->size` for the entry at `off`. -/
def direntSize (buf : List UInt8) (off : ℕ) : ℕ := ofLE (load buf off 8)

/-- `ent->inode` for the entry at `off`. -/
def direntInode (buf : List UInt8) (off : ℕ) : ℕ := ofLE (load buf (off + 8) 8)

/-- `ent->name_len` for the entry at `off`. -/
def direntNameLen (buf : List UInt8) (off : ℕ) : ℕ := ofLE (load buf (off + 16) 8)

/-- The string at `ent->name` for the entry at `off`. -/
def direntName (buf : List UInt8) (off : ℕ) : List UInt8 :=
  (buf.drop (off + 24)).takeWhile (· ≠ 0)

/-- The size of an entry, rounded up to a multiple of `sizeof(size_t)` (vfs_ramfs.c 142, 146). -/
def entSize (nameLen : ℕ) : ℕ :=
  let size := 24 + nameLen + 1
  size + (2 ^ 64 - size) % 8

/-- `insert_dirent` (vfs_ramfs.c 71–82). -/
def insertDirent (ec : Cause) (dir : Inode) (ent : Dirent) (mem : Realloc) :
    Option (Bool × Cause × Inode) :=
  match resizeInode ec dir ((dir.len + ent.size) % 2 ^ 64) mem with
  | none => none
  | some (false, ec, dir') => some (false, ec, dir')
  | some (true, ec, dir') =>
    some (true, ec, { dir' with buf := store dir'.buf dir.len (ent.bytes.take ent.size) })

/-- `remove_dirent` (vfs_ramfs.c 86–95); the entry is given by its offset. -/
def removeDirent (dir : Inode) (off : ℕ) (mem : Realloc) : Option Inode :=
  let size := direntSize dir.buf off
  let rest := load dir.buf (off + size) ((dir.len + 2 ^ 64 - size) % 2 ^ 64)
  let dir := { dir with buf := store dir.buf off rest }
  (resizeInode .ok dir ((dir.len + 2 ^ 64 - size) % 2 ^ 64) mem).map fun r => r.2.2

/-- The loop of `find_dirent` (vfs_ramfs.c 102–108): `some none` when the end is reached.
    The offset takes at most `len` values below `len`, so a loop of more rounds never ends. -/
def findLoop (buf : List UInt8) (len : ℕ) (name : List UInt8) : ℕ → ℕ → Option (Option ℕ)
  | 0, _ => none
  | rounds + 1, off =>
    if off < len then
      if name = direntName buf off then some (some off)
      else findLoop buf len name rounds ((off + direntSize buf off) % 2 ^ 64)
    else some none

/-- `find_dirent` (vfs_ramfs.c 99–110): the offset of the entry. -/
def findDirent (dir : Inode) (name : List UInt8) : Option (Option ℕ) :=
  findLoop dir.buf dir.len name (dir.len + 1) 0

/-- The name `.`. -/
def dot : List UInt8 := [46]

/-- The name `..`. -/
def dotdot : List UInt8 := [46, 46]

/-- The loop of `is_dir_empty` (vfs_ramfs.c 174–180). -/
def emptyLoop (buf : List UInt8) (len : ℕ) : ℕ → ℕ → Option Bool
  | 0, _ => none
  | rounds + 1, off =>
    if off < len then
      if dot ≠ direntName buf off ∧ dotdot ≠ direntName buf off then some false
      else emptyLoop buf len rounds ((off + direntSize buf off) % 2 ^ 64)
    else some true

/-- `is_dir_empty` (vfs_ramfs.c 172–182). -/
def isDirEmpty (dir : Inode) : Option Bool :=
  emptyLoop dir.buf dir.len (dir.len + 1) 0

/-! ## Creating and unlinking -/

/-- `cstr_length_upto(name, VFS_RAMFS_NAME_MAX + 1)`. -/
def nameLength (name : List UInt8) : ℕ := min name.length (nameMax + 1)

/-- The inode that `create_file` sets up (vfs_ramfs.c 152–159). -/
def newInode (inum : ℕ) (type : FileType) : Inode :=
  ⟨0, 0, [], inum, type.value <<< modeBit ||| 0o777, 1⟩

/-- `create_file` (vfs_ramfs.c 114–168). Returns the index of the inode. A name that is too
    long sets `ec`, which the lookup then resets. -/
def createFile (fs : Ramfs) (dir : VfsFileShared) (name : List UInt8) (type : FileType)
    (mem : Realloc) : Option (Cause × Ramfs × Option ℕ) := do
  let dirptr ← dir.ramfsFile
  match ← findDirent (fs.inodeList dirptr) name with
  | some _ => return (.exists, fs, none)
  | none =>
    match findInode fs with
    | none => return (.nospace, fs, none)
    | some inum =>
      let nameLen := nameLength name
      let ent : Dirent := ⟨entSize nameLen, inum, nameLen, nameArray name⟩
      let fs := fs.setInode inum (newInode inum type)
      let (inserted, ec, dir') ← insertDirent .ok (fs.inodeList dirptr) ent mem
      let fs := fs.setInode dirptr dir'
      return (ec, if inserted then fs.setUsage inum true else fs, some inum)

/-- `vfs_ramfs_create_file` (vfs_ramfs.c 263–265). -/
def vfsRamfsCreateFile (fs : Ramfs) (dir : VfsFileShared) (name : List UInt8) (mem : Realloc) :
    Option (Cause × Ramfs) :=
  (createFile fs dir name .reg mem).map fun r => (r.1, r.2.1)

/-- An entry for `.` or `..` (vfs_ramfs.c 280–285, 295–298). -/
def dotEntry (name : List UInt8) (inode : ℕ) : Dirent := ⟨32, inode, name.length, nameArray name⟩

/-- The error path of `vfs_ramfs_create_dir` (vfs_ramfs.c 288–292, 301–305). -/
def undoCreate (ec : Cause) (fs : Ramfs) (dir : VfsFileShared) (name : List UInt8) (i : ℕ)
    (mem : Realloc) : Option (Cause × Ramfs) := do
  let fs := popInodeRefcount fs i
  let dirptr ← dir.ramfsFile
  let off ← ← findDirent (fs.inodeList dirptr) name
  let dir' ← removeDirent (fs.inodeList dirptr) off mem
  return (ec, fs.setInode dirptr dir')

/-- `vfs_ramfs_create_dir` (vfs_ramfs.c 269–307). The calls of `realloc` are numbered. -/
def vfsRamfsCreateDir (fs : Ramfs) (dir : VfsFileShared) (name : List UInt8)
    (mems : ℕ → Realloc) : Option (Cause × Ramfs) := do
  let (ec, fs, iptr) ← createFile fs dir name .dir (mems 0)
  if ec ≠ .ok then return (ec, fs)
  let i ← iptr
  let iptr := fs.inodeList i
  let (_, ec, inode) ← insertDirent ec iptr (dotEntry dot iptr.inode) (mems 1)
  let fs := fs.setInode i inode
  if ec ≠ .ok then undoCreate ec fs dir name i (mems 2)
  else
    let (_, ec, inode) ← insertDirent ec (fs.inodeList i) (dotEntry dotdot dir.inode) (mems 2)
    let fs := fs.setInode i inode
    if ec ≠ .ok then undoCreate ec fs dir name i (mems 3)
    else return (ec, fs)

/-- The test of `vfs_ramfs_unlink` (vfs_ramfs.c 336–343): a directory must be empty. -/
def isRemovable (iptr : Inode) : Option Bool :=
  if iptr.hasType .dir then isDirEmpty iptr else some true

/-- `vfs_ramfs_unlink` (vfs_ramfs.c 311–353). -/
def vfsRamfsUnlink (fs : Ramfs) (dir : VfsFileShared) (name : List UInt8) (mem : Realloc) :
    Option (Cause × Ramfs) := do
  if name = dot ∨ name = dotdot then return (.param, fs)
  let dirptr ← dir.ramfsFile
  match ← findDirent (fs.inodeList dirptr) name with
  | none => return (.notfound, fs)
  | some off =>
    let i := direntInode (fs.inodeList dirptr).buf off
    let removable ← isRemovable (fs.inodeList i)
    if !removable then return (.notempty, fs)
    let fs := popInodeRefcount fs i
    let dir' ← removeDirent (fs.inodeList dirptr) off mem
    return (.ok, fs.setInode dirptr dir')

/-- `vfs_ramfs_exists` (vfs_ramfs.c 356–369). -/
def vfsRamfsExists (fs : Ramfs) (dir : VfsFileShared) (name : List UInt8) : Option Bool := do
  let dirptr ← dir.ramfsFile
  return (← findDirent (fs.inodeList dirptr) name).isSome

/-- `vfs_ramfs_mount` (vfs_ramfs.c 187–250) with the memory of the two tables at hand:
    `usage` is what the allocation of the usage map left in it. The entries of the root
    directory that could not be inserted go unnoticed. -/
def vfsRamfsMount (ec : Cause) (media : Bool) (usage : ℕ → Bool) (mems : ℕ → Realloc) :
    Option (Cause × Option Ramfs) :=
  if media then some (.param, none)
  else if ec ≠ .ok then some (ec, none)
  else do
    let inodeListLen := 32
    -- the last two entries of the usage map are not cleared
    let cleared : ℕ → Bool := fun i => if i < inodeListLen - 2 then false else usage i
    let fs : Ramfs := ⟨fun _ => .zero, Function.update cleared inodeRoot true, inodeListLen⟩
    let iptr := newInode inodeRoot .dir
    let (_, ec, iptr) ← insertDirent .ok iptr (dotEntry dot inodeRoot) (mems 0)
    let (_, ec, iptr) ← insertDirent ec iptr (dotEntry dotdot inodeRoot) (mems 1)
    return (ec, some (fs.setInode inodeRoot iptr))

/-! ## Files -/

/-- The bytes `writebuf` points to. -/
def bytesOf (writebuf : ℕ → UInt8) (n : ℕ) : List UInt8 := (List.range n).map writebuf

/-- The access ends behind the end of the file or runs backwards (vfs_ramfs.c 525, 550). -/
def outOfFile (inode : Inode) (offset accessLen : Int64) : Bool :=
  offset + accessLen > Int64.ofNat inode.len || offset + accessLen < offset

/-- `vfs_ramfs_file_read` (vfs_ramfs.c 513–535): the bytes written to `readbuf`, if any. -/
def vfsRamfsFileRead (fs : Ramfs) (file : VfsFileShared) (offset readlen : Int64) :
    Option (Cause × Option (List UInt8)) :=
  if offset < 0 then some (.range, none)
  else do
    let iptr ← file.ramfsFile
    if outOfFile (fs.inodeList iptr) offset readlen then return (.range, none)
    return (.ok, some (load (fs.inodeList iptr).buf offset.toNatClampNeg readlen.toNatClampNeg))

/-- `vfs_ramfs_file_write` (vfs_ramfs.c 538–559). -/
def vfsRamfsFileWrite (fs : Ramfs) (file : VfsFileShared) (offset : Int64)
    (writebuf : ℕ → UInt8) (writelen : Int64) : Option (Cause × Ramfs) :=
  if offset < 0 then some (.range, fs)
  else do
    let iptr ← file.ramfsFile
    let inode := fs.inodeList iptr
    if outOfFile inode offset writelen then return (.range, fs)
    let bytes := bytesOf writebuf writelen.toNatClampNeg
    return (.ok, fs.setInode iptr { inode with buf := store inode.buf offset.toNatClampNeg bytes })

/-- `vfs_ramfs_file_resize` (vfs_ramfs.c 562–581). -/
def vfsRamfsFileResize (ec : Cause) (fs : Ramfs) (file : VfsFileShared) (newSize : Int64)
    (mem : Realloc) : Option (Cause × Ramfs × VfsFileShared) :=
  if newSize < 0 then some (.range, fs, file)
  else do
    let iptr ← file.ramfsFile
    let oldSize := Int64.ofNat (fs.inodeList iptr).len
    let (resized, ec, inode) ← resizeInode ec (fs.inodeList iptr) newSize.toNatClampNeg mem
    if !resized then return (ec, fs.setInode iptr inode, file)
    let zeroed := if newSize > oldSize then
        store inode.buf oldSize.toNatClampNeg
          (List.replicate (newSize - oldSize).toNatClampNeg 0)
      else inode.buf
    return (ec, fs.setInode iptr { inode with buf := zeroed }, { file with size := newSize })

/-! ## Opening and closing -/

/-- `dirent_t` (filesystem.h 108–121); `name` is the string in the array. -/
structure DirentT where
  recordLen : ℕ
  inode : ℕ
  isDir : Bool
  isSymlink : Bool
  nameLen : ℕ
  name : List UInt8
  deriving DecidableEq, Repr

/-- `convert_dirent` (vfs_ramfs.c 384–396); the name of a `dirent_t` is at offset 32. -/
def convertDirent (fs : Ramfs) (buf : List UInt8) (off : ℕ) : DirentT :=
  let iptr := fs.inodeList (direntInode buf off)
  let recordLen := 32 + direntNameLen buf off + 1
  { recordLen := recordLen + (2 ^ 64 - recordLen) % 8
    inode := direntInode buf off
    isDir := iptr.hasType .dir
    isSymlink := iptr.hasType .link
    nameLen := direntNameLen buf off
    name := direntName buf off }

/-- `vfs_ramfs_dir_find_ent` (vfs_ramfs.c 441–450). -/
def vfsRamfsDirFindEnt (fs : Ramfs) (dir : VfsFileShared) (name : List UInt8) :
    Option (Option DirentT) := do
  let iptr ← dir.ramfsFile
  return (← findDirent (fs.inodeList iptr) name).map (convertDirent fs (fs.inodeList iptr).buf)

/-- The inode with one more link. -/
def Inode.link (inode : Inode) : Inode := { inode with links := (inode.links + 1) % 2 ^ 64 }

/-- `vfs_ramfs_root_open` (vfs_ramfs.c 455–469) on the filesystem with number `vfs`. -/
def vfsRamfsRootOpen (fs : Ramfs) (vfs : ℕ) (file : VfsFileShared) :
    Cause × Ramfs × VfsFileShared :=
  (.ok, fs.setInode inodeRoot (fs.inodeList inodeRoot).link,
    { file with ramfsFile := some inodeRoot, inode := inodeRoot, vfs := some vfs, refcount := 1 })

/-- `vfs_ramfs_file_open` (vfs_ramfs.c 472–500). -/
def vfsRamfsFileOpen (fs : Ramfs) (vfs : ℕ) (dir file : VfsFileShared) (name : List UInt8) :
    Option (Cause × Ramfs × VfsFileShared) := do
  let dirptr ← dir.ramfsFile
  match ← findDirent (fs.inodeList dirptr) name with
  | none => return (.notfound, fs, file)
  | some off =>
    let i := direntInode (fs.inodeList dirptr).buf off
    let inode := (fs.inodeList i).link
    return (.ok, fs.setInode i inode,
      { file with
        ramfsFile := some i
        inode := inode.inode
        vfs := some vfs
        refcount := 1
        size := Int64.ofNat inode.len })

/-- `vfs_ramfs_file_close` (vfs_ramfs.c 504–510). -/
def vfsRamfsFileClose (fs : Ramfs) (file : VfsFileShared) : Option (Ramfs × VfsFileShared) := do
  let i ← file.ramfsFile
  return (popInodeRefcount fs i, { file with ramfsFile := none })

end BadgerOS.Filesystem
