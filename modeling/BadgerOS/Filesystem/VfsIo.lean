import BadgerOS.Filesystem.Vfs

/-!
# Reading, writing and seeking

The calls `fs_read`, `fs_write` and `fs_seek` of `filesystem/filesystem.c` on the tables of
open files.

With a negative length `fs_read` and `fs_write` release the mutex of the tables, which they do
not hold, and `mutex_release_shared` waits for ever (`none`).
-/

namespace BadgerOS.Filesystem

open Buffer

/-! ## Reading a directory -/

/-- `measure_dirent` (vfs_ramfs.c 374–379). -/
def measureDirent (buf : List UInt8) (off : ℕ) : ℕ :=
  let size := 32 + direntNameLen buf off + 1
  size + (2 ^ 64 - size) % 8

/-- The loop that measures the memory for the cache (vfs_ramfs.c 404–409). -/
def measureLoop (buf : List UInt8) (len : ℕ) : ℕ → ℕ → ℕ → Option ℕ
  | 0, _, _ => none
  | rounds + 1, off, cap =>
    if off < len then
      measureLoop buf len rounds ((off + direntSize buf off) % 2 ^ 64)
        ((cap + measureDirent buf off) % 2 ^ 64)
    else some cap

/-- The `dirent_t` that `convert_dirent` writes at `out`, of the entry at `off`. The bytes
    between `is_symlink` and `name_len` are not written. -/
def storeDirent (fs : Ramfs) (buf : List UInt8) (off : ℕ) (cache : List UInt8) (out : ℕ) :
    List UInt8 :=
  let ent := convertDirent fs buf off
  let cache := store cache out (toLE 8 ent.recordLen ++ toLE 8 ent.inode)
  let cache := store cache (out + 16) [ent.isDir.toUInt8, ent.isSymlink.toUInt8]
  let cache := store cache (out + 24) (toLE 8 ent.nameLen)
  store cache (out + 32) (load buf (off + 24) (ent.nameLen + 1))

/-- The loop that generates the entries of the cache (vfs_ramfs.c 422–430). -/
def generateLoop (fs : Ramfs) (buf : List UInt8) (len : ℕ) :
    ℕ → ℕ → ℕ → List UInt8 → Option (List UInt8)
  | 0, _, _, _ => none
  | rounds + 1, off, out, cache =>
    if off < len then
      generateLoop fs buf len rounds ((off + direntSize buf off) % 2 ^ 64)
        ((out + (convertDirent fs buf off).recordLen) % 2 ^ 64) (storeDirent fs buf off cache out)
    else some cache

/-- `vfs_ramfs_dir_read` (vfs_ramfs.c 400–434): the cache of the handle. -/
def vfsRamfsDirRead (fs : Ramfs) (file : VfsFileShared) (cache : List UInt8) (mem : Realloc) :
    Option (Cause × List UInt8) := do
  let inode := fs.inodeList (← file.ramfsFile)
  let cap ← measureLoop inode.buf inode.len (inode.len + 1) 0 0
  match mem with
  | none => return (.nomem, cache)
  | some fill =>
    return (.ok, ← generateLoop fs inode.buf inode.len (inode.len + 1) 0 0
      (reallocBuf cache cap fill))

/-! ## `fs_read`, `fs_write` and `fs_seek` -/

/-- The length of a read that ends at `size` at the latest (filesystem.c 769–771, 778–780). -/
def clampLen (readlen offset size : Int64) : Int64 :=
  if readlen + offset < 0 || readlen + offset > size then size - offset else readlen

/-- `fs_read` from a directory (filesystem.c 763–774). -/
def readDirHandle (v : Vfs) (ec : Cause) (index : ℕ) (ptr : VfsFileHandle) (readlen : Int64) :
    Option (Int64 × Cause × Option (List UInt8) × Vfs) := do
  let _ ← (v.heap ptr.shared).vfs
  let (mem, v') := v.alloc
  let (ec, cache, v) ←
    if ptr.offset = 0 then
      (vfsRamfsDirRead v.fs (v.heap ptr.shared) ptr.dirCache mem).map fun r => (r.1, r.2, v')
    else some (ec, ptr.dirCache, v)
  if ptr.offset ≠ 0 ∨ ec = .ok then
    let readlen := clampLen readlen ptr.offset (Int64.ofNat cache.length)
    -- a copy of a negative length does not end
    if readlen < 0 then none
    else return (readlen, ec, some (load cache ptr.offset.toNatClampNeg readlen.toNatClampNeg),
      v.setHandle index { ptr with dirCache := cache, offset := ptr.offset + readlen })
  else return (readlen, ec, none, v.setHandle index { ptr with dirCache := cache })

/-- `fs_read` (filesystem.c 737–788): the result, the error code and the bytes written to
    `readbuf`, if any. -/
def fsRead (v : Vfs) (ec : Cause) (file : Int32) (readlen : Int64) :
    Option (Int64 × Cause × Option (List UInt8) × Vfs) :=
  if readlen < 0 then none
  else
    match vfsFileByHandle v file with
    | none => some (0, .param, none, v)
    | some index => do
      let ptr ← v.handleList[index]?
      if !ptr.read then return (0, .perm, none, v)
      if ptr.isDir then readDirHandle v ec index ptr readlen
      else
        let shared := v.heap ptr.shared
        let readlen := clampLen readlen ptr.offset shared.size
        let _ ← shared.vfs
        let (ec, data) ← vfsRamfsFileRead v.fs shared ptr.offset readlen
        return (readlen, ec, data, v.setHandle index { ptr with offset := ptr.offset + readlen })

/-- The file grows before a write that ends behind its end (filesystem.c 826–828). -/
def growFile (v : Vfs) (ec : Cause) (p : ℕ) (size : Int64) : Option (Cause × Vfs) :=
  if size > (v.heap p).size then do
    let (mem, v) := v.alloc
    let (ec, fs, shared) ← vfsRamfsFileResize ec v.fs (v.heap p) size mem
    return (ec, { v.setShared p shared with fs := fs })
  else some (ec, v)

/-- `fs_write` (filesystem.c 792–834). -/
def fsWrite (v : Vfs) (ec : Cause) (file : Int32) (writebuf : ℕ → UInt8) (writelen : Int64) :
    Option (Int64 × Cause × Vfs) :=
  if writelen < 0 then none
  else
    match vfsFileByHandle v file with
    | none => some (0, .param, v)
    | some index => do
      let ptr ← v.handleList[index]?
      if !ptr.write then return (0, .perm, v)
      if writelen + ptr.offset < 0 then return (0, .nospace, v)
      let _ ← (v.heap ptr.shared).vfs
      let (_, v) ← growFile v ec ptr.shared (ptr.offset + writelen)
      let (ec, fs) ← vfsRamfsFileWrite v.fs (v.heap ptr.shared) ptr.offset writebuf writelen
      return (writelen, ec, v.setFs fs)

/-- `fs_seek_t` (filesystem.h 77–84), and a value that is none of them. -/
inductive SeekMode
  | abs | cur | fromEnd | invalid
  deriving DecidableEq, Repr

/-- The offset before it is clamped (filesystem.c 874–879). -/
def seekOffset (offset size off : Int64) : SeekMode → Cause × Int64
  | .abs => (.ok, off)
  | .cur => (.ok, offset + off)
  | .fromEnd => (.ok, size + off)
  | .invalid => (.param, offset)

/-- The offset is clamped to the file or to the cache of the directory (filesystem.c 881–887). -/
def clampOffset (ptr : VfsFileHandle) (size offset : Int64) : Int64 :=
  if offset < 0 then 0
  else if !ptr.isDir && offset > size then size
  else if ptr.isDir && offset > Int64.ofNat ptr.dirCache.length then
    Int64.ofNat ptr.dirCache.length
  else offset

/-- `fs_seek` (filesystem.c 858–893): the new offset. -/
def fsSeek (v : Vfs) (file : Int32) (off : Int64) (seekmode : SeekMode) :
    Option (Int64 × Cause × Vfs) :=
  match vfsFileByHandle v file with
  | none => some (0, .param, v)
  | some index => do
    let ptr ← v.handleList[index]?
    let size := (v.heap ptr.shared).size
    let (ec, offset) := seekOffset ptr.offset size off seekmode
    let offset := clampOffset ptr size offset
    return (offset, ec, v.setHandle index { ptr with offset := offset })

end BadgerOS.Filesystem
