import BadgerOS.Filesystem.RamfsFile
import BadgerOS.Filesystem.VfsIo
import BadgerOS.Filesystem.VfsSearch

/-!
# Offsets of open files

Any calls of `fs_read`, `fs_write` and `fs_seek` on open files, with any outcome of
`realloc`.

* `FilesOk`: every file has one shared handle with the length of its inode, and the offsets
  lie inside.
* `fsRead_spec`, `fsWrite_spec`, `fsSeek_spec`: what each call does to such a file.
* `io_keeps_offsets`: the offsets stay inside the files over whole runs, a read returns the
  bytes of the file at the offset, and a seek goes where it is sent.
* `fsWrite_inOrder_iff`: a write never advances the offset, so a sequence of writes is laid
  down in order only if none of them writes anything.
-/

namespace BadgerOS.Filesystem

open Buffer Function List Option Vfs
open Int64 (lt_iff_toInt_lt toInt_zero)
open Option (bind_eq_bind bind_some)

/-! ## Finding a handle -/

/-- File number `file` is the handle `ptr` at `index`. -/
structure HandleAt (v : Vfs) (file : Int32) (index : ℕ) (ptr : VfsFileHandle) : Prop where
  found : vfsFileByHandle v file = some index
  get : v.handleList[index]? = some ptr

variable {index : ℕ} {ptr : VfsFileHandle} {v : Vfs}

theorem HandleAt.fileno_eq {file : Int32} (h : HandleAt v file index ptr) : ptr.fileno = file := by
  obtain ⟨hlt, hfile, _⟩ := findIdx?_eq_some_iff_getElem.mp h.found
  have hget := h.get
  rw [getElem?_eq_getElem hlt, some_inj] at hget
  rw [← hget]
  exact of_decide_eq_true hfile

theorem HandleAt.unique {file : Int32} {index' : ℕ} {ptr' : VfsFileHandle}
    (h : HandleAt v file index ptr) (h' : HandleAt v file index' ptr') :
    index = index' ∧ ptr = ptr' := by
  obtain rfl : index = index' := some.inj (h.found.symm.trans h'.found)
  exact ⟨rfl, some.inj (h.get.symm.trans h'.get)⟩

theorem vfsFileByHandle_eq (v : Vfs) (file : Int32) :
    vfsFileByHandle v file = (v.handleList.map (·.fileno)).findIdx? (· = file) := by
  rw [findIdx?_map]
  rfl

theorem HandleAt.setOffset {file file' : Int32} {index' : ℕ} {ptr' : VfsFileHandle}
    (h : HandleAt v file index ptr) (h' : HandleAt v file' index' ptr') (offset : Int64) :
    HandleAt (v.setHandle index { ptr with offset := offset }) file' index'
      (if file' = file then { ptr with offset := offset } else ptr') := by
  constructor
  · have hfilenos : (v.setHandle index { ptr with offset := offset }).handleList.map (·.fileno) =
        v.handleList.map (·.fileno) := by
      refine ext_getElem? fun k => ?_
      rw [setHandle_handleList, getElem?_map, getElem?_map, getElem?_set]
      by_cases hk : index = k
      · subst hk
        have hlt := (List.getElem?_eq_some_iff.mp h.get).1
        rw [if_pos rfl, if_pos hlt, h.get]
        rfl
      · rw [if_neg hk]
    rw [vfsFileByHandle_eq, hfilenos, ← vfsFileByHandle_eq, h'.found]
  · rw [setHandle_handleList, getElem?_set]
    by_cases hfile : file' = file
    · subst hfile
      obtain ⟨rfl, rfl⟩ := h.unique h'
      rw [if_pos rfl, if_pos (List.getElem?_eq_some_iff.mp h.get).1, if_pos rfl]
    · have hne : index ≠ index' := by
        rintro rfl
        obtain rfl : ptr = ptr' := some.inj (h.get.symm.trans h'.get)
        exact hfile (h'.fileno_eq.symm.trans h.fileno_eq)
      rw [if_neg hne, if_neg hfile, h'.get]

/-! ## Open files -/

/-- The handle is on the file in inode `i`, with its offset in the size of the shared handle. -/
structure OpenOn (v : Vfs) (ptr : VfsFileHandle) (i : ℕ) : Prop where
  vfs_eq : (v.heap ptr.shared).vfs = some rootVfs
  inv : FileInv i ⟨v.fs, v.heap ptr.shared⟩
  offset_nonneg : 0 ≤ ptr.offset.toInt
  offset_le : ptr.offset.toInt ≤ (v.heap ptr.shared).size.toInt

theorem OpenOn.congr {w : Vfs} {i : ℕ} (h : OpenOn v ptr i)
    (hheap : w.heap ptr.shared = v.heap ptr.shared) (hfs : w.fs.inodeList i = v.fs.inodeList i) :
    OpenOn w ptr i where
  vfs_eq := by
    rw [hheap]
    exact h.vfs_eq
  inv := by
    refine ⟨?_, ?_⟩
    · rw [hheap]
      exact h.inv.ramfsFile_eq
    · rw [hfs]
      exact h.inv.wf
  offset_nonneg := h.offset_nonneg
  offset_le := by
    rw [hheap]
    exact h.offset_le

/-- The bytes of the file in inode `i`. -/
def Vfs.contents (v : Vfs) (i : ℕ) : List UInt8 := (v.fs.inodeList i).contents

/-- The files are open, each of them with one shared handle that has its length. -/
structure FilesOk (files : Set Int32) (v : Vfs) : Prop where
  opened : ∀ file ∈ files, ∃ index ptr i, HandleAt v file index ptr ∧ ptr.isDir = false ∧
    OpenOn v ptr i ∧ (v.heap ptr.shared).size.toInt = (v.fs.inodeList i).len
  shared_eq : ∀ {file file' index index' ptr ptr'}, file ∈ files → file' ∈ files →
    HandleAt v file index ptr → HandleAt v file' index' ptr' →
    (v.heap ptr.shared).ramfsFile = (v.heap ptr'.shared).ramfsFile → ptr.shared = ptr'.shared

/-- The state after a write: the shared handle has a new size, the inode new contents. -/
@[simps]
def Vfs.wrote (v : Vfs) (p : ℕ) (size : Int64) (i : ℕ) (inode : Inode) (mem : ℕ → Realloc) : Vfs :=
  { v with
    heap := update v.heap p { v.heap p with size := size }
    fs := v.fs.setInode i inode
    mem := mem }

/-- The array with `b` written at `o`, which is in it or at its end. -/
def overwrite (a : List UInt8) (o : ℕ) (b : List UInt8) : List UInt8 :=
  a.take o ++ (b ++ a.drop (o + b.length))

theorem store_resizeArray {a b : List UInt8} {o : ℕ} (ho : o ≤ a.length) :
    store (resizeArray a (max a.length (o + b.length))) o b = overwrite a o b := by
  rw [resizeArray, take_of_length_le (le_max_left _ _), store_eq, overwrite,
    take_append_of_le_length ho, drop_append]
  · have hzeros : (List.replicate (max a.length (o + b.length) - a.length) (0 : UInt8)).drop
        (o + b.length - a.length) = [] := by
      rw [drop_replicate, replicate_eq_nil_iff]
      omega
    rw [hzeros, append_nil]
  · rw [length_append, length_replicate]
    omega

theorem length_overwrite {a b : List UInt8} {o : ℕ} (ho : o ≤ a.length) :
    (overwrite a o b).length = max a.length (o + b.length) := by
  simp only [overwrite, length_append, length_take, length_drop]
  omega

/-! ## One call -/

/-- A read ends at the end of the file at the latest. -/
theorem toInt_clampLen {readlen offset size : Int64} (hr : 0 ≤ readlen.toInt)
    (hoffset : 0 ≤ offset.toInt) (hle : offset.toInt ≤ size.toInt) :
    (clampLen readlen offset size).toInt = min readlen.toInt (size.toInt - offset.toInt) := by
  have hsub : (size - offset).toInt = size.toInt - offset.toInt :=
    toInt_sub_of_nonneg (hoffset.trans hle) hoffset
  have hlt := size.toInt_lt
  simp only [clampLen, Bool.or_eq_true, decide_eq_true_eq, gt_iff_lt, lt_iff_toInt_lt, toInt_zero]
  rcases toInt_add_cases (b := offset) hr with ⟨hsum, _⟩ | ⟨hneg, hge⟩
  · split_ifs with hout
    · rw [hsub]
      omega
    · omega
  · rw [if_pos (.inl hneg), hsub]
    omega

theorem not_neg_of_toInt {n : Int64} (hn : 0 ≤ n.toInt) : ¬ n < 0 := by
  rw [lt_iff_toInt_lt, toInt_zero]
  omega

section

variable {v : Vfs} {file : Int32} {index i : ℕ} {ptr : VfsFileHandle}

theorem fsRead_spec (hat : HandleAt v file index ptr) (hdir : ptr.isDir = false)
    (hread : ptr.read = true) (hopen : OpenOn v ptr i)
    (hsize : (v.heap ptr.shared).size.toInt = (v.fs.inodeList i).len) (ec : Cause) {r : Int64}
    (hr : 0 ≤ r.toInt) :
    ∃ n : Int64, n.toInt = min r.toInt ((v.heap ptr.shared).size.toInt - ptr.offset.toInt) ∧
      (ptr.offset + n).toInt = ptr.offset.toInt + n.toInt ∧
      fsRead v ec file r =
        some (n, .ok, some (load (v.contents i) ptr.offset.toNatClampNeg n.toNatClampNeg),
          v.setHandle index { ptr with offset := ptr.offset + n }) := by
  have hnonneg := hopen.offset_nonneg
  have hle := hopen.offset_le
  have hn := toInt_clampLen hr hnonneg hle
  refine ⟨clampLen r ptr.offset (v.heap ptr.shared).size, hn, ?_, ?_⟩
  · have hlt := (v.heap ptr.shared).size.toInt_lt
    rcases toInt_add_cases (b := clampLen r ptr.offset (v.heap ptr.shared).size) hnonneg with
      ⟨hsum, _⟩ | ⟨_, hge⟩
    · exact hsum
    · omega
  · have hneg := not_neg_of_toInt hr
    have hin : InFile (v.contents i).length ptr.offset
        (clampLen r ptr.offset (v.heap ptr.shared).size) := by
      have hlen : (v.contents i).length = (v.fs.inodeList i).len := hopen.inv.length_contents
      refine ⟨hnonneg, ?_, ?_⟩ <;> omega
    rcases vfsRamfsFileRead_spec hopen.inv ptr.offset
      (clampLen r ptr.offset (v.heap ptr.shared).size) with ⟨_, heq⟩ | ⟨hout, _⟩
    · dsimp only at heq
      simp only [fsRead, if_neg hneg, hat.found, hat.get, hread, hdir, hopen.vfs_eq, heq,
        bind_eq_bind, bind_some, Option.pure_def, Bool.not_true,
        Bool.false_eq_true, if_false]
      rfl
    · exact absurd hin hout

theorem fsRead_perm (hat : HandleAt v file index ptr) (hread : ptr.read = false) (ec : Cause)
    {r : Int64} (hr : 0 ≤ r.toInt) : fsRead v ec file r = some (0, .perm, none, v) := by
  have hneg := not_neg_of_toInt hr
  simp [fsRead, if_neg hneg, hat.found, hat.get, hread]

theorem growFile_spec (hopen : OpenOn v ptr i)
    (hsize : (v.heap ptr.shared).size.toInt = (v.fs.inodeList i).len) (ec : Cause) {s : Int64}
    (hnonneg : 0 ≤ s.toInt) : (∃ ec' size' inode mem,
        growFile v ec ptr.shared s = some (ec', v.wrote ptr.shared size' i inode mem) ∧
        size'.toInt = max (v.heap ptr.shared).size.toInt s.toInt ∧ inode.Wf ∧
        inode.contents = resizeArray (v.contents i) size'.toNatClampNeg) ∨
      (v.heap ptr.shared).size.toInt < s.toInt ∧
        growFile v ec ptr.shared s = some (ec, v.alloc.2) := by
  have hlen : (v.contents i).length = (v.fs.inodeList i).len := hopen.inv.length_contents
  by_cases hgrow : (v.heap ptr.shared).size.toInt < s.toInt
  · have hgrow' : s > (v.heap ptr.shared).size := lt_iff_toInt_lt.mpr hgrow
    rcases vfsRamfsFileResize_spec hopen.inv ec (v.mem 0) hnonneg with
      ⟨ec', inode, heq, _, hwf, _, hcontents⟩ | ⟨_, _, heq⟩
    · refine .inl ⟨ec', s, inode, fun k => v.mem (k + 1), ?_, by omega, hwf, hcontents⟩
      dsimp only at heq
      simp only [growFile, if_pos hgrow', alloc, heq, bind_eq_bind, bind_some, Option.pure_def]
      rfl
    · refine .inr ⟨hgrow, ?_⟩
      dsimp only at heq
      simp only [growFile, if_pos hgrow', alloc, heq, bind_eq_bind, bind_some, Option.pure_def]
      rw [setShared, update_eq_self]
  · have hgrow' : ¬ s > (v.heap ptr.shared).size := fun h =>
      hgrow (lt_iff_toInt_lt.mp h)
    refine .inl ⟨ec, (v.heap ptr.shared).size, v.fs.inodeList i, v.mem, ?_, by omega,
      hopen.inv.wf, ?_⟩
    · rw [growFile, if_neg hgrow', wrote, update_eq_self, setInode_self]
    · have hcast := natCast_toNatClampNeg (hopen.offset_nonneg.trans hopen.offset_le)
      have hfull : (v.heap ptr.shared).size.toNatClampNeg = (v.contents i).length := by omega
      rw [hfull, resizeArray, take_length, Nat.sub_self, replicate_zero, append_nil]
      rfl

variable {n size : Int64}

/-- The test for a write that ends behind the largest offset (filesystem.c 819). -/
theorem add_lt_zero_iff {offset : Int64} (hn : 0 ≤ n.toInt) (hoffset : 0 ≤ offset.toInt) :
    n + offset < 0 ↔ 2 ^ 63 ≤ offset.toInt + n.toInt := by
  rw [lt_iff_toInt_lt, toInt_zero]
  rcases toInt_add_cases (b := offset) hn with ⟨hsum, _⟩ | ⟨hneg, hge⟩ <;> omega

theorem length_bytesOf (buf : ℕ → UInt8) (n : ℕ) : (bytesOf buf n).length = n := by
  rw [bytesOf, length_map, length_range]

theorem fsWrite_perm (hat : HandleAt v file index ptr) (hwrite : ptr.write = false) (ec : Cause)
    (buf : ℕ → UInt8) (hn : 0 ≤ n.toInt) : fsWrite v ec file buf n = some (0, .perm, v) := by
  have hneg := not_neg_of_toInt hn
  simp [fsWrite, if_neg hneg, hat.found, hat.get, hwrite]

theorem write_grown (hopen : OpenOn v ptr i) (hin : ptr.offset.toInt ≤ (v.fs.inodeList i).len)
    (buf : ℕ → UInt8) (hn : 0 ≤ n.toInt) {inode : Inode}
    (hsize : size.toInt = max ((v.fs.inodeList i).len : ℤ) (ptr.offset.toInt + n.toInt))
    (hwf : inode.Wf) (hcontents : inode.contents = resizeArray (v.contents i) size.toNatClampNeg) :
    ∃ inode', vfsRamfsFileWrite (v.fs.setInode i inode)
        { v.heap ptr.shared with size := size } ptr.offset buf n =
          some (.ok, v.fs.setInode i inode') ∧
      inode'.Wf ∧ size.toInt = inode'.len ∧ inode'.contents =
        overwrite (v.contents i) ptr.offset.toNatClampNeg (bytesOf buf n.toNatClampNeg) := by
  have hlen : (v.contents i).length = (v.fs.inodeList i).len := hopen.inv.length_contents
  have hoffset := natCast_toNatClampNeg hopen.offset_nonneg
  have hcount := natCast_toNatClampNeg hn
  have hcast := natCast_toNatClampNeg (x := size) (by omega)
  have hinv : FileInv i ⟨v.fs.setInode i inode, { v.heap ptr.shared with size := size }⟩ :=
    ⟨hopen.inv.ramfsFile_eq, by rw [setInode_same]; exact hwf⟩
  have hgrown : FileState.contents i
      ⟨v.fs.setInode i inode, { v.heap ptr.shared with size := size }⟩ =
      resizeArray (v.contents i) (max (v.contents i).length
        (ptr.offset.toNatClampNeg + (bytesOf buf n.toNatClampNeg).length)) := by
    have hmax : size.toNatClampNeg = max (v.contents i).length
        (ptr.offset.toNatClampNeg + (bytesOf buf n.toNatClampNeg).length) := by
      rw [length_bytesOf]
      omega
    rw [FileState.contents, setInode_same, hcontents, hmax]
  rcases vfsRamfsFileWrite_spec hinv ptr.offset n buf with
    ⟨_, inode', heq, hwf', _, hstore⟩ | ⟨hout, _⟩
  · rw [hgrown, store_resizeArray (by omega)] at hstore
    refine ⟨inode', ?_, hwf', ?_, hstore⟩
    · dsimp only at heq
      rw [heq, setInode_setInode]
    · rw [← hwf'.length_contents, hstore, length_overwrite (by omega), length_bytesOf]
      omega
  · refine absurd ⟨hopen.offset_nonneg, hn, ?_⟩ hout
    rw [hgrown, resizeArray, length_append, length_take, length_replicate, length_bytesOf]
    omega

section

variable (hat : HandleAt v file index ptr) (hwrite : ptr.write = true) (hopen : OpenOn v ptr i)
  (ec : Cause) (buf : ℕ → UInt8) (hn : 0 ≤ n.toInt)

include hat hwrite hopen hn

theorem fsWrite_nospace (hover : 2 ^ 63 ≤ ptr.offset.toInt + n.toInt) :
    fsWrite v ec file buf n = some (0, .nospace, v) := by
  have hneg := not_neg_of_toInt hn
  have hover' : n + ptr.offset < 0 := (add_lt_zero_iff hn hopen.offset_nonneg).mpr hover
  simp [fsWrite, if_neg hneg, hat.found, hat.get, hwrite, if_pos hover']

theorem fsWrite_eq (hfits : ptr.offset.toInt + n.toInt < 2 ^ 63) :
    fsWrite v ec file buf n = (growFile v ec ptr.shared (ptr.offset + n)).bind fun r =>
      (vfsRamfsFileWrite r.2.fs (r.2.heap ptr.shared) ptr.offset buf n).bind fun w =>
        some (n, w.1, r.2.setFs w.2) := by
  have hneg := not_neg_of_toInt hn
  have hover : ¬ n + ptr.offset < 0 := fun h =>
    absurd ((add_lt_zero_iff hn hopen.offset_nonneg).mp h) (by omega)
  simp [fsWrite, if_neg hneg, hat.found, hat.get, hwrite, if_neg hover, hopen.vfs_eq]

/-- `fs_write` is refused, writes the bytes at the offset, or finds no memory to grow the
    file. In the last case it still returns the number of bytes. The offset stays. -/
theorem fsWrite_spec (hsize : (v.heap ptr.shared).size.toInt = (v.fs.inodeList i).len) :
    fsWrite v ec file buf n = some (0, .nospace, v) ∨ (∃ size inode mem,
        fsWrite v ec file buf n = some (n, .ok, v.wrote ptr.shared size i inode mem) ∧
        (v.heap ptr.shared).size.toInt ≤ size.toInt ∧ size.toInt = inode.len ∧ inode.Wf ∧
        inode.contents =
          overwrite (v.contents i) ptr.offset.toNatClampNeg (bytesOf buf n.toNatClampNeg)) ∨
      fsWrite v ec file buf n = some (n, .range, v.alloc.2) := by
  by_cases hfits : ptr.offset.toInt + n.toInt < 2 ^ 63
  swap
  · exact .inl (fsWrite_nospace hat hwrite hopen ec buf hn (not_lt.mp hfits))
  have hnonneg := hopen.offset_nonneg
  have hle := hopen.offset_le
  have hend : (ptr.offset + n).toInt = ptr.offset.toInt + n.toInt := by
    rcases toInt_add_cases (b := n) hnonneg with ⟨hsum, _⟩ | ⟨_, hge⟩
    · exact hsum
    · omega
  rw [fsWrite_eq hat hwrite hopen ec buf hn hfits]
  rcases growFile_spec hopen hsize ec (s := ptr.offset + n) (by omega) with
    ⟨ec', size, inode, mem, heq, hsize', hwf, hcontents⟩ | ⟨hlt, heq⟩
  · obtain ⟨inode', hwrote, hwf', hlen', hcontents'⟩ :=
      write_grown hopen (by omega) buf hn (by omega) hwf hcontents
    refine .inr (.inl ⟨size, inode', mem, ?_, by omega, hlen', hwf', hcontents'⟩)
    simp only [heq, bind_some, wrote_fs, wrote_heap, update_self, hwrote]
    rfl
  · refine .inr (.inr ?_)
    have hlen : (v.contents i).length = (v.fs.inodeList i).len := hopen.inv.length_contents
    rcases vfsRamfsFileWrite_spec hopen.inv ptr.offset n buf with ⟨hin, _⟩ | ⟨_, hwrote⟩
    · have hin' : ptr.offset.toInt + n.toInt ≤ (v.contents i).length := hin.2.2
      omega
    · dsimp only at hwrote
      simp only [heq, bind_some, alloc, hwrote]
      rfl

end

/-- Where a seek is to go. -/
def seekTarget (offset size off : ℤ) : SeekMode → Option ℤ
  | .abs => some off
  | .cur => some (offset + off)
  | .fromEnd => some (size + off)
  | .invalid => none

/-- The offset before it is clamped is the target, unless that overflows. -/
theorem seekOffset_spec {offset off : Int64} {mode : SeekMode} {t : ℤ}
    (ht : seekTarget offset.toInt size.toInt off.toInt mode = some t) (hmin : -2 ^ 63 ≤ t)
    (hmax : t < 2 ^ 63) :
    (seekOffset offset size off mode).1 = .ok ∧ (seekOffset offset size off mode).2.toInt = t := by
  cases mode with
  | abs => exact ⟨rfl, some.inj ht⟩
  | cur =>
    obtain rfl : offset.toInt + off.toInt = t := some.inj ht
    refine ⟨rfl, ?_⟩
    rw [seekOffset, Int64.toInt_add, Int.bmod_def]
    omega
  | fromEnd =>
    obtain rfl : size.toInt + off.toInt = t := some.inj ht
    refine ⟨rfl, ?_⟩
    rw [seekOffset, Int64.toInt_add, Int.bmod_def]
    omega
  | invalid => exact absurd ht (some_ne_none t).symm

theorem toInt_clampOffset (hdir : ptr.isDir = false) (hsize : 0 ≤ size.toInt) (offset : Int64) :
    (clampOffset ptr size offset).toInt = max 0 (min offset.toInt size.toInt) := by
  simp only [clampOffset, hdir, Bool.not_false, Bool.true_and, Bool.false_and, decide_eq_true_eq,
    Bool.false_eq_true, if_false, gt_iff_lt, lt_iff_toInt_lt, toInt_zero]
  split_ifs with hneg hgt
  · rw [toInt_zero]
    omega
  · omega
  · omega

theorem fsSeek_spec (hat : HandleAt v file index ptr) (hdir : ptr.isDir = false)
    (hopen : OpenOn v ptr i) (off : Int64) (mode : SeekMode) : ∃ ec offset, fsSeek v file off mode =
        some (offset, ec, v.setHandle index { ptr with offset := offset }) ∧
      0 ≤ offset.toInt ∧ offset.toInt ≤ (v.heap ptr.shared).size.toInt ∧
      ∀ t, seekTarget ptr.offset.toInt (v.heap ptr.shared).size.toInt off.toInt mode = some t →
        -2 ^ 63 ≤ t → t < 2 ^ 63 →
        ec = .ok ∧ offset.toInt = max 0 (min t (v.heap ptr.shared).size.toInt) := by
  have hsize : 0 ≤ (v.heap ptr.shared).size.toInt := hopen.offset_nonneg.trans hopen.offset_le
  rcases hseek : seekOffset ptr.offset (v.heap ptr.shared).size off mode with ⟨ec, offset⟩
  have hclamp := toInt_clampOffset hdir hsize offset
  refine ⟨ec, clampOffset ptr (v.heap ptr.shared).size offset, ?_, by omega, by omega, ?_⟩
  · simp [fsSeek, hat.found, hat.get, hseek]
  · intro t ht hmin hmax
    obtain ⟨hec, htarget⟩ := hseek ▸ seekOffset_spec ht hmin hmax
    rw [htarget] at hclamp
    exact ⟨hec, hclamp⟩

end

/-! ## Runs -/

/-- The calls on open files, with the error code that the caller passes in. -/
inductive IoCall
  | read (ec : Cause) (file : Int32) (readlen : Int64)
  | write (ec : Cause) (file : Int32) (writebuf : ℕ → UInt8) (writelen : Int64)
  | seek (file : Int32) (off : Int64) (seekmode : SeekMode)

/-- The file of a call. -/
def IoCall.file : IoCall → Int32
  | .read _ file _ => file
  | .write _ file _ _ => file
  | .seek file _ _ => file

/-- The result of a call, the error code after it and the bytes that it wrote to the buffer of
    the caller. -/
structure IoOut where
  result : Int64
  ec : Cause
  data : Option (List UInt8)
  deriving DecidableEq, Repr

/-- A call on an open file. -/
def ioStep (v : Vfs) : IoCall → Option (IoOut × Vfs)
  | .read ec file readlen => (fsRead v ec file readlen).map fun r => (⟨r.1, r.2.1, r.2.2.1⟩, r.2.2.2)
  | .write ec file writebuf writelen =>
    (fsWrite v ec file writebuf writelen).map fun r => (⟨r.1, r.2.1, none⟩, r.2.2)
  | .seek file off seekmode => (fsSeek v file off seekmode).map fun r => (⟨r.1, r.2.1, none⟩, r.2.2)

section

variable {files : Set Int32} {v : Vfs} {file : Int32} {index i : ℕ} {ptr : VfsFileHandle}

theorem FilesOk.setOffset (h : FilesOk files v) (hat : HandleAt v file index ptr) {offset : Int64}
    (hnonneg : 0 ≤ offset.toInt) (hle : offset.toInt ≤ (v.heap ptr.shared).size.toInt) :
    FilesOk files (v.setHandle index { ptr with offset := offset }) where
  opened := by
    intro file' hfile'
    obtain ⟨index', ptr', i', hat', hdir', hopen', hsize'⟩ := h.opened file' hfile'
    refine ⟨index', _, i', hat.setOffset hat' offset, ?_⟩
    by_cases hfile : file' = file
    · subst hfile
      obtain ⟨rfl, rfl⟩ := hat.unique hat'
      rw [if_pos rfl]
      exact ⟨hdir', ⟨hopen'.vfs_eq, hopen'.inv, hnonneg, hle⟩, hsize'⟩
    · rw [if_neg hfile]
      exact ⟨hdir', ⟨hopen'.vfs_eq, hopen'.inv, hopen'.offset_nonneg, hopen'.offset_le⟩, hsize'⟩
  shared_eq := by
    -- the handles found before and after point to the same shared handles
    have hback : ∀ {f k q}, f ∈ files →
        HandleAt (v.setHandle index { ptr with offset := offset }) f k q →
        ∃ k' q', HandleAt v f k' q' ∧ q.shared = q'.shared := by
      intro f k q hf hq
      obtain ⟨k', q', _, hat', _⟩ := h.opened f hf
      obtain ⟨rfl, rfl⟩ := hq.unique (hat.setOffset hat' offset)
      refine ⟨k, q', hat', ?_⟩
      by_cases hfile : f = file
      · subst hfile
        rw [if_pos rfl, (hat.unique hat').2]
      · rw [if_neg hfile]
    intro f f' k k' q q' hf hf' hq hq' heq
    obtain ⟨_, r, hr, hshared⟩ := hback hf hq
    obtain ⟨_, r', hr', hshared'⟩ := hback hf' hq'
    rw [hshared, hshared'] at heq ⊢
    exact h.shared_eq hf hf' hr hr' heq

theorem FilesOk.wrote (h : FilesOk files v) (hfile : file ∈ files) (hat : HandleAt v file index ptr)
    (hopen : OpenOn v ptr i) {size : Int64} {inode : Inode} (mem : ℕ → Realloc)
    (hgrow : (v.heap ptr.shared).size.toInt ≤ size.toInt) (hsize : size.toInt = inode.len)
    (hwf : inode.Wf) : FilesOk files (v.wrote ptr.shared size i inode mem) where
  opened := by
    intro file' hfile'
    obtain ⟨index', ptr', i', hat', hdir', hopen', hsize'⟩ := h.opened file' hfile'
    refine ⟨index', ptr', i', ⟨hat'.found, hat'.get⟩, hdir', ?_⟩
    by_cases hshared : ptr'.shared = ptr.shared
    · obtain rfl : i = i' := by
        have heq := hopen'.inv.ramfsFile_eq
        rw [hshared] at heq
        exact some.inj (hopen.inv.ramfsFile_eq.symm.trans heq)
      have hheap : (v.wrote ptr.shared size i inode mem).heap ptr'.shared =
          { v.heap ptr.shared with size := size } := by
        rw [wrote_heap, hshared, update_self]
      have hle := hopen'.offset_le
      rw [hshared] at hle
      refine ⟨⟨?_, ⟨?_, ?_⟩, hopen'.offset_nonneg, ?_⟩, ?_⟩
      · rw [hheap]
        exact hopen.vfs_eq
      · rw [hheap]
        exact hopen.inv.ramfsFile_eq
      · rw [wrote_fs, setInode_same]
        exact hwf
      · rw [hheap]
        exact hle.trans hgrow
      · rw [hheap, wrote_fs, setInode_same]
        exact hsize
    · have hinode : i' ≠ i := by
        rintro rfl
        refine hshared (h.shared_eq hfile' hfile hat' hat ?_)
        exact hopen'.inv.ramfsFile_eq.trans hopen.inv.ramfsFile_eq.symm
      have hheap : (v.wrote ptr.shared size i inode mem).heap ptr'.shared = v.heap ptr'.shared := by
        rw [wrote_heap, update_of_ne hshared]
      have hfs : (v.wrote ptr.shared size i inode mem).fs.inodeList i' = v.fs.inodeList i' := by
        rw [wrote_fs, setInode_of_ne _ _ hinode]
      refine ⟨hopen'.congr hheap hfs, ?_⟩
      rw [hheap, hfs]
      exact hsize'
  shared_eq := by
    have hsame : ∀ q, ((v.wrote ptr.shared size i inode mem).heap q).ramfsFile =
        (v.heap q).ramfsFile := by
      intro q
      rw [wrote_heap]
      by_cases hq : q = ptr.shared
      · rw [hq, update_self]
      · rw [update_of_ne hq]
    intro f f' k k' q q' hf hf' hq hq' heq
    rw [hsame, hsame] at heq
    exact h.shared_eq hf hf' ⟨hq.found, hq.get⟩ ⟨hq'.found, hq'.get⟩ heq

theorem FilesOk.alloc (h : FilesOk files v) : FilesOk files v.alloc.2 where
  opened := by
    intro file hfile
    obtain ⟨index, ptr, i, hat, hdir, hopen, hsize⟩ := h.opened file hfile
    exact ⟨index, ptr, i, ⟨hat.found, hat.get⟩, hdir,
      ⟨hopen.vfs_eq, hopen.inv, hopen.offset_nonneg, hopen.offset_le⟩, hsize⟩
  shared_eq := fun hf hf' hq hq' heq =>
    h.shared_eq hf hf' ⟨hq.found, hq.get⟩ ⟨hq'.found, hq'.get⟩ heq

variable {w : Vfs}

section

variable (h : FilesOk files v) (hfile : file ∈ files)

include h hfile

theorem FilesOk.fsRead {ec ec' : Cause} {r n : Int64} {data : Option (List UInt8)}
    (heq : fsRead v ec file r = some (n, ec', data, w)) : FilesOk files w := by
  obtain ⟨index, ptr, i, hat, hdir, hopen, hsize⟩ := h.opened _ hfile
  by_cases hr : r < 0
  · rw [Filesystem.fsRead, if_pos hr] at heq
    exact absurd heq (some_ne_none _).symm
  have hr' : 0 ≤ r.toInt := not_lt.mp fun hlt => hr (lt_iff_toInt_lt.mpr hlt)
  rcases hread : ptr.read with _ | _
  · rw [fsRead_perm hat hread ec hr'] at heq
    obtain ⟨-, -, -, rfl⟩ := heq
    exact h
  · obtain ⟨n', hn, hsum, hspec⟩ := fsRead_spec hat hdir hread hopen hsize ec hr'
    have hnonneg := hopen.offset_nonneg
    have hle := hopen.offset_le
    obtain ⟨-, -, -, rfl⟩ := hspec.symm.trans heq
    exact h.setOffset hat (by omega) (by omega)

theorem FilesOk.fsWrite {ec ec' : Cause} {buf : ℕ → UInt8} {n n' : Int64}
    (heq : fsWrite v ec file buf n = some (n', ec', w)) : FilesOk files w := by
  obtain ⟨index, ptr, i, hat, hdir, hopen, hsize⟩ := h.opened _ hfile
  by_cases hn : n < 0
  · rw [Filesystem.fsWrite, if_pos hn] at heq
    exact absurd heq (some_ne_none _).symm
  have hn' : 0 ≤ n.toInt := not_lt.mp fun hlt => hn (lt_iff_toInt_lt.mpr hlt)
  rcases hwrite : ptr.write with _ | _
  · rw [fsWrite_perm hat hwrite ec buf hn'] at heq
    obtain ⟨-, -, rfl⟩ := heq
    exact h
  · rcases fsWrite_spec hat hwrite hopen ec buf hn' hsize with
      hspec | ⟨size, inode, mem, hspec, hgrow, hlen, hwf, _⟩ | hspec <;>
      obtain ⟨-, -, rfl⟩ := hspec.symm.trans heq
    · exact h
    · exact h.wrote hfile hat hopen mem hgrow hlen hwf
    · exact h.alloc

theorem FilesOk.fsSeek {ec : Cause} {off offset : Int64} {mode : SeekMode}
    (heq : fsSeek v file off mode = some (offset, ec, w)) : FilesOk files w := by
  obtain ⟨index, ptr, i, hat, hdir, hopen, hsize⟩ := h.opened _ hfile
  obtain ⟨ec', offset', hspec, hnonneg, hle, _⟩ := fsSeek_spec hat hdir hopen off mode
  obtain ⟨-, -, rfl⟩ := hspec.symm.trans heq
  exact h.setOffset hat hnonneg hle

end

theorem FilesOk.ioStep (h : FilesOk files v) {call : IoCall} {out : IoOut}
    (hfile : call.file ∈ files) (hstep : ioStep v call = some (out, w)) : FilesOk files w := by
  cases call with obtain ⟨_, heq, ⟨⟩⟩ := map_eq_some_iff.mp hstep
  | read ec file r => exact h.fsRead hfile heq
  | write ec file buf n => exact h.fsWrite hfile heq
  | seek file off mode => exact h.fsSeek hfile heq

end

/-- Reads, writes and seeks on open files, in any order. Every offset stays in its file, whose
    shared handle has the length of the inode. In every state of such a run a read of `r ≥ 0`
    bytes returns the bytes between the offset and the end of the file, `r` at most, and
    advances the offset behind them. A seek that does not overflow goes to its target, or to
    the end of the file that is nearest to it. -/
theorem io_keeps_offsets {files : Set Int32} {v w : Vfs} {calls : List IoCall} {outs : List IoOut}
    (h : FilesOk files v)
    (hrun : Trace ioStep (fun _ call => call.file ∈ files) v calls outs w) :
    ∀ file ∈ files, ∃ index ptr i, HandleAt w file index ptr ∧
      (w.heap ptr.shared).ramfsFile = some i ∧
      0 ≤ ptr.offset.toInt ∧ ptr.offset.toInt ≤ (w.heap ptr.shared).size.toInt ∧
      (w.heap ptr.shared).size.toInt = (w.fs.inodeList i).len ∧
      (ptr.read = true → ∀ ec r, 0 ≤ r.toInt → ∃ n : Int64,
        n.toInt = min r.toInt ((w.heap ptr.shared).size.toInt - ptr.offset.toInt) ∧
        (ptr.offset + n).toInt = ptr.offset.toInt + n.toInt ∧
        fsRead w ec file r =
          some (n, .ok, some (load (w.contents i) ptr.offset.toNatClampNeg n.toNatClampNeg),
            w.setHandle index { ptr with offset := ptr.offset + n })) ∧
      ∀ off mode t,
        seekTarget ptr.offset.toInt (w.heap ptr.shared).size.toInt off.toInt mode = some t →
        -2 ^ 63 ≤ t → t < 2 ^ 63 → ∃ offset : Int64,
          offset.toInt = max 0 (min t (w.heap ptr.shared).size.toInt) ∧
          fsSeek w file off mode =
            some (offset, .ok, w.setHandle index { ptr with offset := offset }) := by
  have hw : FilesOk files w := hrun.invariant (fun hs hfile hstep => hs.ioStep hfile hstep) h
  intro file hfile
  obtain ⟨index, ptr, i, hat, hdir, hopen, hsize⟩ := hw.opened file hfile
  refine ⟨index, ptr, i, hat, hopen.inv.ramfsFile_eq, hopen.offset_nonneg, hopen.offset_le, hsize,
    fun hread ec r hr => fsRead_spec hat hdir hread hopen hsize ec hr, ?_⟩
  intro off mode t ht hmin hmax
  obtain ⟨ec, offset, heq, _, _, htarget⟩ := fsSeek_spec hat hdir hopen off mode
  obtain ⟨rfl, hoffset⟩ := htarget t ht hmin hmax
  exact ⟨offset, hoffset, heq⟩

/-! ### A run on one file -/

theorem handleAt_fileA : HandleAt fileA 1 1 ⟨0, true, true, false, [], 1, 1⟩ := ⟨by decide +kernel, by decide +kernel⟩

theorem openOn_fileA : OpenOn fileA ⟨0, true, true, false, [], 1, 1⟩ 2 where
  vfs_eq := by decide +kernel
  inv := ⟨by decide +kernel, by decide +kernel, by decide +kernel, by decide +kernel⟩
  offset_nonneg := by decide
  offset_le := by decide +kernel

theorem filesOk_fileA : FilesOk {1} fileA where
  opened := by
    rintro file rfl
    exact ⟨1, _, 2, handleAt_fileA, rfl, openOn_fileA, by decide +kernel⟩
  shared_eq := by
    rintro file file' index index' ptr ptr' rfl rfl hat hat' _
    rw [(hat.unique hat').2]

/-- Three bytes are written and two of them read back from offset 1. The offset then is 3, the
    length of the file. -/
theorem io_keeps_offsets_fileA :
    ∃ outs w, Trace ioStep (fun _ call => call.file ∈ ({1} : Set Int32)) fileA
        [.write .ok 1 (fun k => UInt8.ofNat k) 3, .seek 1 (-2) .fromEnd, .read .ok 1 10] outs w ∧
      outs = [⟨3, .ok, none⟩, ⟨1, .ok, none⟩, ⟨2, .ok, some [1, 2]⟩] ∧
      ∃ index ptr i, HandleAt w 1 index ptr ∧ (w.heap ptr.shared).ramfsFile = some i ∧
        ptr.offset.toInt ≤ (w.heap ptr.shared).size.toInt ∧
        (w.heap ptr.shared).size.toInt = (w.fs.inodeList i).len := by
  obtain ⟨outs, w, hrun, houts⟩ : ∃ outs w,
      Trace ioStep (fun _ call => call.file ∈ ({1} : Set Int32)) fileA
        [.write .ok 1 (fun k => UInt8.ofNat k) 3, .seek 1 (-2) .fromEnd, .read .ok 1 10] outs w ∧
      outs = [⟨3, .ok, none⟩, ⟨1, .ok, none⟩, ⟨2, .ok, some [1, 2]⟩] := by
    refine ⟨_, _, .cons_get (by exact rfl) (by decide +kernel) <|
      .cons_get (by exact rfl) (by decide +kernel) <|
      .cons_get (by exact rfl) (by decide +kernel) <| .nil _, ?_⟩
    decide +kernel
  obtain ⟨index, ptr, i, hat, hfile, _, hle, hsize, _⟩ := io_keeps_offsets filesOk_fileA hrun 1 rfl
  exact ⟨outs, w, hrun, houts, index, ptr, i, hat, hfile, hle, hsize⟩

/-! ## Sequences of writes -/

/-- The arguments of `fs_write`, and the error code that the caller passes in. -/
structure WriteCall where
  ec : Cause
  writebuf : ℕ → UInt8
  writelen : Int64

/-- A write at offset `o` of a file that contains `a` returns `n` and leaves `b` and the offset
    `o'`: the bytes are stored, their number is returned and the offset advances behind them.
    Or the call fails, reports an error, returns 0 and changes nothing. -/
def WriteSpec (a : List UInt8) (o : ℤ) (call : WriteCall) (n : Int64) (ec : Cause) (b : List UInt8)
    (o' : ℤ) : Prop :=
  (0 ≤ n.toInt ∧ n = call.writelen ∧ ec = .ok ∧
      b = overwrite a o.toNat (bytesOf call.writebuf n.toNatClampNeg) ∧ o' = o + n.toInt) ∨
    (n = 0 ∧ ec ≠ .ok ∧ b = a ∧ o' = o)

/-- The writes on `file`, which is inode `i`, are laid down one after another. -/
inductive WritesInOrder (file : Int32) (i : ℕ) : Vfs → List WriteCall → Prop
  | nil (v : Vfs) : WritesInOrder file i v []
  | cons {v w : Vfs} {index index' : ℕ} {ptr ptr' : VfsFileHandle} {n : Int64} {ec : Cause}
      {call : WriteCall} {calls : List WriteCall} :
      fsWrite v call.ec file call.writebuf call.writelen = some (n, ec, w) →
      HandleAt v file index ptr → HandleAt w file index' ptr' →
      WriteSpec (v.contents i) ptr.offset.toInt call n ec (w.contents i) ptr'.offset.toInt →
      WritesInOrder file i w calls → WritesInOrder file i v (call :: calls)

theorem WritesInOrder.tail {file : Int32} {i : ℕ} {call : WriteCall} {calls : List WriteCall}
    (h : WritesInOrder file i v (call :: calls)) :
    ∃ n ec w, fsWrite v call.ec file call.writebuf call.writelen = some (n, ec, w) ∧
      WritesInOrder file i w calls := by
  rcases h with _ | ⟨heq, _, _, _, hrest⟩
  exact ⟨_, _, _, heq, hrest⟩

section

variable {v : Vfs} {file : Int32} {index i : ℕ} {ptr : VfsFileHandle}
  (hat : HandleAt v file index ptr) (hwrite : ptr.write = true) (hopen : OpenOn v ptr i)

include hat hwrite hopen

theorem fsWrite_some {ec ec' : Cause} {buf : ℕ → UInt8} {n n' : Int64} {w : Vfs} (hn : 0 ≤ n.toInt)
    (hfits : ptr.offset.toInt + n.toInt < 2 ^ 63)
    (heq : fsWrite v ec file buf n = some (n', ec', w)) : n' = n ∧ w.handleList = v.handleList := by
  rw [fsWrite_eq hat hwrite hopen ec buf hn hfits] at heq
  obtain ⟨⟨ec1, v1⟩, hgrow, hrest⟩ := bind_eq_some_iff.mp heq
  obtain ⟨_, _, hout⟩ := bind_eq_some_iff.mp hrest
  obtain ⟨rfl, -, rfl⟩ := hout
  refine ⟨rfl, ?_⟩
  rw [setFs_handleList]
  unfold growFile at hgrow
  split_ifs at hgrow with hsize
  · obtain ⟨_, _, hout⟩ := bind_eq_some_iff.mp hgrow
    obtain ⟨-, rfl⟩ := hout
    rfl
  · obtain ⟨-, rfl⟩ := hgrow
    rfl

theorem fsWrite_zero (ec : Cause) (buf : ℕ → UInt8) :
    ∃ ec' w, fsWrite v ec file buf 0 = some (0, ec', w) ∧ HandleAt w file index ptr ∧
      OpenOn w ptr i ∧ w.contents i = v.contents i := by
  have hlt := ptr.offset.toInt_lt
  have hgrow : growFile v ec ptr.shared (ptr.offset + 0) = some (ec, v) := by
    have hle := hopen.offset_le
    rw [growFile, if_neg]
    rw [Int64.add_zero, gt_iff_lt, lt_iff_toInt_lt]
    omega
  rw [fsWrite_eq hat hwrite hopen ec buf (by decide) (by rw [toInt_zero]; omega), hgrow, bind_some]
  rcases vfsRamfsFileWrite_spec hopen.inv ptr.offset 0 buf with
    ⟨_, inode, heq, hwf, _, hcontents⟩ | ⟨_, heq⟩
  · dsimp only at heq
    refine ⟨.ok, v.setFs (v.fs.setInode i inode), by rw [heq, bind_some],
      ⟨hat.found, hat.get⟩, ⟨hopen.vfs_eq, ⟨hopen.inv.ramfsFile_eq, ?_⟩, hopen.offset_nonneg,
        hopen.offset_le⟩, ?_⟩
    · rw [setFs_fs, setInode_same]
      exact hwf
    · rw [contents, setFs_fs, setInode_same, hcontents]
      exact store_nil _ _
  · dsimp only at heq
    exact ⟨.range, v, by rw [heq, bind_some]; rfl, hat, hopen, rfl⟩

/-- After a write of some bytes the offset is where it was, although their number is returned. -/
theorem not_writesInOrder_cons {call : WriteCall} (calls : List WriteCall)
    (hn : 0 < call.writelen.toInt) (hfits : ptr.offset.toInt + call.writelen.toInt < 2 ^ 63) :
    ¬ WritesInOrder file i v (call :: calls) := by
  rintro (_ | ⟨heq, hat1, hat2, hspec, _⟩)
  obtain ⟨rfl, rfl⟩ := hat.unique hat1
  obtain ⟨rfl, hhandles⟩ := fsWrite_some hat hwrite hopen hn.le hfits heq
  have hat' : HandleAt v file _ _ :=
    ⟨by rw [← hat2.found, vfsFileByHandle, vfsFileByHandle, hhandles], by rw [← hhandles, hat2.get]⟩
  obtain ⟨-, rfl⟩ := hat.unique hat'
  rcases hspec with ⟨_, _, _, _, hadvance⟩ | ⟨hret, _⟩
  · omega
  · rw [hret, toInt_zero] at hn
    omega

end

/-- `fs_write` never advances the offset: writes are laid down in order exactly when each of
    them has length 0 or ends behind the largest offset and is refused. -/
theorem fsWrite_inOrder_iff {file : Int32} {index i : ℕ} {ptr : VfsFileHandle}
    (hwrite : ptr.write = true) {calls : List WriteCall} {v : Vfs}
    (hat : HandleAt v file index ptr) (hopen : OpenOn v ptr i) :
    WritesInOrder file i v calls ↔ ∀ call ∈ calls, 0 ≤ call.writelen.toInt ∧
      (call.writelen = 0 ∨ 2 ^ 63 ≤ ptr.offset.toInt + call.writelen.toInt) := by
  induction calls generalizing v with
  | nil => exact iff_of_true (.nil v) (fun _ h => absurd h not_mem_nil)
  | cons call calls ih =>
    rw [forall_mem_cons]
    constructor
    · intro h
      obtain ⟨n, ec, w, heq, hrest⟩ := h.tail
      have hn : 0 ≤ call.writelen.toInt := by
        by_contra hneg
        have hneg' : call.writelen < 0 := lt_iff_toInt_lt.mpr (not_le.mp hneg)
        rw [fsWrite, if_pos hneg'] at heq
        exact absurd heq (some_ne_none _).symm
      rcases hn.eq_or_lt with hzero | hpos
      · have hzero : call.writelen = 0 := Int64.toInt_inj.mp hzero.symm
        obtain ⟨ec, w, heq', hat', hopen', _⟩ := fsWrite_zero hat hwrite hopen call.ec call.writebuf
        rw [hzero] at heq
        obtain ⟨-, -, rfl⟩ := heq'.symm.trans heq
        exact ⟨⟨hn, .inl hzero⟩, (ih hat' hopen').mp hrest⟩
      by_cases hfits : ptr.offset.toInt + call.writelen.toInt < 2 ^ 63
      · exact absurd h (not_writesInOrder_cons hat hwrite hopen calls hpos hfits)
      · have heq' := fsWrite_nospace hat hwrite hopen call.ec call.writebuf hn (not_lt.mp hfits)
        obtain ⟨-, -, rfl⟩ := heq'.symm.trans heq
        exact ⟨⟨hn, .inr (not_lt.mp hfits)⟩, (ih hat hopen).mp hrest⟩
    · rintro ⟨⟨hn, hzero | hover⟩, hrest⟩
      · obtain ⟨ec, w, heq, hat', hopen', hcontents⟩ :=
          fsWrite_zero hat hwrite hopen call.ec call.writebuf
        rw [← hzero] at heq
        refine .cons heq hat hat' ?_ ((ih hat' hopen').mpr hrest)
        by_cases hec : ec = .ok
        · refine .inl ⟨hn, rfl, hec, ?_, ?_⟩
          · rw [hcontents, hzero]
            exact (take_append_drop _ _).symm
          · rw [hzero, toInt_zero, add_zero]
        · exact .inr ⟨hzero, hec, hcontents, rfl⟩
      · exact .cons (fsWrite_nospace hat hwrite hopen call.ec call.writebuf hn hover) hat hat
          (.inr ⟨rfl, by decide, rfl, rfl⟩) ((ih hat hopen).mpr hrest)

/-- Two bytes are written to `/a`, one after the other: both calls return 1, and the file ends
    with the second byte at offset 0. -/
theorem not_writesInOrder_fileA :
    ((fsWrite fileA .ok 1 (fun _ => 1) 1).bind fun r => (fsWrite r.2.2 .ok 1 (fun _ => 2) 1).map
        fun r' => ((r.1, r.2.1), (r'.1, r'.2.1), r'.2.2.contents 2)) =
      some ((1, .ok), (1, .ok), [2]) ∧
      ¬ WritesInOrder 1 2 fileA [⟨.ok, fun _ => 1, 1⟩, ⟨.ok, fun _ => 2, 1⟩] := by
  exact ⟨by decide +kernel,
    not_writesInOrder_cons handleAt_fileA rfl openOn_fileA _ (by decide) (by decide)⟩

/-- A write of nothing to `/a`. -/
theorem writesInOrder_fileA : WritesInOrder 1 2 fileA [⟨.ok, fun _ => 1, 0⟩] := (fsWrite_inOrder_iff rfl handleAt_fileA openOn_fileA).mpr (by
    intro call hcall
    rw [mem_singleton.mp hcall]
    exact ⟨by decide, .inl rfl⟩)

end BadgerOS.Filesystem
